import Lineage.Proofs.Alike
import Lineage.Proofs.Composition
import Lineage.Proofs.Outline
import Lineage.Proofs.Raising

/-!
# Building a hierarchy from its parents

A hierarchy whose parents have no `_` in them can be built again: declare its types, and give each
type in turn the parents that the hierarchy has recorded for it, in their order
(`addParents_requests`). The parents it was built from may have been others, shorter or given twice.

The proof follows the first run. Beside each hierarchy of the run stands a second one that has the
same outlines and whose records are those of the last hierarchy (`Rebuilt`). A parent that is new in
the run is new for the second hierarchy too, which takes it over as the last hierarchy records it;
a parent that comes again is passed over.
-/

namespace Lineage

variable {α β : Type}

/-! ## 1. Lists and rosters -/

/-- Rosters with the same keys in the same order are the same if they agree on the values. -/
theorem Roster.eq_of_get? [DecidableEq α] {r s : Roster α β} (hkeys : r.keys = s.keys)
    (hnodup : r.keys.Nodup) (hget : ∀ {k v}, r.get? k = some v → s.get? k = some v) : r = s := by
  have hlen : r.entries.length = s.entries.length := by
    simpa [Roster.keys] using congrArg List.length hkeys
  suffices hentries : r.entries = s.entries by
    cases r
    cases s
    exact congrArg Roster.mk hentries
  refine List.ext_getElem hlen fun i hi hi' => ?_
  have hkey : (r.entries[i]).1 = (s.entries[i]).1 := by
    have hget := List.getElem_of_eq hkeys (i := i) (by rwa [Roster.keys, List.length_map])
    simpa [Roster.keys] using hget
  have hr : s.get? (r.entries[i]).1 = some (r.entries[i]).2 :=
    hget ((Roster.mem_entries_iff hnodup).1 (List.getElem_mem hi))
  have hs : s.get? (s.entries[i]).1 = some (s.entries[i]).2 :=
    (Roster.mem_entries_iff (hkeys ▸ hnodup)).1 (List.getElem_mem hi')
  rw [← hkey, hr] at hs
  exact Prod.ext hkey (Option.some_inj.1 hs)

/-- A new key comes after the others. -/
theorem Roster.entries_insert_of_not_mem [DecidableEq α] {r : Roster α β} {k : α} (v : β)
    (hk : k ∉ r.keys) : (r.insert k v).entries = r.entries ++ [(k, v)] := by
  obtain ⟨es⟩ := r
  show Roster.write k v es = es ++ [(k, v)]
  induction es with
  | nil => rfl
  | cons e es ih =>
      rw [Roster.keys, List.map_cons, List.mem_cons, not_or] at hk
      rw [Roster.write, if_neg (Ne.symm hk.1), ih hk.2]
      rfl

/-- What is added to one list, where the later ones are empty, comes at the end of them all. -/
theorem flatten_modify_concat {xss : List (List α)} {c : Nat} (new : List α) (hc : c < xss.length)
    (hempty : ∀ {i xs}, c < i → xss[i]? = some xs → xs = []) :
    (xss.modify c (· ++ new)).flatten = xss.flatten ++ new := by
  induction xss generalizing c with
  | nil => exact absurd hc (Nat.not_lt_zero _)
  | cons xs xss ih =>
      cases c with
      | zero =>
          have hrest : xss.flatten = [] := List.flatten_eq_nil_iff.2 fun ys hys => by
            obtain ⟨i, hi⟩ := List.mem_iff_getElem?.1 hys
            exact hempty (Nat.succ_pos i) hi
          rw [List.modify_zero_cons, List.flatten_cons, List.flatten_cons, hrest, List.append_nil,
            List.append_nil]
      | succ c =>
          rw [List.modify_succ_cons, List.flatten_cons, List.flatten_cons,
            ih (Nat.lt_of_succ_lt_succ hc) fun hi hxs => hempty (Nat.succ_lt_succ hi) hxs,
            List.append_assoc]

/-- The parents that a type has recorded, as requests. -/
def Node.requests (n : Node) : List (String × Ty) :=
  n.parents.entries.map fun e => (n.name, .app e.2)

namespace Hierarchy

variable {h k k' : Hierarchy} {child parent n : Node} {record l : App Ty} {c p : Nat}

/-! ## 2. A hierarchy within another -/

theorem foreign_of_admits {t : Ty} (ht : ∀ v ∈ t.vars, child.Admits v) :
    foreign child t = none := by
  have hall {ts : List Ty} (hts : ∀ t ∈ ts, foreign child t = none) :
      foreignAny child ts = none := by
    induction ts with
    | nil => rw [foreignAny]
    | cons t ts ih =>
        rw [List.forall_mem_cons] at hts
        rw [foreignAny, hts.1, Option.none_or, ih hts.2]
  induction t using Ty.induct with
  | app head args ih =>
      rw [foreign, foreignApp]
      refine hall fun t hmem => ih t hmem fun v hv => ht v ?_
      rw [Ty.vars_app]
      exact App.mem_vars.2 ⟨t, hmem, hv⟩
  | var name lower upper _ _ =>
      obtain ⟨hb, hv⟩ := ht _ (by rw [Ty.vars_var]; exact List.mem_singleton_self _)
      rw [foreign, hb, if_neg Bool.false_ne_true, if_pos (by simpa using hv)]

/-- **A record can be asked for**, as it is. -/
theorem IsRecord.resolves (ok : k.IsRecord child parent l) (hk : Sound k) (hopen : k.tables = none)
    (hchild : k.nodes[c]? = some child) (hparent : k.nodes[p]? = some parent) :
    k.Resolves child.name (.app l) child parent l where
  open_ := hopen
  child_eq := hk.find_of_node hchild
  link_eq := ⟨l, rfl, normalizeApp_of_isNormalApp ok.normal⟩
  foreign_eq := by
    have hforeign : foreign child (.app l) = none := foreign_of_admits fun v hv => by
      rw [Ty.vars_app] at hv
      exact ok.admitted v hv
    rwa [foreign] at hforeign
  parent_eq := by
    rw [ok.head_eq]
    exact hk.find_of_node hparent

/-- The same types, with some of the parents and the records that come with them. -/
structure PartOf (k h : Hierarchy) : Prop where
  same : SameTypes h k
  record : ∀ {d a : Nat} {r : App Ty}, k.record? d a = some r → h.record? d a = some r
  parent : ∀ {c p : Nat} {n' : Node} {l : App Ty}, k.nodes[c]? = some n' →
    n'.parents.get? p = some l → ∃ n, h.nodes[c]? = some n ∧ n.parents.get? p = some l

/-- Without parents a type has itself as its only ancestor. -/
theorem eq_of_hasAncestor_typesOnly (hs : Sound h) {d a : Nat}
    (hda : h.typesOnly.HasAncestor d a) : a = d := by
  obtain ⟨-, hpath⟩ := (sound_typesOnly hs).closure.1 hda
  cases hpath with
  | refl => rfl
  | tail _ hstep => exact absurd hstep not_hasParent_typesOnly

theorem partOf_typesOnly (hs : Sound h) : PartOf h.typesOnly h where
  same := sameTypes_typesOnly
  record := fun {d a r} hr => by
    obtain rfl := eq_of_hasAncestor_typesOnly hs (hasAncestor_iff.2 ⟨r, hr⟩)
    obtain ⟨m, hm, -⟩ := record?_eq_some.1 hr
    obtain ⟨n, hn, hb⟩ := sameTypes_typesOnly.symm.node hm
    rw [(sound_typesOnly hs).record_self hm] at hr
    cases hr
    rw [hs.record_self hn, Node.self, Node.self, (Node.bare_eq_iff.1 hb).2.1,
      (Node.bare_eq_iff.1 hb).2.2]
  parent := fun {c p n' l} hn' hl => by
    have hcp : h.typesOnly.HasParent c p := ⟨n', hn', Option.isSome_of_mem hl⟩
    exact absurd hcp not_hasParent_typesOnly

/-- A parent of the whole keeps it within the whole, if it brings what the whole has recorded. -/
theorem PartOf.extend (w : PartOf k h) (ex : Extension k k' child parent record)
    (hparent : ∃ n, h.nodes[child.id]? = some n ∧ n.parents.get? parent.id = some record)
    (hb : ∀ {d a : Nat} {x y : App Ty}, k.record? d child.id = some x →
      k.record? parent.id a = some y → h.record? d a = some (carried child parent record x y)) :
    PartOf k' h where
  same := w.same.trans ex.same
  record := fun {d a r} hr => by
    rcases ex.record_cases hr with hr | ⟨x, y, hx, hy, hj⟩
    · exact w.record hr
    · rw [hj.unique (joined_same fun z hz => ?_)]
      · exact hb hx hy
      · exact Option.some_inj.1 ((w.record hz).symm.trans (hb hx hy))
  parent := fun {c p n' l} hn' hl => by
    rcases ex.get?_parents hn' hl with ⟨rfl, rfl, rfl⟩ | ⟨m, hm, hl⟩
    · exact hparent
    · exact w.parent hm hl

/-- **A part accepts every parent of the whole.** -/
theorem PartOf.exists_extension (w : PartOf k h) (fit : Fitting h) (hs : Sound h)
    (hplain : h.PlainParents) (hk : Sound k) (hopen : k.tables = none) (hn : h.nodes[c]? = some n)
    (hl : n.parents.get? p = some l) (hnew : ¬ k.HasParent c p) :
    ∃ k' child parent, k.addParent n.name (.app l) = .ok k' ∧ PartOf k' h ∧
      k.nodes[c]? = some child ∧ child.id = c ∧ parent.id = p ∧ child.name = n.name ∧
      Extension k k' child parent l ∧ k'.outlines = joinOutlines k.outlines c p := by
  obtain ⟨hrec, -⟩ := fit.record_parent hs hplain hn hl
  have hcp : h.HasAncestor c p := hasAncestor_iff.2 ⟨l, hrec⟩
  obtain ⟨m, hm⟩ := hs.node_of_ancestor hcp
  obtain ⟨child, hchild, hbn⟩ := w.same.node hn
  obtain ⟨parent, hparent, hbm⟩ := w.same.node hm
  obtain rfl := hk.id_eq hchild
  obtain rfl := hk.id_eq hparent
  have ok : k.IsRecord child parent l := (hs.isRecord hn hm hrec).congr w.same hbn hbm
  have hname : child.name = n.name := (Node.bare_eq_iff.1 hbn).2.1
  have hres : k.Resolves n.name (.app l) child parent l :=
    hname ▸ ok.resolves hk hopen hchild hparent
  have hd : parent.id ∉ child.descendants := by
    intro hmem
    obtain ⟨x, hx⟩ := hasAncestor_iff.1 (hk.ancestor_descendant.2 ⟨child, hchild, hmem⟩)
    have hback : h.HasAncestor parent.id child.id := hasAncestor_iff.2 ⟨x, w.record hx⟩
    have hne := hs.parent_ne ⟨n, hn, Option.isSome_of_mem hl⟩
    exact hne (hs.acyclic hback hcp)
  have hj : Joined (child.ancestors.get? parent.id) l l := joined_same fun x hx =>
    Option.some_inj.1 ((w.record (record?_eq_some.2 ⟨child, hchild, hx⟩)).symm.trans hrec)
  have hget : child.parents.get? parent.id ≠ some l := fun hget =>
    hnew ⟨child, hchild, Option.isSome_of_mem hget⟩
  -- what the parent brings is what the whole has recorded
  have hb {d a : Nat} {x y : App Ty} (hx : k.record? d child.id = some x)
      (hy : k.record? parent.id a = some y) :
      h.record? d a = some (carried child parent l x y) := by
    rw [carried, w.same.substitute_eq hn hchild, w.same.substitute_eq hm hparent]
    exact fit.carried_eq hs hplain hn hm hl (w.record hx) (w.record hy)
  obtain ⟨ls, hls⟩ := exists_legacies hk hchild hparent fun hx hy =>
    ⟨_, joined_same fun z hz => Option.some_inj.1 ((w.record hz).symm.trans (hb hx hy))⟩
  have ex := extension_connected hk hchild hparent hls
  exact ⟨_, child, parent,
    addParent_eq_ok.2 ⟨child, parent, l, l, hres, hd, hj, Or.inr ⟨hget, ls, hls, rfl⟩⟩,
    w.extend ex ⟨n, hn, hl⟩ hb, hchild, rfl, rfl, hname, ex,
    outlines_connected hk hchild hparent hls⟩

/-- **A part with the same outlines is the whole.** -/
theorem PartOf.nodes_eq (w : PartOf k h) (hk : Sound k)
    (hout : k.outlines = h.outlines) : k.nodes = h.nodes := by
  refine List.ext_getElem? fun i => ?_
  have hi := congrArg (·[i]?) hout
  simp only [getElem?_outlines] at hi
  cases hn' : k.nodes[i]? with
  | none =>
      rw [hn'] at hi
      exact (Option.map_eq_none_iff.1 hi.symm).symm
  | some n' =>
      rw [hn'] at hi
      obtain ⟨n, hn, hout⟩ := Option.map_eq_some_iff.1 hi.symm
      obtain ⟨hb, hpar, hch, hanc, hdesc⟩ := Outline.mk.inj hout
      have hmem := List.mem_of_getElem? hn'
      have hparents : n'.parents = n.parents := by
        refine Roster.eq_of_get? hpar.symm (hk.parents_nodup hmem) fun hl => ?_
        obtain ⟨m, hm, hl⟩ := w.parent hn' hl
        rw [hn] at hm
        cases hm
        exact hl
      have hancestors : n'.ancestors = n.ancestors := by
        refine Roster.eq_of_get? hanc.symm (hk.ancestors_nodup hmem) fun hr => ?_
        have hr := w.record (record?_eq_some.2 ⟨n', hn', hr⟩)
        rwa [record?, hn] at hr
      obtain ⟨hid, hname, hparams⟩ := Node.bare_eq_iff.1 hb
      rw [hn]
      refine congrArg some ?_
      cases n
      cases n'
      rw [Node.mk.injEq]
      exact ⟨hid.symm, hname.symm, hparams.symm, hparents, hch.symm, hancestors, hdesc.symm⟩

/-! ## 3. Requests for the parents of a hierarchy -/

/-- Type by type, the parents that are recorded. -/
def requests (h : Hierarchy) : List (String × Ty) := (h.nodes.map Node.requests).flatten

/-- What a new parent adds to the requests of a type. -/
theorem requests_node {i : Nat} {n' : Node} (hc : k.nodes[child.id]? = some child)
    (ex : Extension k k' child parent l) (hnew : ¬ k.HasParent child.id parent.id)
    (hn : k.nodes[i]? = some n) (hn' : k'.nodes[i]? = some n') : n'.requests =
      if child.id = i then n.requests ++ [(child.name, .app l)] else n.requests := by
  obtain ⟨m', hm', hb⟩ := ex.same.node hn
  rw [hn'] at hm'
  cases hm'
  obtain ⟨m, hm, hpar, -⟩ := ex.node hn'
  rw [hn] at hm
  cases hm
  rw [Node.requests, Node.requests, hpar, (Node.bare_eq_iff.1 hb).2.1]
  by_cases hi : child.id = i
  · subst hi
    rw [hc] at hn
    cases hn
    have hkey : parent.id ∉ child.parents.keys := fun hmem =>
      hnew ⟨child, hc, (Roster.contains_iff _ _).2 hmem⟩
    rw [if_pos rfl, if_pos rfl, Roster.entries_insert_of_not_mem l hkey, List.map_append]
    rfl
  · rw [if_neg hi, if_neg hi]

/-- **A new parent of a type behind which no type has parents is the last request.** -/
theorem requests_extension (hc : k.nodes[child.id]? = some child)
    (ex : Extension k k' child parent l) (hnew : ¬ k.HasParent child.id parent.id)
    (hlast : ∀ {i q : Nat}, k.HasParent i q → i ≤ child.id) :
    k'.requests = k.requests ++ [(child.name, .app l)] := by
  have hmap : k'.nodes.map Node.requests =
      (k.nodes.map Node.requests).modify child.id (· ++ [(child.name, .app l)]) := by
    refine List.ext_getElem? fun i => ?_
    rw [List.getElem?_modify, List.getElem?_map, List.getElem?_map]
    cases hn : k.nodes[i]? with
    | none =>
        have hnone : k'.nodes[i]? = none := by
          rw [List.getElem?_eq_none_iff] at hn ⊢
          rwa [ex.same.size_eq]
        rw [hnone]
        rfl
    | some n =>
        obtain ⟨n', hn', -⟩ := ex.same.node hn
        rw [hn']
        exact congrArg some (requests_node hc ex hnew hn hn')
  rw [requests, hmap, flatten_modify_concat, requests]
  · rw [List.length_map]
    exact (List.getElem?_eq_some_iff.1 hc).1
  · intro i xs hi hxs
    rw [List.getElem?_map] at hxs
    obtain ⟨n, hn, rfl⟩ := Option.map_eq_some_iff.1 hxs
    refine List.map_eq_nil_iff.2 (List.eq_nil_iff_forall_not_mem.2 fun e he => ?_)
    have hcp : k.HasParent i e.1 := ⟨n, hn, (Roster.contains_iff _ _).2 (List.mem_map_of_mem he)⟩
    exact absurd (hlast hcp) (Nat.not_le.2 hi)

/-- A part of a hierarchy that comes out of its own requests. -/
structure Rebuilt (h k : Hierarchy) : Prop where
  sound : Sound k
  open_ : k.tables = none
  part : PartOf k h
  built : h.typesOnly.addParents k.requests = .ok k

theorem rebuilt_typesOnly (hs : Sound h) : Rebuilt h h.typesOnly where
  sound := sound_typesOnly hs
  open_ := rfl
  part := partOf_typesOnly hs
  built := by
    have hnil : h.typesOnly.requests = [] := List.flatten_eq_nil_iff.2 fun xs hxs => by
      rw [typesOnly, List.map_map] at hxs
      obtain ⟨n, -, rfl⟩ := List.mem_map.1 hxs
      rfl
    rw [hnil]
    rfl

/-- **One more parent.** -/
theorem Rebuilt.step (B : Rebuilt h k) (fit : Fitting h) (hs : Sound h) (hplain : h.PlainParents)
    (hcp : h.HasParent c p) (hnew : ¬ k.HasParent c p)
    (hlast : ∀ {i q : Nat}, k.HasParent i q → i ≤ c) :
    ∃ k', Rebuilt h k' ∧ k'.outlines = joinOutlines k.outlines c p := by
  obtain ⟨n, hn, hcontains⟩ := hcp
  obtain ⟨l, hl⟩ := Option.isSome_iff_exists.1 hcontains
  obtain ⟨k', child, parent, e, w, hc, rfl, rfl, hname, ex, hout⟩ :=
    B.part.exists_extension fit hs hplain B.sound B.open_ hn hl hnew
  refine ⟨k', ⟨B.sound.addParent e, ex.tables_eq.trans B.open_, w, ?_⟩, hout⟩
  rw [requests_extension hc ex hnew hlast, addParents, List.foldlM_append]
  refine bind_eq_ok.2 ⟨k, B.built, ?_⟩
  rw [hname]
  exact addParents_cons.2 ⟨k', e, rfl⟩

/-! ## 4. The run -/

/-- The first type is declared no later than the second one. -/
def NotAfter (h : Hierarchy) (name name' : String) : Prop :=
  ∀ {i j : Nat}, h.idOf? name = some i → h.idOf? name' = some j → i ≤ j

/-- The requests come type by type, in the order in which the types are declared. -/
def Grouped (h : Hierarchy) (links : List (String × Ty)) : Prop :=
  links.Pairwise fun l l' => h.NotAfter l.1 l'.1

/-- What a run keeps. -/
theorem addParents_keeps {links : List (String × Ty)} (hr : Reachable k)
    (e : k.addParents links = .ok h) : Reachable h ∧ SameTypes k h ∧ h.tables = k.tables ∧
      ∀ {c p : Nat}, k.HasParent c p → h.HasParent c p := by
  induction links generalizing k with
  | nil =>
      cases e
      exact ⟨hr, .refl _, rfl, id⟩
  | cons l links ih =>
      obtain ⟨k', ek, e⟩ := addParents_cons.1 e
      have hs := sound_of_reachable hr
      obtain ⟨c, p, -, -, htables, hpar⟩ := outlines_addParent hs ek
      obtain ⟨hr', same, htables', hmono⟩ := ih (hr.addParent ek) e
      exact ⟨hr', (sameTypes_addParent hs ek).trans same, htables'.trans htables,
        fun hcp => hmono (hpar.2 (Or.inl hcp))⟩

theorem hasParent_of_outlines (hout : k.outlines = k'.outlines) :
    k.HasParent c p ↔ k'.HasParent c p := by
  have hiff (h : Hierarchy) : h.HasParent c p ↔ ∃ o, h.outlines[c]? = some o ∧ p ∈ o.parents := by
    rw [getElem?_outlines]
    constructor
    · rintro ⟨n, hn, hp⟩
      exact ⟨n.outline, by rw [hn]; rfl, (Roster.contains_iff _ _).1 hp⟩
    · rintro ⟨o, ho, hp⟩
      obtain ⟨n, hn, rfl⟩ := Option.map_eq_some_iff.1 ho
      exact ⟨n, hn, (Roster.contains_iff _ _).2 hp⟩
  rw [hiff, hiff, hout]

/-- **Beside the run, the last hierarchy is built from its own parents.** -/
theorem Rebuilt.run {run : Hierarchy} {links : List (String × Ty)} (fit : Fitting h) (hs : Sound h)
    (hplain : h.PlainParents) (hr : Reachable run) (e : run.addParents links = .ok h)
    (hgroup : h.Grouped links)
    (hlast : ∀ l ∈ links, ∀ {i j q : Nat}, h.idOf? l.1 = some j → run.HasParent i q → i ≤ j)
    (B : Rebuilt h k) (hout : k.outlines = run.outlines) :
    ∃ k', Rebuilt h k' ∧ k'.outlines = h.outlines := by
  induction links generalizing run k with
  | nil =>
      cases e
      exact ⟨k, B, hout⟩
  | cons l links ih =>
      obtain ⟨next, enext, e⟩ := addParents_cons.1 e
      have hrun := sound_of_reachable hr
      have hnext := hr.addParent enext
      obtain ⟨c, p, hid, hjoin, -, hpar⟩ := outlines_addParent hrun enext
      obtain ⟨-, same, -, hmono⟩ := addParents_keeps hnext e
      have hid : h.idOf? l.1 = some c := by
        rw [same.idOf?_eq, (sameTypes_addParent hrun enext).idOf?_eq, hid]
      rw [List.forall_mem_cons] at hlast
      rw [Grouped, List.pairwise_cons] at hgroup
      -- the types behind the child have no parents yet
      have hlast' : ∀ l' ∈ links, ∀ {i j q : Nat}, h.idOf? l'.1 = some j → next.HasParent i q →
          i ≤ j := by
        intro l' hl' i j q hj hiq
        rcases hpar.1 hiq with hiq | ⟨rfl, -⟩
        · exact hlast.2 l' hl' hj hiq
        · exact hgroup.1 l' hl' hid hj
      by_cases hold : run.HasParent c p
      · -- the parent is there already: the second hierarchy waits
        refine ih hnext e hgroup.2 hlast' B ?_
        rw [hout, hjoin, joinOutlines_eq hrun hold]
      · obtain ⟨k', B', hout'⟩ := B.step fit hs hplain (hmono (hpar.2 (Or.inr ⟨rfl, rfl⟩)))
          (fun hcp => hold ((hasParent_of_outlines hout).1 hcp))
          fun hiq => hlast.1 hid ((hasParent_of_outlines hout).1 hiq)
        refine ih hnext e hgroup.2 hlast' B' ?_
        rw [hout', hjoin, hout]

theorem SameTypes.types_eq (same : SameTypes h k) : k.types = h.types := by
  have htypes (h : Hierarchy) :
      h.types = (h.nodes.map Node.bare).map fun n => (n.name, n.params) := by
    rw [List.map_map]
    rfl
  rw [htypes, htypes, same]

theorem types_declareAll {types : List (String × List Param)} (e : declareAll types = .ok h) :
    h.types = types := by
  have step : ∀ {types : List (String × List Param)} {k : Hierarchy},
      types.foldlM (fun h t => h.declare t.1 t.2) k = .ok h → h.types = k.types ++ types := by
    intro types
    induction types with
    | nil =>
        intro k e
        cases e
        exact (List.append_nil _).symm
    | cons t types ih =>
        intro k e
        rw [List.foldlM_cons] at e
        obtain ⟨k', ek, e⟩ := bind_eq_ok.1 e
        obtain ⟨-, -, -, rfl⟩ := declare_eq_ok ek
        rw [ih e, Hierarchy.types, Hierarchy.types, List.map_append, List.append_assoc]
        rfl
  exact step e

/-- Declared types have nothing but themselves. -/
theorem typesOnly_declareAll {types : List (String × List Param)} (e : declareAll types = .ok h) :
    h.typesOnly = h := by
  have hs := sound_of_reachable (reachable_of_declareAll e).1
  have hagain := declareAll_types hs
  rw [types_declareAll e, e] at hagain
  exact (Except.ok.inj hagain).symm

/-- **A hierarchy comes out of its own parents**, if they have no `_` in them and those it was built
    from came type by type. -/
theorem addParents_requests {types : List (String × List Param)} {links : List (String × Ty)}
    (htypes : declareAll types = .ok k) (e : k.addParents links = .ok h) (hgroup : h.Grouped links)
    (hplain : h.PlainParents) : declareAll h.types = .ok k ∧ k.addParents h.requests = .ok h := by
  obtain ⟨hrk, hopen⟩ := reachable_of_declareAll htypes
  obtain ⟨hr, same, htables, -⟩ := addParents_keeps hrk e
  have hs := sound_of_reachable hr
  have fit := fitting_of_reachable hr
  have htypesOnly : h.typesOnly = k := by
    rw [← typesOnly_declareAll htypes, typesOnly, typesOnly, same]
  have hbare := typesOnly_declareAll htypes
  obtain ⟨k', B, hout⟩ := Rebuilt.run fit hs hplain hrk e hgroup
    (fun l _ i j q _ hiq => absurd (hbare ▸ hiq) not_hasParent_typesOnly)
    (rebuilt_typesOnly hs) (congrArg outlines htypesOnly)
  obtain rfl : k' = h := by
    have hnodes := B.part.nodes_eq B.sound hout
    have hopen' := B.open_.trans (htables.trans hopen).symm
    cases k'
    cases h
    exact congr (congrArg Hierarchy.mk hnodes) hopen'
  exact ⟨htypesOnly ▸ declareAll_types hs, htypesOnly ▸ B.built⟩

end Hierarchy

end Lineage

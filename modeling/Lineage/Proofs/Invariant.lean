import Lineage.Proofs.Extension
import Mathlib.Logic.Relation

/-!
# The invariant of reachable hierarchies

`Sound` collects what every reachable hierarchy keeps: numbers, names and parameters are unique,
parents mirror children and ancestors mirror descendants, the ancestors are the closure of the
parents, nothing is its own parent or proper ancestor, every record is well formed, and the tables
of a finalized hierarchy are those of its types.

The parts depend on each other and are carried through the calls together. `Extension` says once
what a new parent changes; the invariant is derived from it, and so is everything else that is
proved about building hierarchies.
-/

namespace Lineage.Hierarchy

open Relation

variable {h h' : Hierarchy}

/-! ## 1. The invariant -/

/-- A record by which one type may have another as an ancestor: an instance of the ancestor, of
    declared arity at every level, written in the parameters of the heir. -/
structure IsRecord (h : Hierarchy) (heir ancestor : Node) (r : App Ty) : Prop where
  head_eq : r.head = ancestor.name
  normal : h.isNormalApp r = true
  admitted : ∀ v ∈ r.vars, heir.Admits v

/-- What every reachable hierarchy keeps. -/
structure Sound (h : Hierarchy) : Prop where
  id_eq : ∀ {i : Nat} {n : Node}, h.nodes[i]? = some n → n.id = i
  names_nodup : (h.nodes.map Node.name).Nodup
  params_nodup : ∀ {n : Node}, n ∈ h.nodes → (n.params.map Param.name).Nodup
  parents_nodup : ∀ {n : Node}, n ∈ h.nodes → n.parents.keys.Nodup
  children_nodup : ∀ {n : Node}, n ∈ h.nodes → n.children.Nodup
  ancestors_nodup : ∀ {n : Node}, n ∈ h.nodes → n.ancestors.keys.Nodup
  parent_child : ∀ {c p : Nat}, h.HasParent c p ↔ h.HasChild p c
  ancestor_descendant : ∀ {d a : Nat}, h.HasAncestor d a ↔ h.HasDescendant a d
  closure : ∀ {d a : Nat}, h.HasAncestor d a ↔ d < h.nodes.length ∧ ReflTransGen h.HasParent d a
  acyclic : ∀ {d a : Nat}, h.HasAncestor d a → h.HasAncestor a d → d = a
  parent_ne : ∀ {c p : Nat}, h.HasParent c p → p ≠ c
  record_self : ∀ {i : Nat} {n : Node}, h.nodes[i]? = some n → h.record? i i = some n.self
  record_ok : ∀ {d a : Nat} {r : App Ty} {n : Node}, h.nodes[d]? = some n →
    h.record? d a = some r → ∃ m : Node, h.nodes[a]? = some m ∧ h.IsRecord n m r
  tables_eq : ∀ {t : Nearest.Tables}, h.tables = some t → t = Nearest.Tables.build h.nodes

namespace Sound

variable (hs : Sound h)
include hs

theorem node_of_mem {n : Node} (hn : n ∈ h.nodes) : h.nodes[n.id]? = some n := by
  obtain ⟨i, hi⟩ := List.mem_iff_getElem?.1 hn
  rw [hs.id_eq hi]
  exact hi

theorem node_of_find {name : String} {n : Node} (hn : h.find? name = some n) :
    h.nodes[n.id]? = some n :=
  hs.node_of_mem (find?_mem hn)

/-- **A type is found under its own name.** -/
theorem find_of_node {i : Nat} {n : Node} (hn : h.nodes[i]? = some n) :
    h.find? n.name = some n := by
  obtain ⟨hi, e⟩ := List.getElem?_eq_some_iff.1 hn
  cases hf : h.find? n.name with
  | none =>
      have := List.find?_eq_none.1 hf n (List.mem_of_getElem? hn)
      simp at this
  | some m =>
      have hm := hs.node_of_find hf
      have hname : m.name = n.name := find?_name hf
      have hij : m.id = i := by
        refine (List.getElem?_inj ?_ hs.names_nodup).1 ?_
        · rw [List.length_map]
          exact (List.getElem?_eq_some_iff.1 hm).1
        · rw [List.getElem?_map, List.getElem?_map, hm, hn, Option.map_some, Option.map_some, hname]
      rw [hij, hn] at hm
      exact hm.symm

theorem idOf?_eq_some {i : Nat} {name : String} :
    h.idOf? name = some i ↔ ∃ n, h.nodes[i]? = some n ∧ n.name = name := by
  constructor
  · intro e
    rw [idOf?, List.findIdx?_eq_some_iff_getElem] at e
    obtain ⟨hi, hn, -⟩ := e
    exact ⟨h.nodes[i], List.getElem?_eq_getElem hi, by simpa using hn⟩
  · rintro ⟨n, hn, rfl⟩
    cases hf : h.idOf? n.name with
    | none =>
        have := List.findIdx?_eq_none_iff.1 hf n (List.mem_of_getElem? hn)
        simp at this
    | some j =>
        rw [idOf?, List.findIdx?_eq_some_iff_getElem] at hf
        obtain ⟨hj, hname, -⟩ := hf
        congr 1
        refine (List.getElem?_inj (by simpa using hj) hs.names_nodup).1 ?_
        rw [List.getElem?_map, List.getElem?_map, hn, List.getElem?_eq_getElem hj]
        simpa using hname

theorem hasAncestor_refl {i : Nat} {n : Node} (hn : h.nodes[i]? = some n) : h.HasAncestor i i :=
  hasAncestor_iff.2 ⟨_, hs.record_self hn⟩

theorem hasAncestor_trans {d b a : Nat} (hdb : h.HasAncestor d b) (hba : h.HasAncestor b a) :
    h.HasAncestor d a := by
  obtain ⟨hd, hdb⟩ := hs.closure.1 hdb
  exact hs.closure.2 ⟨hd, hdb.trans (hs.closure.1 hba).2⟩

theorem hasAncestor_of_parent {c p : Nat} (hcp : h.HasParent c p) : h.HasAncestor c p := by
  obtain ⟨n, hn, -⟩ := id hcp
  exact hs.closure.2 ⟨(List.getElem?_eq_some_iff.1 hn).1, .single hcp⟩

/-- Every ancestor is a declared type. -/
theorem node_of_ancestor {d a : Nat} (hda : h.HasAncestor d a) : ∃ n, h.nodes[a]? = some n := by
  obtain ⟨n, hn, -⟩ := hs.ancestor_descendant.1 hda
  exact ⟨n, hn⟩

theorem isRecord {n m : Node} {r : App Ty} {d a : Nat} (hn : h.nodes[d]? = some n)
    (hm : h.nodes[a]? = some m) (hr : h.record? d a = some r) : h.IsRecord n m r := by
  obtain ⟨m', hm', ok⟩ := hs.record_ok hn hr
  rw [hm] at hm'
  cases hm'
  exact ok

end Sound

namespace IsRecord

variable {n m k : Node} {r x y z : App Ty}

theorem args_length (hs : Sound h) (hm : m ∈ h.nodes) (ok : h.IsRecord n m r) :
    r.args.length = m.arity := by
  obtain ⟨⟨m', hm', hl⟩, -⟩ := isNormalApp_iff.1 ok.normal
  rw [ok.head_eq, hs.find_of_node (hs.node_of_mem hm)] at hm'
  cases hm'
  exact hl

theorem admitted_args (ok : h.IsRecord n m r) : ∀ t ∈ r.args, ∀ v ∈ t.vars, n.Admits v :=
  fun t ht v hv => ok.admitted v (App.mem_vars.2 ⟨t, ht, hv⟩)

theorem normal_args (ok : h.IsRecord n m r) : ∀ t ∈ r.args, h.isNormal t = true :=
  (isNormalApp_iff.1 ok.normal).2

/-- Records along two steps give a record of both together. -/
theorem substitute (hx : h.IsRecord n k x) (hy : h.IsRecord k m y) :
    h.IsRecord n m (k.substitute y x.args) where
  head_eq := (Node.head_substitute k y x.args).trans hy.head_eq
  normal := isNormalApp_substitute hy.normal hx.normal_args
  admitted := Node.admits_substitute hx.admitted_args

/-- Two records of one ancestor join to a record of it. -/
theorem joined (hx : h.IsRecord n m x) (hy : h.IsRecord n m y) (e : x.refine y = some z) :
    h.IsRecord n m z where
  head_eq := by
    have := (App.covers_iff.1 (App.covers_refine e).1).1
    rw [← this, hx.head_eq]
  normal := isNormalApp_refine e hx.normal hy.normal
  admitted := by
    have key := App.holds_refine (P := fun t => ∀ v ∈ t.vars, n.Admits v) (Q := fun _ _ => True)
      (fun f as => by
        rw [Ty.vars_app]
        constructor
        · exact fun hv => ⟨trivial, fun t ht v hvt => hv v (App.mem_vars.2 ⟨t, ht, hvt⟩)⟩
        · rintro ⟨-, hv⟩ v hm
          obtain ⟨t, ht, hvt⟩ := App.mem_vars.1 hm
          exact hv t ht v hvt) e
    simpa using key (by simpa using hx.admitted) (by simpa using hy.admitted)

/-- Records are a matter of the declared types. -/
theorem congr {n' m' : Node} (e : SameTypes h h') (hn : n'.bare = n.bare) (hm : m'.bare = m.bare)
    (ok : h.IsRecord n m r) : h'.IsRecord n' m' r where
  head_eq := ok.head_eq.trans (Node.bare_eq_iff.1 hm).2.1.symm
  normal := e.isNormalApp_iff.2 ok.normal
  admitted := fun v hv => by
    have hp : n'.paramIndex? = n.paramIndex? := by
      rw [← Node.paramIndex?_bare n', hn, Node.paramIndex?_bare]
    obtain ⟨hb, hv⟩ := ok.admitted v hv
    exact ⟨hb, by rw [hp]; exact hv⟩

end IsRecord

/-- The type applied to its own parameters is a record of itself. -/
theorem isRecord_self {n : Node} (hn : h.find? n.name = some n) : h.IsRecord n n n.self where
  head_eq := rfl
  normal := by
    refine isNormalApp_iff.2 ⟨⟨n, hn, by simp [Node.self, Node.generic, Node.arity]⟩, ?_⟩
    intro t ht
    obtain ⟨p, -, rfl⟩ := List.mem_map.1 ht
    exact isNormal_free
  admitted := by
    intro v hv
    obtain ⟨t, ht, hv⟩ := App.mem_vars.1 hv
    obtain ⟨p, hp, rfl⟩ := List.mem_map.1 ht
    rw [Ty.vars_var, List.mem_singleton] at hv
    subst hv
    exact ⟨rfl, Or.inr (Node.paramIndex?_isSome_iff.2 (List.mem_map_of_mem hp))⟩

/-! ## 2. What a new parent changes -/

/-- The second hierarchy is the first one with `parent` as a parent of `child` under `record`. -/
structure Extension (h h' : Hierarchy) (child parent : Node) (record : App Ty) : Prop where
  same : SameTypes h h'
  tables_eq : h'.tables = h.tables
  node : ∀ {i : Nat} {n' : Node}, h'.nodes[i]? = some n' → ∃ n, h.nodes[i]? = some n ∧
    n'.parents = (if child.id = i then n.parents.insert parent.id record else n.parents) ∧
    n'.children = (if parent.id = i then addNew n.children child.id else n.children) ∧
    n'.ancestors.keys.Nodup
  ancestor : ∀ {d a : Nat}, h'.HasAncestor d a ↔
    h.HasAncestor d a ∨ (h.HasAncestor d child.id ∧ h.HasAncestor parent.id a)
  descendant : ∀ {d a : Nat}, h'.HasDescendant a d ↔
    h.HasDescendant a d ∨ (h.HasAncestor d child.id ∧ h.HasAncestor parent.id a)
  record_old : ∀ {d a : Nat}, ¬ (h.HasAncestor d child.id ∧ h.HasAncestor parent.id a) →
    h'.record? d a = h.record? d a
  record_new : ∀ {d a : Nat} {x y : App Ty}, h.record? d child.id = some x →
    h.record? parent.id a = some y →
      ∃ r, h'.record? d a = some r ∧ Joined (h.record? d a) (carried child parent record x y) r

section Legacies

variable {child parent : Node} {record : App Ty} {ls : List Legacy} (hs : Sound h)
  (hc : h.nodes[child.id]? = some child) (hp : h.nodes[parent.id]? = some parent)
include hs hc hp

omit hp in
/-- The heirs that are looked at are the descendants of the child. -/
theorem mem_heirs {heir : Node} : heir ∈ child.descendants.filterMap (h.nodes[·]?) ↔
    h.nodes[heir.id]? = some heir ∧ h.HasAncestor heir.id child.id := by
  rw [List.mem_filterMap]
  constructor
  · rintro ⟨d, hd, hn⟩
    obtain rfl := hs.id_eq hn
    exact ⟨hn, hs.ancestor_descendant.2 ⟨child, hc, hd⟩⟩
  · rintro ⟨hn, ha⟩
    obtain ⟨c, hc', hd⟩ := hs.ancestor_descendant.1 ha
    rw [hc] at hc'
    cases hc'
    exact ⟨_, hd, hn⟩

/-- **Every legacy is a join of what the heir had with what comes in.** -/
theorem legacies_sound (e : h.legacies child parent record = .ok ls) {l : Legacy} (hl : l ∈ ls) :
    ∃ x y, h.record? l.heir child.id = some x ∧ h.record? parent.id l.ancestor = some y ∧
      Joined (h.record? l.heir l.ancestor) (carried child parent record x y) l.record := by
  obtain ⟨found, hf, e⟩ := bind_eq_ok.1 e
  obtain rfl := pure_eq_ok.1 e
  obtain ⟨ls', hls', hl⟩ := List.mem_flatten.1 hl
  obtain ⟨heir, hheir, e⟩ := forall₂_exists_left (mapM_eq_ok.1 hf) hls'
  obtain ⟨hn, ha⟩ := (mem_heirs hs hc).1 hheir
  obtain ⟨x, hx⟩ := hasAncestor_iff.1 ha
  have hget (a : Nat) : h.record? heir.id a = heir.ancestors.get? a := by
    rw [record?, hn]
    rfl
  obtain ⟨hid, y, hy, hj⟩ := (inheritAll_eq_ok ((hget _).symm.trans hx) e).1 l hl
  have hy' := (Roster.mem_entries_iff (hs.ancestors_nodup (List.mem_of_getElem? hp))).1 hy
  refine ⟨x, y, by rw [hid]; exact hx, record?_eq_some.2 ⟨parent, hp, hy'⟩, ?_⟩
  rw [hid, hget]
  exact hj

/-- **Every join is made**: it is a legacy unless the heir has that record already. -/
theorem legacies_complete (e : h.legacies child parent record = .ok ls) {d a : Nat} {x y : App Ty}
    (hx : h.record? d child.id = some x) (hy : h.record? parent.id a = some y) :
    ∃ r, Joined (h.record? d a) (carried child parent record x y) r ∧
      (h.record? d a = some r ∨ ⟨d, a, r⟩ ∈ ls) := by
  obtain ⟨found, hf, e⟩ := bind_eq_ok.1 e
  obtain rfl := pure_eq_ok.1 e
  obtain ⟨heir, hn, hx'⟩ := record?_eq_some.1 hx
  obtain rfl := hs.id_eq hn
  obtain ⟨ls', hls', e⟩ := forall₂_exists_right (mapM_eq_ok.1 hf)
    ((mem_heirs hs hc).2 ⟨hn, hasAncestor_iff.2 ⟨x, hx⟩⟩)
  obtain ⟨p, hp', hy'⟩ := record?_eq_some.1 hy
  rw [hp] at hp'
  cases hp'
  have hy'' := (Roster.mem_entries_iff (hs.ancestors_nodup (List.mem_of_getElem? hp))).2 hy'
  obtain ⟨r, hj, hr⟩ := (inheritAll_eq_ok hx' e).2 a y hy''
  have hget : h.record? heir.id a = heir.ancestors.get? a := by
    rw [record?, hn]
    rfl
  rw [hget]
  exact ⟨r, hj, hr.imp_right fun hm => List.mem_flatten.2 ⟨ls', hls', hm⟩⟩

/-- The legacies are found if all joins exist. -/
theorem exists_legacies
    (hj : ∀ {d a : Nat} {x y : App Ty}, h.record? d child.id = some x →
      h.record? parent.id a = some y →
        ∃ r, Joined (h.record? d a) (carried child parent record x y) r) :
    ∃ ls, h.legacies child parent record = .ok ls := by
  refine exists_bind_eq_ok (exists_mapM_eq_ok fun heir hheir => ?_) fun found => ⟨_, rfl⟩
  obtain ⟨hn, -⟩ := (mem_heirs hs hc).1 hheir
  refine exists_inheritAll_eq_ok fun x hx a y hy => ?_
  have hy' := (Roster.mem_entries_iff (hs.ancestors_nodup (List.mem_of_getElem? hp))).1 hy
  obtain ⟨r, hr⟩ := hj (record?_eq_some.2 ⟨heir, hn, hx⟩) (record?_eq_some.2 ⟨parent, hp, hy'⟩)
  rw [record?, hn] at hr
  exact ⟨r, hr⟩

/-- The hierarchy with child and parent connected. -/
def connected (h : Hierarchy) (child parent : Node) (record : App Ty) (ls : List Legacy) :
    Hierarchy :=
  { h with nodes := connect h.nodes child.id parent.id record ls }

omit hs hc hp in
theorem getElem?_connected (i : Nat) : (h.connected child parent record ls).nodes[i]? =
    h.nodes[i]?.map fun n => ls.foldl (settle i) (link child.id parent.id record i n) :=
  getElem?_connect ..

omit hs hc hp in
theorem record?_connected {d : Nat} {n : Node} (hn : h.nodes[d]? = some n) (a : Nat) :
    (h.connected child parent record ls).record? d a =
      (ls.foldl (settle d) (link child.id parent.id record d n)).ancestors.get? a := by
  rw [record?, getElem?_connected, hn]
  rfl

/-- A pair of an heir of the child and an ancestor of the parent gets the join. -/
theorem record?_connected_new (e : h.legacies child parent record = .ok ls) {d a : Nat}
    {x y : App Ty} (hx : h.record? d child.id = some x) (hy : h.record? parent.id a = some y) :
    ∃ r, (h.connected child parent record ls).record? d a = some r ∧
      Joined (h.record? d a) (carried child parent record x y) r := by
  obtain ⟨n, hn, -⟩ := record?_eq_some.1 hx
  obtain ⟨r, hj, hr⟩ := legacies_complete hs hc hp e hx hy
  refine ⟨r, ?_, hj⟩
  rw [record?_connected hn]
  refine get?_foldl_of_mem _ _ _ (fun l hl hld hla => ?_) ?_
  · obtain ⟨x', y', hx', hy', hj'⟩ := legacies_sound hs hc hp e hl
    rw [hld, hx] at hx'
    rw [hla, hy] at hy'
    cases hx'
    cases hy'
    rw [hld, hla] at hj'
    exact hj'.unique hj
  · rcases hr with hr | hr
    · left
      rw [ancestors_link, ← hr, record?, hn]
      rfl
    · exact Or.inr ⟨_, hr, rfl, rfl⟩

/-- Every other pair keeps what it had. -/
theorem record?_connected_old (e : h.legacies child parent record = .ok ls) {d a : Nat}
    (hda : ¬ (h.HasAncestor d child.id ∧ h.HasAncestor parent.id a)) :
    (h.connected child parent record ls).record? d a = h.record? d a := by
  cases hn : h.nodes[d]? with
  | none =>
      rw [record?, record?, hn, getElem?_connected, hn]
      rfl
  | some n =>
      rw [record?_connected hn, get?_foldl_of_forall, ancestors_link, record?, hn]
      · rfl
      · intro l hl hld hla
        obtain ⟨x, y, hx, hy, -⟩ := legacies_sound hs hc hp e hl
        rw [hld] at hx
        rw [hla] at hy
        exact hda ⟨hasAncestor_iff.2 ⟨x, hx⟩, hasAncestor_iff.2 ⟨y, hy⟩⟩

theorem hasAncestor_connected (e : h.legacies child parent record = .ok ls) {d a : Nat} :
    (h.connected child parent record ls).HasAncestor d a ↔
      h.HasAncestor d a ∨ (h.HasAncestor d child.id ∧ h.HasAncestor parent.id a) := by
  by_cases hda : h.HasAncestor d child.id ∧ h.HasAncestor parent.id a
  · obtain ⟨x, hx⟩ := hasAncestor_iff.1 hda.1
    obtain ⟨y, hy⟩ := hasAncestor_iff.1 hda.2
    obtain ⟨r, hr, -⟩ := record?_connected_new hs hc hp e hx hy
    exact ⟨fun _ => Or.inr hda, fun _ => hasAncestor_iff.2 ⟨r, hr⟩⟩
  · rw [hasAncestor_iff, record?_connected_old hs hc hp e hda, ← hasAncestor_iff, or_iff_left hda]

theorem hasDescendant_connected (e : h.legacies child parent record = .ok ls) {d a : Nat} :
    (h.connected child parent record ls).HasDescendant a d ↔
      h.HasDescendant a d ∨ (h.HasAncestor d child.id ∧ h.HasAncestor parent.id a) := by
  constructor
  · rintro ⟨n', hn', hd⟩
    rw [getElem?_connected] at hn'
    obtain ⟨n, hn, rfl⟩ := Option.map_eq_some_iff.1 hn'
    rcases (mem_descendants_foldl _ _ _).1 hd with hd | ⟨l, hl, hla, hld⟩
    · rw [descendants_link] at hd
      exact Or.inl ⟨n, hn, hd⟩
    · obtain ⟨x, y, hx, hy, -⟩ := legacies_sound hs hc hp e hl
      rw [hld] at hx
      rw [hla] at hy
      exact Or.inr ⟨hasAncestor_iff.2 ⟨x, hx⟩, hasAncestor_iff.2 ⟨y, hy⟩⟩
  · have hnode {n : Node} (hn : h.nodes[a]? = some n) :
        (h.connected child parent record ls).nodes[a]? =
          some (ls.foldl (settle a) (link child.id parent.id record a n)) := by
      rw [getElem?_connected, hn]
      rfl
    rintro (⟨n, hn, hd⟩ | ⟨hdc, hpa⟩)
    · refine ⟨_, hnode hn, (mem_descendants_foldl _ _ _).2 (Or.inl ?_)⟩
      rw [descendants_link]
      exact hd
    · obtain ⟨x, hx⟩ := hasAncestor_iff.1 hdc
      obtain ⟨y, hy⟩ := hasAncestor_iff.1 hpa
      obtain ⟨n, hn⟩ := hs.node_of_ancestor hpa
      refine ⟨_, hnode hn, (mem_descendants_foldl _ _ _).2 ?_⟩
      -- an heir that has the record already is among the descendants already
      obtain ⟨r, -, hr | hr⟩ := legacies_complete hs hc hp e hx hy
      · obtain ⟨m, hm, hd⟩ := hs.ancestor_descendant.1 (hasAncestor_iff.2 ⟨r, hr⟩)
        rw [hn] at hm
        cases hm
        rw [descendants_link]
        exact Or.inl hd
      · exact Or.inr ⟨_, hr, rfl, rfl⟩

/-- **Connecting child and parent extends the hierarchy.** -/
theorem extension_connected (e : h.legacies child parent record = .ok ls) :
    Extension h (h.connected child parent record ls) child parent record where
  same := by
    refine List.ext_getElem? fun i => ?_
    rw [List.getElem?_map, List.getElem?_map, getElem?_connected, Option.map_map]
    cases h.nodes[i]? with
    | none => rfl
    | some n =>
        rw [Option.map_some, Option.map_some, Function.comp_apply,
          foldl_settle_eq _ _ _ fun n l => bare_settle i n l, bare_link]
  tables_eq := rfl
  node := by
    intro i n' hn'
    rw [getElem?_connected] at hn'
    obtain ⟨n, hn, rfl⟩ := Option.map_eq_some_iff.1 hn'
    refine ⟨n, hn, ?_, ?_, ?_⟩
    · rw [foldl_settle_eq _ _ _ fun n l => parents_settle i n l, parents_link]
    · rw [foldl_settle_eq _ _ _ fun n l => children_settle i n l, children_link]
    · refine nodup_ancestors_foldl _ _ _ ?_
      rw [ancestors_link]
      exact hs.ancestors_nodup (List.mem_of_getElem? hn)
  ancestor := hasAncestor_connected hs hc hp e
  descendant := hasDescendant_connected hs hc hp e
  record_old := record?_connected_old hs hc hp e
  record_new := record?_connected_new hs hc hp e

end Legacies

end Lineage.Hierarchy

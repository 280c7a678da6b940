import Lineage.Proofs.Coherence

/-!
# The order of parents does not matter

Parents that can be added one after the other can be added in every other order, and the records
come out the same.

The hierarchy that one order leads to bounds all hierarchies on the way of another order (`Within`):
its records are coherent, so whatever a parent brings about on the way is below what is recorded at
the end, and two records below one bound never conflict. So the other order goes through as well.
Its end bounds the end of the first order in turn.
-/

namespace Lineage.Hierarchy

variable {h h' h'' top : Hierarchy} {c : String} {t : Ty}

/-! ## 1. Hierarchies below a bound -/

/-- The types are the same, and every record is made more specific by the bound. -/
structure Within (h top : Hierarchy) : Prop where
  same : SameTypes h top
  record : ∀ {d a : Nat} {x : App Ty}, h.record? d a = some x →
    ∃ z, top.record? d a = some z ∧ x.Covers z

namespace Within

theorem refl (h : Hierarchy) : Within h h := ⟨.refl h, fun hx => ⟨_, hx, App.covers_refl _⟩⟩

theorem trans (w : Within h h') (w' : Within h' h'') : Within h h'' where
  same := w.same.trans w'.same
  record := fun hx => by
    obtain ⟨y, hy, hxy⟩ := w.record hx
    obtain ⟨z, hz, hyz⟩ := w'.record hy
    exact ⟨z, hz, hxy.trans hyz⟩

/-- **Hierarchies that bound each other have the same records.** -/
theorem record_eq (w : Within h h') (w' : Within h' h) (d a : Nat) :
    h'.record? d a = h.record? d a := by
  cases hx : h.record? d a with
  | none =>
      cases hy : h'.record? d a with
      | none => rfl
      | some y =>
          obtain ⟨z, hz, -⟩ := w'.record hy
          rw [hx] at hz
          cases hz
  | some x =>
      obtain ⟨y, hy, hxy⟩ := w.record hx
      obtain ⟨z, hz, hyz⟩ := w'.record hy
      rw [hx] at hz
      cases hz
      rw [hy, hyz.antisymm hxy]

theorem hasAncestor (w : Within h top) {d a : Nat} (hda : h.HasAncestor d a) :
    top.HasAncestor d a := by
  obtain ⟨x, hx⟩ := hasAncestor_iff.1 hda
  obtain ⟨z, hz, -⟩ := w.record hx
  exact hasAncestor_iff.2 ⟨z, hz⟩

/-- What is recorded is covered by the bound's record. -/
theorem covers (w : Within h top) {d a : Nat} {z : App Ty} (hz : top.record? d a = some z) :
    ∀ x, h.record? d a = some x → x.Covers z := by
  intro x hx
  obtain ⟨z', hz', hcov⟩ := w.record hx
  rw [hz] at hz'
  cases hz'
  exact hcov

end Within

/-- What a parent below the bound carries over stays below the bound. -/
theorem Within.carried_covers (w : Within h top) (hn : Named h) (co : Coherent top)
    {child parent : Node} {record z : App Ty} (hc : h.nodes[child.id]? = some child)
    (hp : h.nodes[parent.id]? = some parent)
    (hz : top.record? child.id parent.id = some z) (hle : record.Covers z) {d a : Nat}
    {x y : App Ty} (hx : h.record? d child.id = some x) (hy : h.record? parent.id a = some y) :
    ∃ u, top.record? d a = some u ∧ (carried child parent record x y).Covers u := by
  have hcn := hn _ (List.mem_of_getElem? hc)
  have hpn := hn _ (List.mem_of_getElem? hp)
  obtain ⟨x', hx', hxx'⟩ := w.record hx
  obtain ⟨y', hy', hyy'⟩ := w.record hy
  obtain ⟨child', hc', -⟩ := w.same.node hc
  obtain ⟨parent', hp', -⟩ := w.same.node hp
  obtain ⟨v, hv, hvcov⟩ := co.compose hp' hz hy'
  obtain ⟨u, hu, hucov⟩ := co.compose hc' hx' hv
  rw [w.same.substitute_eq hp hp'] at hvcov
  rw [w.same.substitute_eq hc hc'] at hucov
  refine ⟨u, hu, App.Covers.trans ?_ hucov⟩
  have hinner : (parent.substitute y record.args).Covers v :=
    (Node.substitute_covers hpn hyy' (App.covers_iff.1 hle).2).trans hvcov
  exact Node.substitute_covers hcn hinner (App.covers_iff.1 hxx').2

/-- If what a new parent carries over stays below the bound, so does the extended hierarchy. -/
theorem Within.extend (w : Within h top) {child parent : Node} {record : App Ty}
    (ex : Extension h h' child parent record)
    (hb : ∀ {d a : Nat} {x y : App Ty}, h.record? d child.id = some x →
      h.record? parent.id a = some y →
        ∃ u, top.record? d a = some u ∧ (carried child parent record x y).Covers u) :
    Within h' top where
  same := ex.same.symm.trans w.same
  record := fun {d a x} hx => by
    by_cases hnew : h.HasAncestor d child.id ∧ h.HasAncestor parent.id a
    · obtain ⟨x₁, hx₁⟩ := hasAncestor_iff.1 hnew.1
      obtain ⟨y₁, hy₁⟩ := hasAncestor_iff.1 hnew.2
      obtain ⟨u, hu, hcov⟩ := hb hx₁ hy₁
      obtain ⟨x', hx', hj⟩ := ex.record_new hx₁ hy₁
      rw [hx] at hx'
      cases hx'
      exact ⟨u, hu, hj.covers hcov (w.covers hu)⟩
    · rw [ex.record_old hnew] at hx
      exact w.record hx

theorem Extension.within {child parent : Node} {record : App Ty}
    (ex : Extension h h' child parent record) : Within h h' := ⟨ex.same, ex.grows⟩

/-! ## 2. Requests -/

mutual
theorem foreign_congr {n n' : Node} (e : n'.bare = n.bare) : ∀ t : Ty, foreign n' t = foreign n t
  | .app a => by rw [foreign, foreign, foreignApp_congr e a]
  | .var v => by
      have hp : n'.paramIndex? = n.paramIndex? := by
        rw [← Node.paramIndex?_bare n', e, Node.paramIndex?_bare]
      rw [foreign, foreign, hp, (Node.bare_eq_iff.1 e).2.1]
theorem foreignApp_congr {n n' : Node} (e : n'.bare = n.bare) :
    ∀ a : App Ty, foreignApp n' a = foreignApp n a
  | ⟨f, args⟩ => by rw [foreignApp, foreignApp, foreignAny_congr e args]
theorem foreignAny_congr {n n' : Node} (e : n'.bare = n.bare) :
    ∀ ts : List Ty, foreignAny n' ts = foreignAny n ts
  | [] => by rw [foreignAny, foreignAny]
  | t :: ts => by rw [foreignAny, foreignAny, foreign_congr e t, foreignAny_congr e ts]
end

/-- What a request is about is a matter of the declared types. -/
theorem Resolves.congr {n p : Node} {r : App Ty} (hr : h.Resolves c t n p r) (e : SameTypes h h')
    (et : h'.tables = h.tables) : ∃ n' p', h'.Resolves c t n' p' r ∧
      n'.id = n.id ∧ p'.id = p.id := by
  obtain ⟨n', hn', hb⟩ := e.find? hr.child_eq
  obtain ⟨p', hp', hbp⟩ := e.find? hr.parent_eq
  obtain ⟨link, rfl, hlink⟩ := hr.link_eq
  refine ⟨n', p', ⟨et.trans hr.open_, hn', ⟨link, rfl, ?_⟩, ?_, hp'⟩,
    (Node.bare_eq_iff.1 hb).1, (Node.bare_eq_iff.1 hbp).1⟩
  · rw [e.normalizeApp_eq, hlink]
  · rw [foreignApp_congr hb, hr.foreign_eq]

/-- The request asks for one type to have another as its parent. -/
def Asks (h : Hierarchy) (c : String) (t : Ty) (i j : Nat) : Prop :=
  ∃ n p r, h.Resolves c t n p r ∧ i = n.id ∧ j = p.id

/-- What the request asks for holds in the other hierarchy. -/
def Granted (h top : Hierarchy) (c : String) (t : Ty) : Prop :=
  ∃ n p r z, h.Resolves c t n p r ∧ top.HasParent n.id p.id ∧
    top.record? n.id p.id = some z ∧ r.Covers z

theorem Asks.congr {i j : Nat} (ha : h.Asks c t i j) (e : SameTypes h h')
    (et : h'.tables = h.tables) : h'.Asks c t i j := by
  obtain ⟨n, p, r, hr, rfl, rfl⟩ := ha
  obtain ⟨n', p', hr', hn, hp⟩ := hr.congr e et
  exact ⟨n', p', r, hr', hn.symm, hp.symm⟩

theorem Granted.congr (hg : Granted h top c t) (e : SameTypes h h') (et : h'.tables = h.tables) :
    Granted h' top c t := by
  obtain ⟨n, p, r, z, hr, hpar, hz, hle⟩ := hg
  obtain ⟨n', p', hr', hn, hp⟩ := hr.congr e et
  exact ⟨n', p', r, z, hr', hn ▸ hp ▸ hpar, hn ▸ hp ▸ hz, hle⟩

theorem Resolves.asks_iff {n p : Node} {r : App Ty} (hr : h.Resolves c t n p r) {i j : Nat} :
    h.Asks c t i j ↔ i = n.id ∧ j = p.id := by
  constructor
  · rintro ⟨n', p', r', hr', rfl, rfl⟩
    obtain ⟨link, rfl, hlink⟩ := hr.link_eq
    obtain ⟨link', e, hlink'⟩ := hr'.link_eq
    cases e
    obtain rfl : r = r' := Except.ok.inj (hlink.symm.trans hlink')
    have hn := Option.some_inj.1 (hr'.child_eq.symm.trans hr.child_eq)
    have hp := Option.some_inj.1 (hr'.parent_eq.symm.trans hr.parent_eq)
    exact ⟨congrArg Node.id hn, congrArg Node.id hp⟩
  · rintro ⟨rfl, rfl⟩
    exact ⟨n, p, r, hr, rfl, rfl⟩

/-! ## 3. One parent -/

/-- A sound hierarchy without nameless parameters whose records are coherent. -/
structure Regular (h : Hierarchy) : Prop where
  sound : Sound h
  named : Named h
  coherent : Coherent h

theorem regular_of_reachable (hr : Reachable h) (hn : Named h) : Regular h :=
  ⟨sound_of_reachable hr, hn, coherent_of_reachable hr hn⟩

theorem Regular.addParent (g : Regular h) (e : h.addParent c t = .ok h') : Regular h' :=
  ⟨g.sound.addParent e, (sameTypes_addParent g.sound e).named g.named,
    g.coherent.addParent g.sound g.named e⟩

/-- What an accepted request brings about. -/
structure Accepted (h h' : Hierarchy) (c : String) (t : Ty) : Prop where
  within : Within h h'
  tables_eq : h'.tables = h.tables
  granted : Granted h h' c t
  hasParent : ∀ {i j : Nat}, h'.HasParent i j ↔ h.HasParent i j ∨ h.Asks c t i j

theorem Regular.accepted (g : Regular h) (e : h.addParent c t = .ok h') : Accepted h h' c t := by
  obtain ⟨n, p, r, r', hr, hno, hj, hcase⟩ := addParent_cases g.sound e
  have hn := g.sound.node_of_find hr.child_eq
  have hp := g.sound.node_of_find hr.parent_eq
  rcases hcase with ⟨hget, rfl⟩ | ex
  · obtain ⟨z, hz, hle⟩ := g.coherent.parent hn hget
    have hpar : h'.HasParent n.id p.id := ⟨n, hn, by rw [Roster.contains, hget]; rfl⟩
    refine ⟨.refl _, rfl, ⟨n, p, r, z, hr, hpar, hz, hj.incoming_covers.trans hle⟩, ?_⟩
    intro i j
    rw [hr.asks_iff]
    refine ⟨Or.inl, ?_⟩
    rintro (hij | ⟨rfl, rfl⟩)
    · exact hij
    · exact hpar
  · have hrec : h.IsRecord n p r' :=
      IsRecord.of_joined (fun y hy => g.sound.isRecord hn hp hy) hr.isRecord hj
    obtain ⟨z, hz, hle⟩ := ex.carried_covers (g.sound.record_self hn) (g.sound.record_self hp)
    rw [carried_self g.sound hp hrec] at hle
    have hpar : h'.HasParent n.id p.id := (ex.hasParent hn).2 (Or.inr ⟨rfl, rfl⟩)
    refine ⟨ex.within, ex.tables_eq, ⟨n, p, r, z, hr, hpar, hz, hj.incoming_covers.trans hle⟩, ?_⟩
    intro i j
    rw [hr.asks_iff]
    exact ex.hasParent hn

/-- **Below a bound in which it is granted, a request is accepted, and the result is below the
    bound again.** -/
theorem Regular.accepts (g : Regular h) (gtop : Regular top) (w : Within h top)
    (hg : Granted h top c t) : ∃ h', h.addParent c t = .ok h' ∧ Within h' top := by
  obtain ⟨n, p, r, z, hr, hpar, hz, hle⟩ := hg
  have hn := g.sound.node_of_find hr.child_eq
  have hp := g.sound.node_of_find hr.parent_eq
  -- the child is not above the parent, since it is not in the bound
  have hno : ¬ h.HasAncestor p.id n.id := fun hpn =>
    gtop.sound.parent_ne hpar (gtop.sound.acyclic (w.hasAncestor hpn)
      (gtop.sound.hasAncestor_of_parent hpar))
  obtain ⟨r', hj⟩ := Joined.exists_of_covers hle (w.covers hz)
  have hle' : r'.Covers z := hj.covers hle (w.covers hz)
  have hbound {d a : Nat} {x y : App Ty} := w.carried_covers g.named gtop.coherent hn hp hz hle'
    (d := d) (a := a) (x := x) (y := y)
  have hd : p.id ∉ n.descendants := fun hm => hno (g.sound.ancestor_descendant.2 ⟨n, hn, hm⟩)
  have hj' : Joined (n.ancestors.get? p.id) r r' := by
    rw [record?, hn] at hj
    exact hj
  by_cases hget : n.parents.get? p.id = some r'
  · exact ⟨h, addParent_eq_ok.2 ⟨n, p, r, r', hr, hd, hj', Or.inl ⟨hget, rfl⟩⟩, w⟩
  · obtain ⟨ls, hls⟩ := exists_legacies g.sound hn hp fun {d a x y} hx hy => by
      obtain ⟨u, hu, hcov⟩ := hbound hx hy
      exact Joined.exists_of_covers hcov (w.covers hu)
    have ex := extension_connected g.sound hn hp hls
    exact ⟨_, addParent_eq_ok.2 ⟨n, p, r, r', hr, hd, hj', Or.inr ⟨hget, ls, hls, rfl⟩⟩,
      w.extend ex hbound⟩

/-! ## 4. Many parents -/

/-- The hierarchy after all requests, made one after the other, if all are accepted. -/
def addParents (h : Hierarchy) (links : List (String × Ty)) : Except Error Hierarchy :=
  links.foldlM (fun h l => h.addParent l.1 l.2) h

theorem addParents_cons {l : String × Ty} {links : List (String × Ty)} :
    h.addParents (l :: links) = .ok h'' ↔
      ∃ h', h.addParent l.1 l.2 = .ok h' ∧ h'.addParents links = .ok h'' := by
  rw [addParents, List.foldlM_cons, bind_eq_ok]
  rfl

/-- **What a list of accepted requests brings about.** -/
theorem Regular.accepted_all {links : List (String × Ty)} (g : Regular h)
    (e : h.addParents links = .ok h') : Regular h' ∧ Within h h' ∧ h'.tables = h.tables ∧
      (∀ l ∈ links, Granted h h' l.1 l.2) ∧
      ∀ {i j : Nat}, h'.HasParent i j ↔ h.HasParent i j ∨ ∃ l ∈ links, h.Asks l.1 l.2 i j := by
  induction links generalizing h with
  | nil =>
      cases e
      exact ⟨g, .refl _, rfl, by simp, by simp⟩
  | cons l links ih =>
      obtain ⟨k, ek, e⟩ := addParents_cons.1 e
      have acc := g.accepted ek
      obtain ⟨g', w, et, hg, hpar⟩ := ih (g.addParent ek) e
      have same := acc.within.same
      have hback := acc.tables_eq
      refine ⟨g', acc.within.trans w, et.trans hback, ?_, fun {i j} => ?_⟩
      · refine List.forall_mem_cons.2 ⟨?_, fun l' hl' => (hg l' hl').congr same.symm hback.symm⟩
        obtain ⟨n, p, r, z, hr, hp, hz, hle⟩ := acc.granted
        obtain ⟨z', hz', hle'⟩ := w.record hz
        exact ⟨n, p, r, z', hr, hpar.2 (Or.inl hp), hz', hle.trans hle'⟩
      · rw [hpar, acc.hasParent, List.exists_mem_cons_iff, or_assoc]
        refine or_congr Iff.rfl (or_congr Iff.rfl ⟨?_, ?_⟩)
        · rintro ⟨l', hl', ha⟩
          exact ⟨l', hl', ha.congr same.symm hback.symm⟩
        · rintro ⟨l', hl', ha⟩
          exact ⟨l', hl', ha.congr same hback⟩

/-- Below a bound in which all are granted, requests are accepted in every order. -/
theorem Regular.accepts_all {links : List (String × Ty)} (g : Regular h) (gtop : Regular top)
    (w : Within h top) (hg : ∀ l ∈ links, Granted h top l.1 l.2) :
    ∃ h', h.addParents links = .ok h' ∧ Within h' top := by
  induction links generalizing h with
  | nil => exact ⟨h, rfl, w⟩
  | cons l links ih =>
      rw [List.forall_mem_cons] at hg
      obtain ⟨k, ek, wk⟩ := g.accepts gtop w hg.1
      have acc := g.accepted ek
      obtain ⟨h', e, w'⟩ := ih (g.addParent ek) wk fun l' hl' =>
        (hg.2 l' hl').congr acc.within.same acc.tables_eq
      exact ⟨h', addParents_cons.2 ⟨k, ek, e⟩, w'⟩

/-- **Requests that are accepted in one order are accepted in every other one**, and lead to the
    same parents and the same records. -/
theorem Regular.addParents_perm {links links' : List (String × Ty)} (g : Regular h)
    (e : h.addParents links = .ok h') (hp : links'.Perm links) :
    ∃ k, h.addParents links' = .ok k ∧ Regular h' ∧ Regular k ∧ SameTypes h' k ∧
      (∀ i j, k.HasParent i j ↔ h'.HasParent i j) ∧ ∀ d a, k.record? d a = h'.record? d a := by
  obtain ⟨g', w, -, hg, hpar⟩ := g.accepted_all e
  obtain ⟨k, ek, wk⟩ := g.accepts_all g' w fun l hl => hg l (hp.mem_iff.1 hl)
  obtain ⟨gk, wk', -, hgk, hpark⟩ := g.accepted_all ek
  -- the first order once more, now below the end of the second one
  obtain ⟨k', ek', wk''⟩ := g.accepts_all gk wk' fun l hl => hgk l (hp.mem_iff.2 hl)
  obtain rfl : h' = k' := Except.ok.inj (e.symm.trans ek')
  refine ⟨k, ek, g', gk, wk''.same, fun i j => ?_, wk''.record_eq wk⟩
  rw [hpark, hpar]
  refine or_congr Iff.rfl (exists_congr fun l => and_congr hp.mem_iff Iff.rfl)

end Lineage.Hierarchy

import Lineage.Proofs.Construction

/-!
# Records fit together

A type's record of an ancestor is never less specific than what its other records give: going to an
ancestor in two steps and going there at once agree up to `_` that the direct record fills in.

The records after a new parent are joins of old records with records carried over the new parent.
What lies below a bound when put together from such parts lies below it when put together from the
joins (`Extension.covers_of_parts`), so it suffices to look at the parts.
-/

namespace Lineage

/-! ## 1. Substitution and joins -/

theorem Node.substitute_assoc {n : Node} (hn : n.paramIndex? "" = none) (m : Node) (r s : App Ty)
    (xs : List Ty) :
    n.substitute (m.substitute r s.args) xs = m.substitute r (n.substitute s xs).args := by
  rw [Node.substitute_substitute hn, Node.args_substitute]

/-- A record under arguments that are more specific is more specific. -/
theorem Node.substitute_covers_args {n : Node} {r x y : App Ty} (hn : n.paramIndex? "" = none)
    (hxy : x.Covers y) : (n.substitute r x.args).Covers (n.substitute r y.args) :=
  Node.substitute_covers hn (App.covers_refl r) (App.covers_iff.1 hxy).2

theorem Node.substitute_covers_record {n : Node} {r r' : App Ty} (hn : n.paramIndex? "" = none)
    (hr : r.Covers r') (xs : List Ty) : (n.substitute r xs).Covers (n.substitute r' xs) :=
  Node.substitute_covers hn hr (List.forall₂_same.2 fun t _ => Ty.covers_refl t)

namespace Hierarchy

variable {h h' : Hierarchy} {child parent : Node} {record : App Ty}

theorem Joined.substitute_covers {old : Option (App Ty)} {incoming r z : App Ty} {n : Node}
    {xs : List Ty} (e : Joined old incoming r)
    (ho : ∀ y, old = some y → (n.substitute y xs).Covers z)
    (hi : (n.substitute incoming xs).Covers z) : (n.substitute r xs).Covers z := by
  cases old with
  | none =>
      obtain rfl : r = incoming := e
      exact hi
  | some y => exact Node.covers_substitute_refine e (ho y rfl) hi

theorem Joined.substitute_covers_args {old : Option (App Ty)} {incoming r y z : App Ty} {n : Node}
    (e : Joined old incoming r) (ho : ∀ x, old = some x → (n.substitute y x.args).Covers z)
    (hi : (n.substitute y incoming.args).Covers z) : (n.substitute y r.args).Covers z := by
  cases old with
  | none =>
      obtain rfl : r = incoming := e
      exact hi
  | some x => exact Node.covers_substitute_refineAll (App.refineAll_of_refine e) (ho x rfl) hi

/-! ## 2. Coherence -/

/-- No parameter is nameless, so `_` stays `_` whatever is put in. -/
def Named (h : Hierarchy) : Prop := ∀ n ∈ h.nodes, n.paramIndex? "" = none

instance (h : Hierarchy) : Decidable (Named h) :=
  inferInstanceAs (Decidable (∀ n ∈ h.nodes, n.paramIndex? "" = none))

/-- The records fit together, and the parents' instantiations fit the records. -/
structure Coherent (h : Hierarchy) : Prop where
  compose : ∀ {d b a : Nat} {m : Node} {x y : App Ty}, h.nodes[b]? = some m →
    h.record? d b = some x → h.record? b a = some y →
      ∃ z, h.record? d a = some z ∧ (m.substitute y x.args).Covers z
  parent : ∀ {c p : Nat} {n : Node} {l : App Ty}, h.nodes[c]? = some n →
    n.parents.get? p = some l → ∃ z, h.record? c p = some z ∧ l.Covers z

theorem SameTypes.substitute_eq (e : SameTypes h h') {i : Nat} {n n' : Node}
    (hn : h.nodes[i]? = some n) (hn' : h'.nodes[i]? = some n') : n'.substitute = n.substitute := by
  obtain ⟨m, hm, hb⟩ := e.node hn
  rw [hn'] at hm
  cases hm
  rw [← Node.substitute_bare n', hb, Node.substitute_bare]

theorem SameTypes.named (e : SameTypes h h') (hn : Named h) : Named h' := by
  intro n' hm
  obtain ⟨i, hn'⟩ := List.mem_iff_getElem?.1 hm
  obtain ⟨n, hi, hb⟩ := e.symm.node hn'
  rw [← Node.paramIndex?_bare n', ← hb, Node.paramIndex?_bare]
  exact hn _ (List.mem_of_getElem? hi)

namespace Extension

variable (ex : Extension h h' child parent record)
include ex

/-- Records only become more specific. -/
theorem grows {d a : Nat} {x : App Ty} (hx : h.record? d a = some x) :
    ∃ z, h'.record? d a = some z ∧ x.Covers z := by
  by_cases hnew : h.HasAncestor d child.id ∧ h.HasAncestor parent.id a
  · obtain ⟨x₁, hx₁⟩ := hasAncestor_iff.1 hnew.1
    obtain ⟨y₁, hy₁⟩ := hasAncestor_iff.1 hnew.2
    obtain ⟨z, hz, hj⟩ := ex.record_new hx₁ hy₁
    rw [hx] at hj
    exact ⟨z, hz, hj.old_covers⟩
  · exact ⟨x, (ex.record_old hnew).trans hx, App.covers_refl x⟩

/-- What comes in over the new parent is taken in. -/
theorem carried_covers {d a : Nat} {x y : App Ty} (hx : h.record? d child.id = some x)
    (hy : h.record? parent.id a = some y) :
    ∃ z, h'.record? d a = some z ∧ (carried child parent record x y).Covers z := by
  obtain ⟨z, hz, hj⟩ := ex.record_new hx hy
  exact ⟨z, hz, hj.incoming_covers⟩

end Extension

/-- What the new record of a pair is joined from: the old one, and the one carried over the new
    parent. -/
def Part (h : Hierarchy) (child parent : Node) (record : App Ty) (d a : Nat) (r : App Ty) : Prop :=
  h.record? d a = some r ∨ ∃ x y, h.record? d child.id = some x ∧
    h.record? parent.id a = some y ∧ r = carried child parent record x y

namespace Extension

variable (ex : Extension h h' child parent record)

include ex in
/-- **A bound of the parts is a bound of the new record**, put together with any other record. -/
theorem covers_of_parts {d b : Nat} {r z : App Ty} {m : Node} (hr : h'.record? d b = some r) :
    (∀ {y : App Ty}, (∀ x, h.Part child parent record d b x → (m.substitute y x.args).Covers z) →
      (m.substitute y r.args).Covers z) ∧
    ∀ {xs : List Ty}, (∀ y, h.Part child parent record d b y → (m.substitute y xs).Covers z) →
      (m.substitute r xs).Covers z := by
  by_cases hnew : h.HasAncestor d child.id ∧ h.HasAncestor parent.id b
  · obtain ⟨x, hx⟩ := hasAncestor_iff.1 hnew.1
    obtain ⟨y, hy⟩ := hasAncestor_iff.1 hnew.2
    obtain ⟨r', hr', hj⟩ := ex.record_new hx hy
    rw [hr] at hr'
    cases hr'
    have hin : h.Part child parent record d b (carried child parent record x y) :=
      Or.inr ⟨x, y, hx, hy, rfl⟩
    exact ⟨fun hall => hj.substitute_covers_args (fun x hx => hall x (Or.inl hx)) (hall _ hin),
      fun hall => hj.substitute_covers (fun y hy => hall y (Or.inl hy)) (hall _ hin)⟩
  · rw [ex.record_old hnew] at hr
    exact ⟨fun hall => hall r (Or.inl hr), fun hall => hall r (Or.inl hr)⟩

variable (hs : Sound h) (hn : Named h) (co : Coherent h) (hc : h.nodes[child.id]? = some child)
  (hp : h.nodes[parent.id]? = some parent) (hno : ¬ h.HasAncestor parent.id child.id)
include ex hs hn co hc hp

omit hs hp in
/-- Going on from a node below the child. -/
theorem carried_after {d b a : Nat} {m : Node} {x x₁ y₁ : App Ty} (hm : h.nodes[b]? = some m)
    (hx : h.record? d b = some x) (hx₁ : h.record? b child.id = some x₁)
    (hy₁ : h.record? parent.id a = some y₁) : ∃ z, h'.record? d a = some z ∧
      (m.substitute (carried child parent record x₁ y₁) x.args).Covers z := by
  obtain ⟨w, hw, hcov⟩ := co.compose hm hx hx₁
  obtain ⟨z, hz, hle⟩ := ex.carried_covers hw hy₁
  refine ⟨z, hz, App.Covers.trans ?_ hle⟩
  rw [carried, Node.substitute_assoc (hn _ (List.mem_of_getElem? hm))]
  exact Node.substitute_covers_args (hn _ (List.mem_of_getElem? hc)) hcov

omit hs in
/-- Going on from a node above the parent. -/
theorem carried_before {d b a : Nat} {m : Node} {x₁ y₁ y : App Ty} (hm : h.nodes[b]? = some m)
    (hx₁ : h.record? d child.id = some x₁) (hy₁ : h.record? parent.id b = some y₁)
    (hy : h.record? b a = some y) : ∃ z, h'.record? d a = some z ∧
      (m.substitute y (carried child parent record x₁ y₁).args).Covers z := by
  have hcn := hn _ (List.mem_of_getElem? hc)
  have hpn := hn _ (List.mem_of_getElem? hp)
  obtain ⟨w, hw, hcov⟩ := co.compose hm hy₁ hy
  obtain ⟨z, hz, hle⟩ := ex.carried_covers hx₁ hw
  refine ⟨z, hz, App.Covers.trans ?_ hle⟩
  rw [carried, ← Node.substitute_assoc hcn, ← Node.substitute_assoc hpn]
  exact Node.substitute_covers_record hcn (Node.substitute_covers_record hpn hcov _) _

include hno

/-- The parts of two records put together stay below the new record. -/
theorem parts_covers {d b a : Nat} {m : Node} {x y : App Ty} (hm : h.nodes[b]? = some m)
    (hx : h.Part child parent record d b x) (hy : h.Part child parent record b a y) :
    ∃ z, h'.record? d a = some z ∧ (m.substitute y x.args).Covers z := by
  rcases hx with hx | ⟨x₁, y₁, hx₁, hy₁, rfl⟩
  · rcases hy with hy | ⟨x₂, y₂, hx₂, hy₂, rfl⟩
    · obtain ⟨w, hw, hcov⟩ := co.compose hm hx hy
      obtain ⟨z, hz, hle⟩ := ex.grows hw
      exact ⟨z, hz, hcov.trans hle⟩
    · exact ex.carried_after hn co hc hm hx hx₂ hy₂
  · rcases hy with hy | ⟨x₂, y₂, hx₂, hy₂, rfl⟩
    · exact ex.carried_before hn co hc hp hm hx₁ hy₁ hy
    · -- above the parent and below the child: there is no such node
      exact absurd (hs.hasAncestor_trans (hasAncestor_iff.2 ⟨y₁, hy₁⟩)
        (hasAncestor_iff.2 ⟨x₂, hx₂⟩)) hno

end Extension

/-- Carried over to the child itself, the parent's own record is the parent as it was given. -/
theorem carried_self (hs : Sound h) (hp : h.nodes[parent.id]? = some parent)
    (hr : h.IsRecord child parent record) :
    carried child parent record child.self parent.self = record := by
  have hp' := List.mem_of_getElem? hp
  have hsub : parent.substitute parent.self record.args = record := by
    rw [Node.substitute_self (hs.params_nodup hp') (hr.args_length hs hp'), ← hr.head_eq]
  rw [carried, hsub, Node.substitute_generic hr.admitted]

/-- **A new parent keeps the records coherent.** -/
theorem Coherent.extend (co : Coherent h) (hs : Sound h) (hs' : Sound h') (hn : Named h)
    (hc : h.nodes[child.id]? = some child) (hp : h.nodes[parent.id]? = some parent)
    (hno : ¬ h.HasAncestor parent.id child.id) (hr : h.IsRecord child parent record)
    (ex : Extension h h' child parent record) : Coherent h' where
  compose := fun {d b a m' x y} hm' hx hy => by
    obtain ⟨z, hz⟩ := hasAncestor_iff.1 (hs'.hasAncestor_trans (hasAncestor_iff.2 ⟨x, hx⟩)
      (hasAncestor_iff.2 ⟨y, hy⟩))
    obtain ⟨m, hm, -⟩ := ex.same.symm.node hm'
    rw [ex.same.substitute_eq hm hm']
    refine ⟨z, hz, (ex.covers_of_parts hx).1 fun x hx => (ex.covers_of_parts hy).2 fun y hy => ?_⟩
    obtain ⟨z', hz', hcov⟩ := ex.parts_covers hs hn co hc hp hno hm hx hy
    rw [hz] at hz'
    cases hz'
    exact hcov
  parent := fun {c p n' l} hn' hl => by
    obtain ⟨n, hn, hpar, -⟩ := ex.node hn'
    have old (hl : n.parents.get? p = some l) : ∃ z, h'.record? c p = some z ∧ l.Covers z := by
      obtain ⟨w, hw, hcov⟩ := co.parent hn hl
      obtain ⟨z, hz, hle⟩ := ex.grows hw
      exact ⟨z, hz, hcov.trans hle⟩
    rw [hpar] at hl
    split at hl
    · rename_i hi
      subst hi
      rw [Roster.get?_insert] at hl
      split at hl
      · rename_i hip
        subst hip
        cases hl
        obtain ⟨z, hz, hcov⟩ := ex.carried_covers (hs.record_self hc) (hs.record_self hp)
        rw [carried_self hs hp hr] at hcov
        exact ⟨z, hz, hcov⟩
      · exact old hl
    · exact old hl

theorem Coherent.addParent (co : Coherent h) (hs : Sound h) (hn : Named h) {c : String} {t : Ty}
    (e : h.addParent c t = .ok h') : Coherent h' := by
  have hs' := hs.addParent e
  obtain ⟨n, p, r, r', hr, hno, hj, ⟨-, rfl⟩ | ex⟩ := addParent_cases hs e
  · exact co
  · have hc := hs.node_of_find hr.child_eq
    have hp := hs.node_of_find hr.parent_eq
    refine co.extend hs hs' hn hc hp hno ?_ ex
    exact IsRecord.of_joined (fun y hy => hs.isRecord hc hp hy) hr.isRecord hj

/-- **A new type keeps the records coherent.** It has none but its own. -/
theorem Coherent.extended (co : Coherent h) (hs : Sound h) {name : String} {params : List Param}
    (hparams : (params.map Param.name).Nodup) : Coherent (h.extended name params) where
  compose := fun {d b a m x y} hm hx hy => by
    rcases record?_extended.1 hx with hx | ⟨rfl, rfl, rfl⟩
    · obtain ⟨m', hm'⟩ := hs.node_of_ancestor (hasAncestor_iff.2 ⟨x, hx⟩)
      have hb := (List.getElem?_eq_some_iff.1 hm').1
      rcases record?_extended.1 hy with hy | ⟨rfl, -, -⟩
      · rcases getElem?_extended.1 hm with hm | ⟨rfl, -⟩
        · obtain ⟨z, hz, hcov⟩ := co.compose hm hx hy
          exact ⟨z, record?_extended.2 (Or.inl hz), hcov⟩
        · exact absurd hb (Nat.lt_irrefl _)
      · exact absurd hb (Nat.lt_irrefl _)
    · rcases record?_extended.1 hy with hy | ⟨-, rfl, rfl⟩
      · obtain ⟨n, hn, -⟩ := record?_eq_some.1 hy
        exact absurd (List.getElem?_eq_some_iff.1 hn).1 (Nat.lt_irrefl _)
      · refine ⟨_, record?_extended.2 (Or.inr ⟨rfl, rfl, rfl⟩), ?_⟩
        rcases getElem?_extended.1 hm with hm | ⟨-, rfl⟩
        · exact absurd (List.getElem?_eq_some_iff.1 hm).1 (Nat.lt_irrefl _)
        · have hlen : (Node.generic name params).args.length = params.length := by
            simp [Node.generic]
          have hself : (Node.new h.nodes.length name params).substitute (Node.generic name params)
              (Node.generic name params).args = Node.generic name params :=
            Node.substitute_self hparams hlen
          rw [hself]
          exact App.covers_refl _
  parent := fun {c p n l} hn hl => by
    rcases getElem?_extended.1 hn with hn | ⟨-, rfl⟩
    · obtain ⟨z, hz, hcov⟩ := co.parent hn hl
      exact ⟨z, record?_extended.2 (Or.inl hz), hcov⟩
    · cases hl

theorem Coherent.finalize (co : Coherent h) : Coherent h.finalize := by
  unfold Hierarchy.finalize
  split
  · exact co
  · exact ⟨co.compose, co.parent⟩

/-- **In every reachable hierarchy without nameless parameters the records are coherent.** -/
theorem coherent_of_reachable (hr : Reachable h) (hn : Named h) : Coherent h := by
  suffices Sound h ∧ (Named h → Coherent h) from this.2 hn
  refine hr.induct (P := fun h => Sound h ∧ (Named h → Coherent h)) ⟨sound_empty, fun _ => ?_⟩
    (fun ⟨hs, ih⟩ e => ⟨hs.declare e, fun hn => ?_⟩)
    (fun ⟨hs, ih⟩ e => ⟨hs.addParent e, fun hn => ?_⟩)
    (fun ⟨hs, ih⟩ => ⟨hs.finalize, fun hn => (ih fun n hm => hn n ?_).finalize⟩)
  · exact ⟨fun hm => (by cases hm), fun hm => (by cases hm)⟩
  · obtain ⟨-, -, hparams, rfl⟩ := declare_eq_ok e
    exact (ih fun n hm => hn n (List.mem_append_left _ hm)).extended hs hparams
  · have hn := (sameTypes_addParent hs e).symm.named hn
    exact (ih hn).addParent hs hn e
  · rw [nodes_finalize]
    exact hm

end Hierarchy

end Lineage

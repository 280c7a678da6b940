import Lineage.Proofs.Confluence

/-!
# Lawful hierarchies

Conditions on the declarations under which subtyping behaves as an order:

* `PlainParents`: no parent is given with `_` in it;
* `VarianceConsistent`: a parameter is declared invariant, or it stands in the parents at places of
  its declared variance only.

`Straight` says what follows from the first one for all records: they are written in the parameters
alone, and going to an ancestor in two steps or at once is the same (`Regular.straight`). `Lawful`
adds what follows from both: the records respect the variances as the parents do
(`Regular.lawful`).
-/

namespace Lineage

open Relation

/-- Nothing is left open in the instance: it has no `_`. -/
def App.Definite (a : App Ty) : Prop := ∀ v ∈ a.vars, v.isAnonymous = false

/-- What leaves nothing open cannot be made more specific. -/
theorem App.Definite.eq_of_covers {a b : App Ty} (ha : a.Definite) (hab : a.Covers b) : a = b := by
  refine Ty.app.inj ((Ty.app_covers_app.2 hab).eq_of_noWildcard fun v hv => ?_)
  rw [Ty.vars_app] at hv
  rw [Ty.isWildcard, ha v hv, Bool.false_and]

namespace Hierarchy

variable {h : Hierarchy}

/-! ## 1. Variances -/

mutual
/-- Whether every parameter of a node in an instance is declared invariant or with the variance of
    its place, if the instance itself stands at a place of variance `v`. -/
def placed (h : Hierarchy) (n : Node) (v : Variance) : Ty → Bool
  | .app a => h.placedApp n v a
  | .var w => n.params.all fun p =>
      p.name ≠ w.name ∨ p.variance = .invariant ∨ p.variance = v
/-- `placed` for an application. -/
def placedApp (h : Hierarchy) (n : Node) (v : Variance) : App Ty → Bool
  | ⟨head, args⟩ => h.placedAll n v ((h.find? head).elim (fun _ => .invariant) Node.variance) 0 args
/-- `placed` for the arguments from position `i` on. -/
def placedAll (h : Hierarchy) (n : Node) (v : Variance) (variance : Nat → Variance) (i : Nat) :
    List Ty → Bool
  | [] => true
  | t :: ts => h.placed n (v.compose (variance i)) t && h.placedAll n v variance (i + 1) ts
end

/-- In every parent, the parameters stand at places of their declared variances. -/
def VarianceConsistent (h : Hierarchy) : Prop :=
  ∀ n ∈ h.nodes, ∀ e ∈ n.parents.entries, h.placedApp n .covariant e.2 = true

instance (h : Hierarchy) : Decidable h.VarianceConsistent := inferInstanceAs
  (Decidable (∀ n ∈ h.nodes, ∀ e ∈ n.parents.entries, h.placedApp n .covariant e.2 = true))

/-- No parent is given with `_` in it. -/
def PlainParents (h : Hierarchy) : Prop :=
  ∀ n ∈ h.nodes, ∀ e ∈ n.parents.entries, ∀ v ∈ e.2.vars, v.isAnonymous = false

instance (h : Hierarchy) : Decidable h.PlainParents := inferInstanceAs
  (Decidable (∀ n ∈ h.nodes, ∀ e ∈ n.parents.entries, ∀ v ∈ e.2.vars, v.isAnonymous = false))

section Placed

variable {n m : Node} {v w : Variance}

theorem placedAll_iff {variance : Nat → Variance} {ts : List Ty} {i : Nat} :
    h.placedAll n v variance i ts = true ↔ ∀ {j : Nat} {t : Ty}, ts[j]? = some t →
      h.placed n (v.compose (variance (i + j))) t = true := by
  induction ts generalizing i with
  | nil => simp [placedAll]
  | cons t ts ih =>
      rw [placedAll, Bool.and_eq_true, ih]
      constructor
      · rintro ⟨ht, hts⟩ j s hs
        cases j with
        | zero =>
            cases hs
            exact ht
        | succ j =>
            have := hts hs
            rwa [Nat.add_right_comm] at this
      · intro hall
        refine ⟨hall (j := 0) rfl, fun {j s} hs => ?_⟩
        have := hall (j := j + 1) hs
        rwa [← Nat.add_assoc, Nat.add_right_comm] at this

theorem placed_app_iff {a : App Ty} (hm : h.find? a.head = some m) :
    h.placed n v (.app a) = true ↔ ∀ {i : Nat} {t : Ty}, a.args[i]? = some t →
      h.placed n (v.compose (m.variance i)) t = true := by
  obtain ⟨f, as⟩ := a
  have hm : h.find? f = some m := hm
  rw [placed, placedApp, hm, placedAll_iff]
  simp only [Nat.zero_add, Option.elim]

theorem placed_var_iff (hn : (n.params.map Param.name).Nodup) {x : Var Ty} {i : Nat}
    (hi : n.paramIndex? x.name = some i) :
    h.placed n v (.var x) = true ↔ n.variance i = .invariant ∨ n.variance i = v := by
  obtain ⟨p, hp, hname⟩ := Node.paramIndex?_eq_some hi
  have hvar : n.variance i = p.variance := by simp [Node.variance, hp]
  rw [placed, List.all_eq_true, hvar]
  constructor
  · intro hall
    have := hall p (List.mem_of_getElem? hp)
    simpa [hname] using this
  · intro hp' q hq
    by_cases hqx : q.name = x.name
    · -- names are unique, so this is the parameter itself
      obtain ⟨j, hj⟩ := List.mem_iff_getElem?.1 hq
      have hij := Node.paramIndex?_of_nodup hn hj
      rw [hqx, hi] at hij
      cases hij
      rw [hp] at hj
      cases hj
      simp [hp']
    · simp [hqx]

/-- What may stand at an invariant place may stand anywhere. -/
theorem placed_of_invariant {t : Ty} (ht : h.isNormal t = true)
    (hp : h.placed n .invariant t = true) : h.placed n v t = true := by
  induction t using Ty.induct generalizing v with
  | app f as ih =>
      obtain ⟨⟨m, hm, -⟩, has⟩ := isNormalApp_iff.1 (isNormal_app.symm.trans ht)
      rw [placed_app_iff hm] at hp ⊢
      intro i t hi
      have hmem := List.mem_of_getElem? hi
      exact ih t hmem (has t hmem) (hp hi)
  | var name lower upper =>
      rw [placed, List.all_eq_true] at hp ⊢
      intro q hq
      have := hp q hq
      simp only [or_self, decide_eq_true_eq] at this ⊢
      rcases this with h1 | h2
      · exact Or.inl h1
      · exact Or.inr (Or.inl h2)

/-- **Places compose**: a record put together with arguments has its parameters in place if both
    have. -/
theorem placed_mapVars (hm : (m.params.map Param.name).Nodup) {p : Ty} {xs : List Ty}
    (hnp : h.isNormal p = true) (hparam : ∀ x ∈ p.vars, (m.paramIndex? x.name).isSome = true)
    (hl : xs.length = m.arity) (hnx : ∀ x ∈ xs, h.isNormal x = true)
    (hp : h.placed m v p = true)
    (hxs : ∀ {i : Nat} {x : Ty}, xs[i]? = some x → h.placed n (m.variance i) x = true) :
    h.placed n v (p.mapVars (m.argument xs)) = true := by
  induction p using Ty.induct generalizing v with
  | app f as ih =>
      obtain ⟨⟨k, hk, -⟩, has⟩ := isNormalApp_iff.1 (isNormal_app.symm.trans hnp)
      rw [placed_app_iff hk] at hp
      have hk' : h.find? ((App.mk f as).mapVars (m.argument xs)).head = some k := by
        rw [App.head_mapVars]
        exact hk
      rw [Ty.mapVars_app, placed_app_iff hk']
      intro i t hi
      rw [App.args_mapVars, List.getElem?_map] at hi
      obtain ⟨q, hq, rfl⟩ := Option.map_eq_some_iff.1 hi
      have hmem := List.mem_of_getElem? hq
      refine ih q hmem (has q hmem) (fun x hx => hparam x ?_) (hp hq)
      rw [Ty.vars_app]
      exact App.mem_vars.2 ⟨q, hmem, hx⟩
  | var name lower upper =>
      have hsome := hparam ⟨name, lower, upper⟩ (by rw [Ty.vars_var]; exact List.mem_cons_self)
      obtain ⟨i, hi⟩ := Option.isSome_iff_exists.1 hsome
      have hlt : i < xs.length := hl ▸ Node.paramIndex?_lt hi
      have hx := List.getElem?_eq_getElem hlt
      rw [Ty.mapVars_var, Node.argument_of_index hi hx]
      rcases (placed_var_iff hm hi).1 hp with hv | hv
      · exact placed_of_invariant (hnx _ (List.getElem_mem hlt)) (hv ▸ hxs hx)
      · exact hv ▸ hxs hx

end Placed

/-! ## 2. Records -/

/-- The record is written in the parameters of the node alone. -/
def Plain (n : Node) (r : App Ty) : Prop := ∀ v ∈ r.vars, (n.paramIndex? v.name).isSome = true

section Records

variable {n m : Node} {x y z : App Ty}

theorem Plain.substitute (hy : Plain m y) (hx : Plain n x) (hl : x.args.length = m.arity) :
    Plain n (m.substitute y x.args) := by
  intro v hv
  obtain ⟨w, hw, hv⟩ := (App.mem_vars_mapVars y).1 hv
  exact hx v (App.mem_vars.2 ⟨_, Node.argument_mem hl (hy w hw), hv⟩)

/-- Where no parameter is nameless, a record in parameters alone cannot be made more specific. -/
theorem Plain.eq_of_covers (hx : Plain n x) (hn : n.paramIndex? "" = none) (hxz : x.Covers z) :
    x = z := by
  refine Ty.app.inj ((Ty.app_covers_app.2 hxz).eq_of_noWildcard fun v hv => ?_)
  rw [Ty.vars_app] at hv
  have hi := hx v hv
  cases hw : (Ty.var v).isWildcard with
  | false => rfl
  | true =>
      rw [Var.eq_free_of_isWildcard hw, Var.free, hn] at hi
      cases hi

theorem plain_self : Plain n n.self := by
  intro v hv
  obtain ⟨t, ht, hv⟩ := App.mem_vars.1 hv
  obtain ⟨p, hp, rfl⟩ := List.mem_map.1 ht
  rw [Ty.vars_var, List.mem_singleton] at hv
  subst hv
  exact Node.paramIndex?_isSome_iff.2 (List.mem_map_of_mem hp)

/-- A record that leaves nothing open is written in the parameters alone. -/
theorem Sound.plain_of_definite {d a : Nat} (hs : Sound h) (hn : h.nodes[d]? = some n)
    (hx : h.record? d a = some x) (hdef : x.Definite) : Plain n x := by
  intro v hv
  obtain ⟨m, -, ok⟩ := hs.record_ok hn hx
  rcases (ok.admitted v hv).2 with hanon | hsome
  · rw [hdef v hv] at hanon
    cases hanon
  · exact hsome

/-- If the record of a parent says all that the parent as given says, then it is that parent: no
    parent has `_` in it. -/
theorem Sound.record_parent {c p : Nat} {l : App Ty} (hs : Sound h) (hp : h.PlainParents)
    (hn : h.nodes[c]? = some n) (hl : n.parents.get? p = some l)
    (hrec : ∃ z, h.record? c p = some z ∧ l.Covers z) : h.record? c p = some l ∧ l.Definite := by
  have hmem := List.mem_of_getElem? hn
  have hdef : l.Definite := hp n hmem _ ((Roster.mem_entries_iff (hs.parents_nodup hmem)).2 hl)
  obtain ⟨z, hz, hcov⟩ := hrec
  exact ⟨hdef.eq_of_covers hcov ▸ hz, hdef⟩

/-- A record respects the variances if it is put together from two that do. -/
theorem placed_substitute {k : Node} (hs : Sound h) (hm : m ∈ h.nodes) (okx : h.IsRecord n m x)
    (oky : h.IsRecord m k y) (hpy : Plain m y) (hx : h.placed n .covariant (.app x) = true)
    (hy : h.placed m .covariant (.app y) = true) :
    h.placed n .covariant (.app (m.substitute y x.args)) = true := by
  have hfind : h.find? x.head = some m := by
    rw [okx.head_eq]
    exact hs.find_of_node (hs.node_of_mem hm)
  have hargs {i : Nat} {t : Ty} (hi : x.args[i]? = some t) :
      h.placed n (m.variance i) t = true := by
    have := (placed_app_iff hfind).1 hx hi
    rwa [Variance.compose_covariant] at this
  have hvars : ∀ v ∈ (Ty.app y).vars, (m.paramIndex? v.name).isSome = true := by
    rw [Ty.vars_app]
    exact hpy
  have := placed_mapVars (hs.params_nodup hm) (isNormal_app.trans oky.normal) hvars
    (okx.args_length hs hm) okx.normal_args hy hargs
  rwa [Ty.mapVars_app] at this

variable (g : Regular h) (hp : h.PlainParents)
include g

/-- Records in parameters alone go together without loss. -/
theorem Regular.compose_eq {d b a : Nat} (hn : h.nodes[d]? = some n) (hm : h.nodes[b]? = some m)
    (hx : h.record? d b = some x) (hy : h.record? b a = some y) (hpx : Plain n x)
    (hpy : Plain m y) : h.record? d a = some (m.substitute y x.args) := by
  obtain ⟨z, hz, hcov⟩ := g.coherent.compose hm hx hy
  have hl := (g.sound.isRecord hn hm hx).args_length g.sound (List.mem_of_getElem? hm)
  have hplain := hpy.substitute hpx hl
  rw [hz, hplain.eq_of_covers (g.named n (List.mem_of_getElem? hn)) hcov]

include hp in
/-- The record of a parent is the parent as it was given. -/
theorem Regular.record_parent {c p : Nat} {l : App Ty} (hn : h.nodes[c]? = some n)
    (hl : n.parents.get? p = some l) : h.record? c p = some l ∧ Plain n l := by
  obtain ⟨hrec, hdef⟩ := g.sound.record_parent hp hn hl (g.coherent.parent hn hl)
  exact ⟨hrec, g.sound.plain_of_definite hn hrec hdef⟩

include hp in
/-- **All records are written in the parameters alone.** A record is put together from the parents
    on the way. -/
theorem Regular.record_plain {d a : Nat} (hn : h.nodes[d]? = some n)
    (hx : h.record? d a = some x) : Plain n x := by
  obtain ⟨-, hpath⟩ := g.sound.closure.1 (hasAncestor_iff.2 ⟨x, hx⟩)
  induction hpath using ReflTransGen.head_induction_on generalizing n x with
  | refl =>
      rw [g.sound.record_self hn] at hx
      cases hx
      exact plain_self
  | @head d b hdb hba ih =>
      rw [HasParent, exists_node_iff hn] at hdb
      obtain ⟨l, hl⟩ := Option.isSome_iff_exists.1 hdb
      obtain ⟨hrec, hpl⟩ := g.record_parent hp hn hl
      obtain ⟨m, hm, ok⟩ := g.sound.record_ok hn hrec
      obtain ⟨y, hy⟩ := hasAncestor_iff.1
        (g.sound.closure.2 ⟨(List.getElem?_eq_some_iff.1 hm).1, hba⟩)
      have hpy := ih hm hy
      have heq := g.compose_eq hn hm hrec hy hpl hpy
      rw [hx] at heq
      cases heq
      exact hpy.substitute hpl (ok.args_length g.sound (List.mem_of_getElem? hm))

end Records

/-- The records leave nothing open, and going to an ancestor in two steps or at once is the same. -/
structure Straight (h : Hierarchy) : Prop where
  sound : Sound h
  named : Named h
  plain : ∀ {d a : Nat} {n : Node} {r : App Ty}, h.nodes[d]? = some n → h.record? d a = some r →
    Plain n r
  compose : ∀ {d b a : Nat} {m : Node} {x y : App Ty}, h.nodes[b]? = some m →
    h.record? d b = some x → h.record? b a = some y →
      h.record? d a = some (m.substitute y x.args)

theorem Regular.straight (g : Regular h) (hp : h.PlainParents) : Straight h where
  sound := g.sound
  named := g.named
  plain := g.record_plain hp
  compose := fun {d b a m x y} hm hx hy => by
    obtain ⟨n, hn, -⟩ := record?_eq_some.1 hx
    exact g.compose_eq hn hm hx hy (g.record_plain hp hn hx) (g.record_plain hp hm hy)

section Records

variable {n m : Node} {x y : App Ty} (g : Regular h) (hp : h.PlainParents)
  (hv : h.VarianceConsistent)
include g

theorem Regular.placed_self {i : Nat} (hn : h.nodes[i]? = some n) :
    h.placed n .covariant (.app n.self) = true := by
  have hfind : h.find? n.self.head = some n := g.sound.find_of_node hn
  have hnodup := g.sound.params_nodup (List.mem_of_getElem? hn)
  refine (placed_app_iff hfind).2 fun {j t} hj => ?_
  rw [Node.self, Node.generic, List.getElem?_map] at hj
  obtain ⟨p, hp, rfl⟩ := Option.map_eq_some_iff.1 hj
  refine (placed_var_iff hnodup (Node.paramIndex?_of_nodup hnodup hp)).2 (Or.inr ?_)
  rw [Variance.compose_covariant]

include hp hv in
/-- **In all records the parameters stand at places of their variances.** -/
theorem Regular.record_placed {d a : Nat} (hn : h.nodes[d]? = some n)
    (hx : h.record? d a = some x) : h.placed n .covariant (.app x) = true := by
  have S := g.straight hp
  obtain ⟨-, hpath⟩ := g.sound.closure.1 (hasAncestor_iff.2 ⟨x, hx⟩)
  induction hpath using ReflTransGen.head_induction_on generalizing n x with
  | refl =>
      rw [g.sound.record_self hn] at hx
      cases hx
      exact g.placed_self hn
  | @head d b hdb hba ih =>
      rw [HasParent, exists_node_iff hn] at hdb
      obtain ⟨l, hl⟩ := Option.isSome_iff_exists.1 hdb
      obtain ⟨hrec, -⟩ := g.record_parent hp hn hl
      have hent := (Roster.mem_entries_iff (g.sound.parents_nodup (List.mem_of_getElem? hn))).2 hl
      have hpl : h.placed n .covariant (.app l) = true := by
        rw [placed]
        exact hv n (List.mem_of_getElem? hn) _ hent
      obtain ⟨m, hm, okl⟩ := g.sound.record_ok hn hrec
      obtain ⟨y, hy⟩ := hasAncestor_iff.1
        (g.sound.closure.2 ⟨(List.getElem?_eq_some_iff.1 hm).1, hba⟩)
      have heq := S.compose hm hrec hy
      rw [hx] at heq
      cases heq
      obtain ⟨k, -, oky⟩ := g.sound.record_ok hm hy
      exact placed_substitute g.sound (List.mem_of_getElem? hm) okl oky (S.plain hm hy) hpl
        (ih hm hy)

end Records

/-- What the conditions on the declarations give for all records. -/
structure Lawful (h : Hierarchy) : Prop extends Straight h where
  placed : ∀ {d a : Nat} {n : Node} {r : App Ty}, h.nodes[d]? = some n →
    h.record? d a = some r → h.placed n .covariant (.app r) = true

theorem Regular.lawful (g : Regular h) (hp : h.PlainParents) (hv : h.VarianceConsistent) :
    Lawful h where
  toStraight := g.straight hp
  placed := g.record_placed hp hv

end Hierarchy

end Lineage

import Lineage.Proofs.Lawful

/-!
# Records along definite parents

A parameter may be nameless. Then `_` in a record of its type stands for that parameter, and what is
put in for it appears where nothing had been said: records do not get more specific in the same way
in a type and in its heirs. Something weaker always holds. Put the arguments of a parent in for the
named parameters alone: what the parent's record says in this way is said by the child's record
(`Fitting`).

It suffices where no parent is given with `_` in it. Then the records of such a hierarchy, nameless
parameters or not, are what the parents on the way make of them (`Fitting.compose_eq`), and what a
parent brings to the heirs of its child is what they have (`Fitting.carried_eq`).
-/

namespace Lineage

open Relation

/-! ## 1. Putting arguments in for named parameters -/

theorem App.mapVars_covers {f g : Var Ty → Ty} (hfg : ∀ v, (f v).Covers (g v)) (a : App Ty) :
    (a.mapVars f).Covers (a.mapVars g) := by
  suffices hall : ∀ t : Ty, (t.mapVars f).Covers (t.mapVars g) by
    have hcov := hall (.app a)
    rwa [Ty.mapVars_app, Ty.mapVars_app, Ty.app_covers_app] at hcov
  intro t
  induction t using Ty.induct with
  | app head args ih =>
      rw [Ty.mapVars_app, Ty.mapVars_app, Ty.app_covers_app, App.covers_iff, App.args_mapVars,
        App.args_mapVars, List.forall₂_map_left_iff, List.forall₂_map_right_iff]
      exact ⟨by rw [App.head_mapVars, App.head_mapVars], List.forall₂_same.2 ih⟩
  | var name lower upper _ _ =>
      rw [Ty.mapVars_var, Ty.mapVars_var]
      exact hfg _

namespace Node

variable {n m : Node}

/-- The argument that a variable stands for, if it has a name. -/
def namedArgument (n : Node) (args : List Ty) (v : Var Ty) : Ty :=
  if v.isAnonymous then .anonymous else n.argument args v

/-- A record of the node with arguments put in for the named parameters; `_` stays `_`. -/
def instantiate (n : Node) (r : App Ty) (args : List Ty) : App Ty :=
  r.mapVars (n.namedArgument args)

theorem instantiate_congr (hb : m.bare = n.bare) : m.instantiate = n.instantiate := by
  have hparams := (Node.bare_eq_iff.1 hb).2.2
  funext r args
  refine App.mapVars_congr r fun v _ => ?_
  rw [namedArgument, namedArgument, argument, argument, paramIndex?, paramIndex?, hparams]

/-- Arguments that are more specific, put in for all parameters, give something more specific. -/
theorem instantiate_covers {x w : App Ty} (hx : x.Covers w) (r : App Ty) :
    (n.instantiate r x.args).Covers (n.substitute r w.args) := by
  refine App.mapVars_covers (fun v => ?_) r
  rw [namedArgument]
  split
  · exact Ty.anonymous_covers _
  · exact argument_covers (App.covers_iff.1 hx).2 v

/-- The same for a record that is put together from two. -/
theorem instantiate_substitute_covers {x w : App Ty} {xs : List Ty}
    (hw : (m.instantiate x xs).Covers w) (r : App Ty) :
    (m.instantiate (n.substitute r x.args) xs).Covers (n.substitute r w.args) := by
  have hargs := (App.covers_iff.1 hw).2
  rw [instantiate, App.args_mapVars] at hargs
  rw [instantiate, substitute, App.mapVars_mapVars]
  refine App.mapVars_covers (fun v => ?_) r
  have hopen : Ty.anonymous.mapVars (m.namedArgument xs) = .anonymous := by
    rw [Ty.anonymous, Ty.mapVars_var]
    rfl
  rw [← argument_map hopen]
  exact argument_covers hargs v

/-- Where nothing is left open, all parameters that are met have names. -/
theorem instantiate_eq {r : App Ty} (hr : r.Definite) (args : List Ty) :
    n.instantiate r args = n.substitute r args := by
  refine App.mapVars_congr r fun v hv => ?_
  rw [namedArgument, hr v hv]
  rfl

/-- **Substitution is associative** on a record that is written in parameters. -/
theorem substitute_substitute_of_plain {r x : App Ty} (hr : Hierarchy.Plain n r)
    (hl : x.args.length = n.arity) (xs : List Ty) :
    m.substitute (n.substitute r x.args) xs = n.substitute r (m.substitute x xs).args := by
  rw [args_substitute, substitute, substitute, substitute, App.mapVars_mapVars]
  refine App.mapVars_congr r fun v hv => ?_
  obtain ⟨i, hi⟩ := Option.isSome_iff_exists.1 (hr v hv)
  have hlt : i < x.args.length := hl ▸ paramIndex?_lt hi
  have hget := List.getElem?_eq_getElem hlt
  rw [argument_of_index hi hget]
  exact (argument_of_index hi (by rw [List.getElem?_map, hget]; rfl)).symm

end Node

namespace Hierarchy

variable {h h' : Hierarchy} {child parent n m : Node} {record l x y : App Ty} {c p a d : Nat}

/-! ## 2. Parents and records fit -/

/-- A parent says no more than the child's record of it, and no more than the child's other records
    once its arguments are put in for named parameters. -/
structure Fitting (h : Hierarchy) : Prop where
  parent : ∀ {c p : Nat} {n : Node} {l : App Ty}, h.nodes[c]? = some n →
    n.parents.get? p = some l → ∃ z, h.record? c p = some z ∧ l.Covers z
  compose : ∀ {c p a : Nat} {n m : Node} {l y : App Ty}, h.nodes[c]? = some n →
    h.nodes[p]? = some m → n.parents.get? p = some l → h.record? p a = some y →
      ∃ z, h.record? c a = some z ∧ (m.instantiate y l.args).Covers z

namespace Extension

variable (ex : Extension h h' child parent record)
include ex

/-- Parents are the old ones and the new one. -/
theorem get?_parents {n' : Node} (hn' : h'.nodes[c]? = some n') (hl : n'.parents.get? p = some l) :
    (c = child.id ∧ p = parent.id ∧ l = record) ∨
      ∃ n, h.nodes[c]? = some n ∧ n.parents.get? p = some l := by
  obtain ⟨n, hn, hpar, -⟩ := ex.node hn'
  rw [hpar] at hl
  split at hl
  · rename_i hc
    rw [Roster.get?_insert] at hl
    split at hl
    · rename_i hp
      cases hl
      exact Or.inl ⟨hc.symm, hp.symm, rfl⟩
    · exact Or.inr ⟨n, hn, hl⟩
  · exact Or.inr ⟨n, hn, hl⟩

/-- A record is an old one, or the join of the old one with what the parent brings. -/
theorem record_cases {r : App Ty} (hr : h'.record? d a = some r) :
    h.record? d a = some r ∨ ∃ x y, h.record? d child.id = some x ∧
      h.record? parent.id a = some y ∧
        Joined (h.record? d a) (carried child parent record x y) r := by
  by_cases hnew : h.HasAncestor d child.id ∧ h.HasAncestor parent.id a
  · obtain ⟨x, hx⟩ := hasAncestor_iff.1 hnew.1
    obtain ⟨y, hy⟩ := hasAncestor_iff.1 hnew.2
    obtain ⟨r', hr', hj⟩ := ex.record_new hx hy
    rw [hr] at hr'
    cases hr'
    exact Or.inr ⟨x, y, hx, hy, hj⟩
  · rw [ex.record_old hnew] at hr
    exact Or.inl hr

/-- A bound of the parts is a bound of the new record, with arguments put in for named
    parameters. -/
theorem instantiate_covers_of_parts {b : Nat} {r z : App Ty} {xs : List Ty}
    (hr : h'.record? d b = some r)
    (hall : ∀ y, h.Part child parent record d b y → (m.instantiate y xs).Covers z) :
    (m.instantiate r xs).Covers z := by
  rcases ex.record_cases hr with hr | ⟨x, y, hx, hy, hj⟩
  · exact hall r (Or.inl hr)
  · have hin := hall _ (Or.inr ⟨x, y, hx, hy, rfl⟩)
    cases hold : h.record? d b with
    | none =>
        rw [hold] at hj
        obtain rfl : r = _ := hj
        exact hin
    | some old =>
        rw [hold] at hj
        exact App.Covers.refine _ hj (hall old (Or.inl hold)) hin

end Extension

namespace Fitting

variable (fit : Fitting h) (hs : Sound h) (hs' : Sound h') (hc : h.nodes[child.id]? = some child)
  (hp : h.nodes[parent.id]? = some parent) (hno : ¬ h.HasAncestor parent.id child.id)
  (hr : h.IsRecord child parent record) (ex : Extension h h' child parent record)
include hs hc hr ex

/-- The new parent's records, with its arguments put in, are in the child's. -/
theorem compose_new (hy : h.record? parent.id a = some y) :
    ∃ z, h'.record? child.id a = some z ∧ (parent.instantiate y record.args).Covers z := by
  obtain ⟨z, hz, hcov⟩ := ex.carried_covers (hs.record_self hc) hy
  have hadm : ∀ v ∈ (parent.substitute y record.args).vars, child.Admits v :=
    Node.admits_substitute hr.admitted_args
  rw [carried, Node.substitute_generic hadm] at hcov
  exact ⟨z, hz, (Node.instantiate_covers (App.covers_refl record) y).trans hcov⟩

include fit

/-- What the new parent brings to a type with an old parent, it brings to the old parent too. -/
theorem compose_carried (hn : h.nodes[c]? = some n) (hm : h.nodes[p]? = some m)
    (hl : n.parents.get? p = some l) (hx : h.record? p child.id = some x)
    (hy : h.record? parent.id a = some y) : ∃ z, h'.record? c a = some z ∧
      (m.instantiate (carried child parent record x y) l.args).Covers z := by
  by_cases hpc : p = child.id
  · -- the old parent is the child itself, and its own record leaves no trace
    subst hpc
    rw [hc] at hm
    cases hm
    rw [hs.record_self hc] at hx
    cases hx
    obtain ⟨w, hw, hlw⟩ := fit.parent hn hl
    obtain ⟨z, hz, hcov⟩ := ex.carried_covers hw hy
    have hadm : ∀ v ∈ (parent.substitute y record.args).vars, child.Admits v :=
      Node.admits_substitute hr.admitted_args
    rw [carried, Node.substitute_generic hadm]
    exact ⟨z, hz, (Node.instantiate_covers hlw _).trans hcov⟩
  · obtain ⟨w, hw, hxw⟩ := fit.compose hn hm hl hx
    obtain ⟨z, hz, hcov⟩ := ex.carried_covers hw hy
    exact ⟨z, hz, (Node.instantiate_substitute_covers hxw _).trans hcov⟩

/-- Both parts of a parent's record, the old one and what the new parent brings. -/
theorem compose_part (hn : h.nodes[c]? = some n) (hm : h.nodes[p]? = some m)
    (hl : n.parents.get? p = some l) (hy : h.Part child parent record p a y) :
    ∃ z, h'.record? c a = some z ∧ (m.instantiate y l.args).Covers z := by
  rcases hy with hy | ⟨x, y, hx, hy, rfl⟩
  · obtain ⟨w, hw, hcov⟩ := fit.compose hn hm hl hy
    obtain ⟨z, hz, hle⟩ := ex.grows hw
    exact ⟨z, hz, hcov.trans hle⟩
  · exact fit.compose_carried hs hc hr ex hn hm hl hx hy

include hs' hp hno

/-- **A new parent keeps parents and records fitting.** -/
theorem extend : Fitting h' where
  parent := fun {c p n' l} hn' hl => by
    rcases ex.get?_parents hn' hl with ⟨rfl, rfl, rfl⟩ | ⟨n, hn, hl⟩
    · obtain ⟨z, hz, hcov⟩ := ex.carried_covers (hs.record_self hc) (hs.record_self hp)
      rw [carried_self hs hp hr] at hcov
      exact ⟨z, hz, hcov⟩
    · obtain ⟨w, hw, hcov⟩ := fit.parent hn hl
      obtain ⟨z, hz, hle⟩ := ex.grows hw
      exact ⟨z, hz, hcov.trans hle⟩
  compose := fun {c p a n' m' l y} hn' hm' hl hy => by
    obtain ⟨m, hm, hb⟩ := ex.same.symm.node hm'
    rw [← Node.instantiate_congr hb]
    rcases ex.get?_parents hn' hl with ⟨rfl, rfl, rfl⟩ | ⟨n, hn, hl⟩
    · rw [hp] at hm
      cases hm
      rw [ex.record_old fun hboth => hno hboth.1] at hy
      exact compose_new hs hc hr ex hy
    · have hcp : h'.HasAncestor c p := by
        obtain ⟨z, hz, -⟩ := fit.parent hn hl
        obtain ⟨z', hz', -⟩ := ex.grows hz
        exact hasAncestor_iff.2 ⟨z', hz'⟩
      obtain ⟨z, hz⟩ := hasAncestor_iff.1 (hs'.hasAncestor_trans hcp (hasAncestor_iff.2 ⟨y, hy⟩))
      refine ⟨z, hz, ex.instantiate_covers_of_parts hy fun y hy => ?_⟩
      obtain ⟨z', hz', hcov⟩ := fit.compose_part hs hc hr ex hn hm hl hy
      rw [hz] at hz'
      cases hz'
      exact hcov

end Fitting

theorem Fitting.addParent (fit : Fitting h) (hs : Sound h) {name : String} {t : Ty}
    (e : h.addParent name t = .ok h') : Fitting h' := by
  have hs' := hs.addParent e
  obtain ⟨n, p, r, r', hres, hno, hj, ⟨-, rfl⟩ | ex⟩ := addParent_cases hs e
  · exact fit
  · have hc := hs.node_of_find hres.child_eq
    have hp := hs.node_of_find hres.parent_eq
    refine fit.extend hs hs' hc hp hno ?_ ex
    exact IsRecord.of_joined (fun y hy => hs.isRecord hc hp hy) hres.isRecord hj

/-- A new type has no parents, and is nobody's parent. -/
theorem Fitting.extended (fit : Fitting h) (hs : Sound h) (name : String) (params : List Param) :
    Fitting (h.extended name params) where
  parent := fun {c p n l} hn hl => by
    rcases getElem?_extended.1 hn with hn | ⟨-, rfl⟩
    · obtain ⟨z, hz, hcov⟩ := fit.parent hn hl
      exact ⟨z, record?_extended.2 (Or.inl hz), hcov⟩
    · cases hl
  compose := fun {c p a n m l y} hn hm hl hy => by
    rcases getElem?_extended.1 hn with hn | ⟨-, rfl⟩
    · obtain ⟨w, hw, -⟩ := fit.parent hn hl
      obtain ⟨k, hk⟩ := hs.node_of_ancestor (hasAncestor_iff.2 ⟨w, hw⟩)
      have hlt := (List.getElem?_eq_some_iff.1 hk).1
      rcases getElem?_extended.1 hm with hm | ⟨rfl, -⟩
      · rcases record?_extended.1 hy with hy | ⟨rfl, -, -⟩
        · obtain ⟨z, hz, hcov⟩ := fit.compose hn hm hl hy
          exact ⟨z, record?_extended.2 (Or.inl hz), hcov⟩
        · exact absurd hlt (Nat.lt_irrefl _)
      · exact absurd hlt (Nat.lt_irrefl _)
    · cases hl

/-- **In every reachable hierarchy parents and records fit.** -/
theorem fitting_of_reachable (hr : Reachable h) : Fitting h := by
  suffices Sound h ∧ Fitting h from this.2
  refine hr.induct (P := fun h => Sound h ∧ Fitting h) ⟨sound_empty, ?_⟩
    (fun ⟨hs, fit⟩ e => ⟨hs.declare e, ?_⟩)
    (fun ⟨hs, fit⟩ e => ⟨hs.addParent e, fit.addParent hs e⟩)
    (fun ⟨hs, fit⟩ => ⟨hs.finalize, ?_⟩)
  · exact ⟨fun hn => (by cases hn), fun hn => (by cases hn)⟩
  · obtain ⟨-, -, -, rfl⟩ := declare_eq_ok e
    exact fit.extended hs _ _
  · unfold Hierarchy.finalize
    split
    · exact fit
    · exact ⟨fit.parent, fit.compose⟩

/-! ## 3. Definite parents -/

namespace Fitting

variable (fit : Fitting h) (hs : Sound h) (hplain : h.PlainParents)
include fit hs hplain

/-- The record of a parent is the parent as it was given, and leaves nothing open. -/
theorem record_parent (hn : h.nodes[c]? = some n) (hl : n.parents.get? p = some l) :
    h.record? c p = some l ∧ l.Definite :=
  hs.record_parent hplain hn hl (fit.parent hn hl)

/-- A record that leaves nothing open comes to the child with the arguments of the parent put in. -/
theorem compose_definite (hn : h.nodes[c]? = some n) (hm : h.nodes[p]? = some m)
    (hl : n.parents.get? p = some l) (hy : h.record? p a = some y) (hdef : y.Definite) :
    h.record? c a = some (m.substitute y l.args) ∧ (m.substitute y l.args).Definite := by
  obtain ⟨hrec, hldef⟩ := fit.record_parent hs hplain hn hl
  have hlen := (hs.isRecord hn hm hrec).args_length hs (List.mem_of_getElem? hm)
  have hsub : (m.substitute y l.args).Definite := by
    intro v hv
    obtain ⟨w, hw, hv⟩ := (App.mem_vars_mapVars y).1 hv
    have harg := Node.argument_mem hlen (hs.plain_of_definite hm hy hdef w hw)
    exact hldef v (App.mem_vars.2 ⟨_, harg, hv⟩)
  obtain ⟨z, hz, hcov⟩ := fit.compose hn hm hl hy
  rw [Node.instantiate_eq hdef] at hcov
  exact ⟨hsub.eq_of_covers hcov ▸ hz, hsub⟩

/-- **Every record but a type's own leaves nothing open.** -/
theorem record_definite (hda : d ≠ a) (hx : h.record? d a = some x) : x.Definite := by
  obtain ⟨-, hpath⟩ := hs.closure.1 (hasAncestor_iff.2 ⟨x, hx⟩)
  induction hpath using ReflTransGen.head_induction_on generalizing x with
  | refl => exact absurd rfl hda
  | @head d b hdb hba ih =>
      obtain ⟨n, hn, hcontains⟩ := hdb
      obtain ⟨l, hl⟩ := Option.isSome_iff_exists.1 hcontains
      obtain ⟨hrec, hldef⟩ := fit.record_parent hs hplain hn hl
      by_cases hb : b = a
      · subst hb
        rw [hx] at hrec
        cases hrec
        exact hldef
      · obtain ⟨m, hm⟩ := hs.node_of_ancestor (hasAncestor_iff.2 ⟨l, hrec⟩)
        obtain ⟨y, hy⟩ := hasAncestor_iff.1
          (hs.closure.2 ⟨(List.getElem?_eq_some_iff.1 hm).1, hba⟩)
        obtain ⟨hrec, hdef⟩ := fit.compose_definite hs hplain hn hm hl hy (ih hb hy)
        rw [hx] at hrec
        cases hrec
        exact hdef

/-- **A record is what the parent makes of its own.** -/
theorem compose_eq (hn : h.nodes[c]? = some n) (hm : h.nodes[p]? = some m)
    (hl : n.parents.get? p = some l) (hy : h.record? p a = some y) :
    h.record? c a = some (m.substitute y l.args) := by
  by_cases hpa : p = a
  · subst hpa
    obtain ⟨hrec, -⟩ := fit.record_parent hs hplain hn hl
    have ok := hs.isRecord hn hm hrec
    have hmem := List.mem_of_getElem? hm
    rw [hs.record_self hm] at hy
    cases hy
    rw [Node.substitute_self (hs.params_nodup hmem) (ok.args_length hs hmem), ← ok.head_eq]
    exact hrec
  · exact (fit.compose_definite hs hplain hn hm hl hy
      (fit.record_definite hs hplain hpa hy)).1

/-- **What a parent brings to the heirs of its child is what they have.** -/
theorem carried_eq (hn : h.nodes[c]? = some n) (hm : h.nodes[p]? = some m)
    (hl : n.parents.get? p = some l) (hx : h.record? d c = some x) (hy : h.record? p a = some y) :
    h.record? d a = some (carried n m l x y) := by
  have hw := fit.compose_eq hs hplain hn hm hl hy
  have hcp := hasAncestor_iff.2 ⟨l, (fit.record_parent hs hplain hn hl).1⟩
  have hpa := hasAncestor_iff.2 ⟨y, hy⟩
  have hplainw : Plain n (m.substitute y l.args) := by
    refine hs.plain_of_definite hn hw (fit.record_definite hs hplain ?_ hw)
    rintro rfl
    -- the ancestors of a parent lie above the child
    have hparent : h.HasParent c p := ⟨n, hn, by rw [Roster.contains, hl]; rfl⟩
    exact hs.parent_ne hparent (hs.acyclic hpa hcp)
  obtain ⟨-, hpath⟩ := hs.closure.1 (hasAncestor_iff.2 ⟨x, hx⟩)
  induction hpath using ReflTransGen.head_induction_on generalizing x with
  | refl =>
      rw [hs.record_self hn] at hx
      cases hx
      have hadm := (hs.record_ok hn hw).choose_spec.2.admitted
      rw [carried, Node.substitute_generic hadm]
      exact hw
  | @head d b hdb hbc ih =>
      obtain ⟨nd, hnd, hcontains⟩ := hdb
      obtain ⟨lb, hlb⟩ := Option.isSome_iff_exists.1 hcontains
      obtain ⟨hrec, -⟩ := fit.record_parent hs hplain hnd hlb
      obtain ⟨nb, hnb⟩ := hs.node_of_ancestor (hasAncestor_iff.2 ⟨lb, hrec⟩)
      obtain ⟨x', hx'⟩ := hasAncestor_iff.1
        (hs.closure.2 ⟨(List.getElem?_eq_some_iff.1 hnb).1, hbc⟩)
      have hlen := (hs.isRecord hnb hn hx').args_length hs (List.mem_of_getElem? hn)
      have hstep := fit.compose_eq hs hplain hnd hnb hlb (ih hx')
      have hx'' := fit.compose_eq hs hplain hnd hnb hlb hx'
      rw [hx] at hx''
      cases hx''
      rw [hstep, carried, carried, Node.substitute_substitute_of_plain hplainw hlen]

end Fitting

end Hierarchy

end Lineage

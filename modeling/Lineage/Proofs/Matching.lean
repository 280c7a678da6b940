import Lineage.Proofs.Narrowing
import Lineage.Nearest.Constraint
import Mathlib.Data.List.Nodup

/-!
# Matching a record against an instance

What a match that succeeds has found, without the rounds: `Matched`. Pattern and value are brought
to one type (`Meets`), and their arguments are matched position by position.

* `Lawful.narrows_of_matched`: **matching is sound**. Arguments that narrow the values of all
  constraints, each in its relation, make the pattern narrow the value it was matched against;
* `Lawful.exists_constraint`: where every record mentions all parameters, a match against a
  ground value constrains each parameter of the pattern;
* `Lawful.unmixed_of_linear`: where no record mentions a parameter twice, no parameter gets
  constraints of different relations.
-/

namespace Lineage.Hierarchy

open Nearest

variable {h : Hierarchy}

/-! ## 1. Matches -/

/-- A pattern and a value brought to one type: the lower one is raised to the type of the other. -/
inductive Meets (h : Hierarchy) (p v : App Ty) (n : Node) : Variance → App Ty → App Ty → Prop where
  | raised {p' : App Ty} : h.find? v.head = some n → h.raise p n.id = some p' →
      Meets h p v n .covariant p' v
  | lowered {v' : App Ty} : h.find? p.head = some n → h.raise v n.id = some v' →
      Meets h p v n .contravariant p v'
  | level : h.find? p.head = some n → p.head = v.head → Meets h p v n .invariant p v

/-- The constraints found at the single positions, taken together. -/
def Gathered (ps vs : List Ty) (found : Nat → Ty → Ty → List Constraint)
    (cs : List Constraint) : Prop :=
  ∀ c, c ∈ cs ↔ ∃ i x y, ps[i]? = some x ∧ vs[i]? = some y ∧ c ∈ found i x y

/-- The constraints under which a pattern stands in a relation to a value. -/
inductive Matched (h : Hierarchy) : Variance → Ty → Ty → List Constraint → Prop where
  | param {relation : Variance} {s : Var Ty} {value : Ty} : s.isAnonymous = false →
      Matched h relation (.var s) value [⟨s.name, value, relation⟩]
  | anonymous {relation : Variance} {s : Var Ty} {value : Ty} : s.isAnonymous = true →
      Matched h relation (.var s) value []
  | any {relation : Variance} {p : App Ty} {s : Var Ty} : Matched h relation (.app p) (.var s) []
  | app {relation : Variance} {p v p' v' : App Ty} {n : Node}
      {found : Nat → Ty → Ty → List Constraint} {cs : List Constraint} :
      h.Meets p v n relation p' v' →
      (∀ (i : Nat) (x y : Ty), p'.args[i]? = some x → v'.args[i]? = some y →
        Matched h (relation.compose (n.variance i)) x y (found i x y)) →
      Gathered p'.args v'.args found cs → Matched h relation (.app p) (.app v) cs

/-- The constraints under which the arguments of a record stand in a relation to others. -/
def MatchedArgs (h : Hierarchy) (relation : Variance) (n : Node) (ps vs : List Ty)
    (cs : List Constraint) : Prop :=
  ∃ found, (∀ (i : Nat) (x y : Ty), ps[i]? = some x → vs[i]? = some y →
    h.Matched (relation.compose (n.variance i)) x y (found i x y)) ∧ Gathered ps vs found cs

section Rounds

variable {relation : Variance} {n : Node} {cs : List Constraint} {rounds : Nat}

theorem matchAll_eq_some {α : Type} {f : α → Option Match} {xs : List α}
    (e : matchAll f xs = some (some cs)) :
    ∃ found, (∀ x ∈ xs, f x = some (some (found x))) ∧ cs = xs.flatMap found := by
  refine ⟨fun x => ((f x).join).getD [], ?_⟩
  induction xs generalizing cs with
  | nil =>
      rw [matchAll] at e
      cases e
      exact ⟨nofun, rfl⟩
  | cons x xs ih =>
      rw [matchAll] at e
      obtain ⟨found, hx, e⟩ := Option.bind_eq_some_iff.1 e
      cases found with
      | none => cases e
      | some found =>
          obtain ⟨rest, hrest, e⟩ := Option.bind_eq_some_iff.1 e
          cases rest with
          | none => cases e
          | some rest =>
              cases e
              obtain ⟨hall, rfl⟩ := ih hrest
              refine ⟨List.forall_mem_cons.2 ⟨?_, hall⟩, ?_⟩
              · simp [hx]
              · rw [List.flatMap_cons, hx]
                rfl

/-- A match of arguments is one at each position. -/
theorem matchArgs_eq_some {rec : Variance → Ty → Ty → Option Match} {ps vs : List Ty}
    (e : matchArgs rec relation n ps vs = some (some cs)) :
    ∃ found, (∀ (i : Nat) (x y : Ty), ps[i]? = some x → vs[i]? = some y →
      rec (relation.compose (n.variance i)) x y = some (some (found i x y))) ∧
        Gathered ps vs found cs := by
  obtain ⟨found, hall, rfl⟩ := matchAll_eq_some e
  refine ⟨fun i x y => found ((x, y), i), forall_mem_zip_zipIdx.1 hall, fun c => ?_⟩
  rw [List.mem_flatMap]
  constructor
  · rintro ⟨e, he, hc⟩
    obtain ⟨hx, hy⟩ := List.getElem?_zip_eq_some.1 (List.mem_zipIdx_iff_getElem?.1 he)
    exact ⟨e.2, e.1.1, e.1.2, hx, hy, hc⟩
  · rintro ⟨i, x, y, hx, hy, hc⟩
    exact ⟨_, List.mem_zipIdx_iff_getElem?.2 (List.getElem?_zip_eq_some.2 ⟨hx, hy⟩), hc⟩

variable (S : Sound h)
include S

theorem Sound.matchApp_eq_some {rec : Variance → Ty → Ty → Option Match} {p v : App Ty}
    (e : matchApp h rec relation p v = some (some cs)) : ∃ n p' v',
      h.Meets p v n relation p' v' ∧ matchArgs rec relation n p'.args v'.args = some (some cs) := by
  cases relation with
  | covariant =>
      rw [matchApp] at e
      cases hn : h.find? v.head with
      | none => simp [hn] at e
      | some n =>
          cases hr : h.raise p n.id with
          | none => simp [hn, hr] at e
          | some p' =>
              simp only [hn, hr, Option.bind_some, matchSame, S.raise_head hn hr] at e
              exact ⟨n, p', v, .raised hn hr, e⟩
  | contravariant =>
      rw [matchApp] at e
      cases hn : h.find? p.head with
      | none => simp [hn] at e
      | some n =>
          cases hr : h.raise v n.id with
          | none => simp [hn, hr] at e
          | some v' =>
              simp only [hn, hr, Option.bind_some, matchSame] at e
              exact ⟨n, p, v', .lowered hn hr, e⟩
  | invariant =>
      rw [matchApp] at e
      split at e
      · rename_i hhead
        cases hn : h.find? p.head with
        | none => simp [matchSame, hn] at e
        | some n =>
            simp only [matchSame, hn] at e
            exact ⟨n, p, v, .level hn hhead, e⟩
      · cases e

/-- What the rounds have found is a match. -/
theorem Sound.matched_of_constraints {p v : Ty}
    (e : constraints h rounds relation p v = some (some cs)) : h.Matched relation p v cs := by
  induction rounds generalizing relation p v cs with
  | zero => cases e
  | succ rounds ih =>
      rw [constraints] at e
      cases p with
      | var s =>
          rw [matchWith] at e
          cases e
          cases hs : s.isAnonymous with
          | false => exact .param hs
          | true => exact .anonymous hs
      | app p =>
          cases v with
          | var s =>
              cases e
              exact .any
          | app v =>
              obtain ⟨n, p', v', hmeets, e⟩ := S.matchApp_eq_some e
              obtain ⟨found, hall, hcs⟩ := matchArgs_eq_some e
              exact .app hmeets (fun i x y hx hy => ih (hall i x y hx hy)) hcs

theorem Sound.matchedArgs_of_matchArgs {ps vs : List Ty}
    (e : matchArgs (constraints h rounds) relation n ps vs = some (some cs)) :
    h.MatchedArgs relation n ps vs cs := by
  obtain ⟨found, hall, hcs⟩ := matchArgs_eq_some e
  exact ⟨found, fun i x y hx hy => S.matched_of_constraints (hall i x y hx hy), hcs⟩

end Rounds

/-! ## 2. Pattern and value at one type -/

section Meets

variable {relation : Variance} {p v p' v' : App Ty} {n m : Node} (L : Lawful h)
  (hm : h.Meets p v n relation p' v')
include L hm

omit L in
theorem Sound.meets_find (S : Sound h) : h.find? p'.head = some n ∧ p'.head = v'.head := by
  cases hm with
  | raised hn hr =>
      rw [S.raise_head hn hr]
      exact ⟨hn, rfl⟩
  | lowered hn hr =>
      rw [S.raise_head hn hr]
      exact ⟨hn, rfl⟩
  | level hn hhead => exact ⟨hn, hhead⟩

omit L in
/-- The pattern stays as it is, or it is raised. -/
theorem Meets.pattern_of {P : App Ty → Prop} (hp : P p)
    (hraise : ∀ q, h.raise p n.id = some q → P q) : P p' := by
  cases hm with
  | raised _ hr => exact hraise p' hr
  | lowered _ _ => exact hp
  | level _ _ => exact hp

theorem Lawful.meets_pattern (hp : h.Pattern m (.app p)) : h.Pattern m (.app p') :=
  hm.pattern_of hp fun _ hr => L.raise_over hp hr

omit L in
/-- The value stays as it is, or it is raised. -/
theorem Meets.value_of {P : App Ty → Prop} (hv : P v)
    (hraise : ∀ q, h.raise v n.id = some q → P q) : P v' := by
  cases hm with
  | raised _ _ => exact hv
  | lowered _ hr => exact hraise v' hr
  | level _ _ => exact hv

theorem Lawful.meets_value {V : Var Ty → Prop} (hv : h.Over V (.app v)) : h.Over V (.app v') :=
  hm.value_of hv fun _ hr => L.raise_over hv hr

/-- The value is narrowed by what it was brought to. -/
theorem Lawful.meets_narrows_value {V : Var Ty → Prop} (hv : h.Over V (.app v)) :
    h.Narrows relation (.app v) (.app v') := by
  cases hm with
  | raised _ _ => exact L.narrows_refl
  | lowered _ hr =>
      obtain ⟨⟨k, hk, hl⟩, -⟩ := over_app_iff.1 hv
      exact L.narrows_raise hk hl hr
  | level _ _ => exact L.narrows_refl

/-- What the pattern was brought to is narrowed by the pattern, with any arguments put in. -/
theorem Lawful.meets_narrows_pattern (hn : m ∈ h.nodes) (zs : List Ty) :
    h.Narrows relation (.app (m.substitute p' zs)) (.app (m.substitute p zs)) := by
  cases hm with
  | raised _ hr =>
      have e : h.raise (m.substitute p zs) n.id = some (m.substitute p' zs) := by
        rw [raise_substitute (L.named m hn), hr, Option.map_some]
      exact L.narrows_lower e
  | lowered _ _ => exact L.narrows_refl
  | level _ _ => exact L.narrows_refl

end Meets

/-- A class of instances that holds the arguments of its members and what they are raised to. -/
structure RaiseClosed (h : Hierarchy) (P : Ty → Prop) : Prop where
  arg : ∀ {a : App Ty} {t : Ty}, P (.app a) → t ∈ a.args → P t
  raise : ∀ {a b : App Ty} {target : Nat}, P (.app a) → h.raise a target = some b → P (.app b)

theorem Straight.raiseClosed (S : Straight h) (V : Var Ty → Prop) : RaiseClosed h (h.Over V) where
  arg := fun ha ht => (over_app_iff.1 ha).2 _ ht
  raise := S.raise_over

section Values

variable {P : Ty → Prop} {relation : Variance} {n : Node} {cs : List Constraint}
  (C : RaiseClosed h P)
include C

/-- The constraints are by instances of the class of the value. -/
theorem RaiseClosed.matched_values {p v : Ty} (hm : h.Matched relation p v cs) (hv : P v) :
    ∀ c ∈ cs, P c.value := by
  induction hm with
  | param =>
      intro c hc
      rw [List.mem_singleton] at hc
      subst hc
      exact hv
  | anonymous => exact nofun
  | any => exact nofun
  | app hmeets _ hcs ih =>
      intro c hc
      obtain ⟨i, x, y, hx, hy, hc⟩ := (hcs c).1 hc
      have hv' := hmeets.value_of (P := fun b => P (.app b)) hv fun _ hr => C.raise hv hr
      exact ih i x y hx hy (C.arg hv' (List.mem_of_getElem? hy)) c hc

theorem RaiseClosed.matchedArgs_values {ps vs : List Ty} (hm : h.MatchedArgs relation n ps vs cs)
    (hv : ∀ v ∈ vs, P v) : ∀ c ∈ cs, P c.value := by
  obtain ⟨found, hall, hcs⟩ := hm
  intro c hc
  obtain ⟨i, x, y, hx, hy, hc⟩ := (hcs c).1 hc
  exact C.matched_values (hall i x y hx hy) (hv y (List.mem_of_getElem? hy)) c hc

end Values

/-! ## 3. Soundness -/

section Sound

variable {relation : Variance} {p v : Ty} {n : Node} {cs : List Constraint} {V : Var Ty → Prop}
  (L : Lawful h)
include L

/-- No parameter is nameless. -/
theorem Lawful.not_anonymous {s : Var Ty} (hn : n ∈ h.nodes) (hp : h.Pattern n (.var s)) :
    s.isAnonymous = false := by
  by_contra hne
  have hanon : s.name = "" := by simpa [Var.isAnonymous] using hne
  have hsome := Over.of_var hp
  rw [hanon, L.named n hn] at hsome
  cases hsome

/-- **Matching is sound.** The induction is on the match; where pattern and value are brought to
    one type, the narrowing goes through that type. -/
theorem Lawful.narrows_of_matched {zs : List Ty} (hn : n ∈ h.nodes) (hl : zs.length = n.arity)
    (hm : h.Matched relation p v cs) (hp : h.Pattern n p) (hv : h.Sketch v)
    (hcs : ∀ c ∈ cs, ∀ (i : Nat) (z : Ty), n.paramIndex? c.param = some i → zs[i]? = some z →
      h.Narrows c.relation c.value z) :
    h.Narrows relation v (p.mapVars (n.argument zs)) := by
  induction hm with
  | @param relation s value hs =>
      obtain ⟨i, hi⟩ := Option.isSome_iff_exists.1 (Over.of_var hp)
      have hz := List.getElem?_eq_getElem (hl ▸ Node.paramIndex?_lt hi)
      rw [Ty.mapVars_var, Node.argument_of_index hi hz]
      exact hcs _ List.mem_cons_self i _ hi hz
  | @anonymous relation s value hs =>
      rw [L.not_anonymous hn hp] at hs
      cases hs
  | any => exact L.narrows_var hv
  | @app relation p v p' v' m found cs hmeets _ hgather ih =>
      obtain ⟨hm', hhead⟩ := L.sound.meets_find hmeets
      have hp' := L.meets_pattern hmeets hp
      have hv' := L.meets_value hmeets hv
      have hargs : h.Narrows relation (.app v') (.app (n.substitute p' zs)) := by
        have hv'' : h.find? v'.head = some m := hhead ▸ hm'
        refine L.narrows_app hv'' ?_ (hv'.length hv'') ?_ fun i y z hy hz => ?_
        · rw [Node.head_substitute, hhead]
        · rw [Node.args_substitute, List.length_map, hp'.length hm']
        · rw [Node.args_substitute, List.getElem?_map] at hz
          obtain ⟨x, hx, rfl⟩ := Option.map_eq_some_iff.1 hz
          exact ih i x y hx hy (hp'.arg hx) (hv'.arg hy) fun c hc =>
            hcs c ((hgather c).2 ⟨i, x, y, hx, hy, hc⟩)
      rw [Ty.mapVars_app]
      exact ((L.meets_narrows_value hmeets hv).trans hargs).trans
        (L.meets_narrows_pattern hmeets hn zs)

end Sound

/-! ## 4. Parameters that records mention at least once, or at most once -/

/-- Every record mentions every parameter. -/
def Determined (h : Hierarchy) : Prop :=
  ∀ n ∈ h.nodes, ∀ e ∈ n.ancestors.entries, ∀ p ∈ n.params, p.name ∈ e.2.vars.map Var.name

instance (h : Hierarchy) : Decidable h.Determined := inferInstanceAs (Decidable (∀ n ∈ h.nodes,
  ∀ e ∈ n.ancestors.entries, ∀ p ∈ n.params, p.name ∈ e.2.vars.map Var.name))

/-- No record mentions a parameter twice. -/
def Linear (h : Hierarchy) : Prop :=
  ∀ n ∈ h.nodes, ∀ e ∈ n.ancestors.entries, (e.2.vars.map Var.name).Nodup

instance (h : Hierarchy) : Decidable h.Linear := inferInstanceAs
  (Decidable (∀ n ∈ h.nodes, ∀ e ∈ n.ancestors.entries, (e.2.vars.map Var.name).Nodup))

/-- Matching a record never gives constraints of different relations on one parameter.
    Constraints by variables without bounds say nothing. -/
def Unmixed (h : Hierarchy) : Prop :=
  ∀ (rounds : Nat) (source target : Node) (record : App Ty) (values : List Ty)
    (cs : List Constraint), h.find? source.name = some source → target ∈ h.nodes →
    target.ancestors.get? source.id = some record → h.Sketch (.app ⟨source.name, values⟩) →
    matchArgs (constraints h rounds) .covariant source record.args values = some (some cs) →
    ∀ c ∈ cs, ∀ c' ∈ cs, c.param = c'.param → c.value.isFree = false → c'.value.isFree = false →
      c.relation = c'.relation

section Mentioned

variable {a b : App Ty} {n m : Node} {target : Nat} {s : Var Ty}

/-- The argument that stands for a parameter. -/
theorem argument_of_param (hnodup : (n.params.map Param.name).Nodup) {xs : List Ty} {i : Nat}
    {x : Ty} (hl : xs.length = n.arity) (hx : xs[i]? = some x) :
    ∃ p ∈ n.params, ∀ w : Var Ty, w.name = p.name → n.argument xs w = x := by
  have hi : i < n.params.length := by
    have hlt : i < xs.length := (List.getElem?_eq_some_iff.1 hx).1
    have harity : n.arity = n.params.length := rfl
    omega
  have hp := List.getElem?_eq_getElem hi
  refine ⟨n.params[i], List.getElem_mem hi, fun w hw => ?_⟩
  exact Node.argument_of_index (hw ▸ Node.paramIndex?_of_nodup hnodup hp) hx

variable (L : Lawful h)
include L

/-- Raising loses no variable where every record mentions all parameters. -/
theorem Lawful.vars_raise (hd : h.Determined) (ha : h.Pattern m (.app a))
    (e : h.raise a target = some b) (hs : s ∈ a.vars) : s ∈ b.vars := by
  obtain ⟨n, r, hn, hr, rfl⟩ := raise_eq_some.1 e
  have hmem := find?_mem hn
  obtain ⟨x, hx, hs⟩ := App.mem_vars.1 hs
  obtain ⟨i, hi⟩ := List.mem_iff_getElem?.1 hx
  obtain ⟨p, hp, harg⟩ := argument_of_param (L.sound.params_nodup hmem) (ha.length hn) hi
  obtain ⟨w, hw, hname⟩ := List.mem_map.1 (hd n hmem _ (L.sound.mem_entries hmem hr) p hp)
  refine (App.mem_vars_mapVars r).2 ⟨w, hw, ?_⟩
  rw [harg w hname]
  exact hs

/-- **Where every record mentions all parameters, a match against a ground value constrains every
    parameter of the pattern.** -/
theorem Lawful.exists_constraint (hd : h.Determined) (hn : n ∈ h.nodes) {relation : Variance}
    {p v : Ty} {cs : List Constraint} (hm : h.Matched relation p v cs) (hp : h.Pattern n p)
    (hv : h.Ground v) (hs : s ∈ p.vars) : ∃ c ∈ cs, c.param = s.name := by
  induction hm with
  | param =>
      rw [Ty.vars_var, List.mem_singleton] at hs
      subst hs
      exact ⟨_, List.mem_cons_self, rfl⟩
  | anonymous hanon =>
      rw [L.not_anonymous hn hp] at hanon
      cases hanon
  | any =>
      obtain ⟨b, e⟩ := hv.app
      cases e
  | @app relation p v p' v' m found cs hmeets _ hcs ih =>
      have hp' := L.meets_pattern hmeets hp
      have hv' := L.meets_value hmeets hv
      rw [Ty.vars_app] at hs
      have hs' : s ∈ p'.vars :=
        hmeets.pattern_of (P := fun q => s ∈ q.vars) hs fun _ hr => L.vars_raise hd hp hr hs
      obtain ⟨x, hx, hs'⟩ := App.mem_vars.1 hs'
      obtain ⟨i, hi⟩ := List.mem_iff_getElem?.1 hx
      obtain ⟨hm', hhead⟩ := L.sound.meets_find hmeets
      have hlt : i < v'.args.length := by
        have hlp := hp'.length hm'
        have hlv := hv'.length (hhead ▸ hm')
        have := (List.getElem?_eq_some_iff.1 hi).1
        omega
      have hy := List.getElem?_eq_getElem hlt
      obtain ⟨c, hc, hname⟩ := ih i x _ hi hy (hp'.arg hi) (hv'.arg hy) hs'
      exact ⟨c, (hcs c).2 ⟨i, x, _, hi, hy, hc⟩, hname⟩

omit L in
/-- Distinct variables in an application are distinct variables in each argument, and different
    arguments share none. -/
theorem nodup_vars_iff : (a.vars.map Var.name).Nodup ↔
    (∀ x ∈ a.args, (x.vars.map Var.name).Nodup) ∧
      a.args.Pairwise fun x y => List.Disjoint (x.vars.map Var.name) (y.vars.map Var.name) := by
  rw [App.vars_eq_flatMap, List.map_flatMap, List.nodup_flatMap]

omit L in
theorem disjoint_vars (ha : (a.vars.map Var.name).Nodup) {i j : Nat} {x y : Ty} (hij : i ≠ j)
    (hx : a.args[i]? = some x) (hy : a.args[j]? = some y) :
    List.Disjoint (x.vars.map Var.name) (y.vars.map Var.name) := by
  have hpair := List.pairwise_iff_getElem.1 (nodup_vars_iff.1 ha).2
  obtain ⟨hi, rfl⟩ := List.getElem?_eq_some_iff.1 hx
  obtain ⟨hj, rfl⟩ := List.getElem?_eq_some_iff.1 hy
  rcases Nat.lt_or_gt_of_ne hij with hlt | hlt
  · exact hpair i j hi hj hlt
  · exact (hpair j i hj hi hlt).symm

/-- **Raising doubles no variable where no record mentions a parameter twice.** -/
theorem Lawful.nodup_raise (hl : h.Linear) (ha : h.Pattern m (.app a))
    (hnodup : (a.vars.map Var.name).Nodup) (e : h.raise a target = some b) :
    (b.vars.map Var.name).Nodup := by
  obtain ⟨n, r, hn, hr, rfl⟩ := raise_eq_some.1 e
  have hmem := find?_mem hn
  have hrnodup := List.pairwise_map.1 (hl n hmem _ (L.sound.mem_entries hmem hr))
  have hrpat := (L.pattern hmem hr).vars
  rw [Ty.vars_app] at hrpat
  -- a variable of the record stands for the argument at its index
  have harg {w : Var Ty} (hw : w ∈ r.vars) : ∃ i, n.paramIndex? w.name = some i ∧
      a.args[i]? = some (n.argument a.args w) := by
    obtain ⟨i, hi⟩ := Option.isSome_iff_exists.1 (hrpat w hw)
    have hlt : i < a.args.length := ha.length hn ▸ Node.paramIndex?_lt hi
    have hx := List.getElem?_eq_getElem hlt
    exact ⟨i, hi, by rw [hx, Node.argument_of_index hi hx]⟩
  rw [Node.substitute, App.vars_mapVars, List.map_flatMap, List.nodup_flatMap]
  refine ⟨fun w hw => ?_, ?_⟩
  · obtain ⟨i, -, hx⟩ := harg hw
    exact (nodup_vars_iff.1 hnodup).1 _ (List.mem_of_getElem? hx)
  · refine hrnodup.imp_of_mem fun {w w'} hw hw' hne => ?_
    obtain ⟨i, hi, hx⟩ := harg hw
    obtain ⟨j, hj, hy⟩ := harg hw'
    refine disjoint_vars hnodup ?_ hx hy
    rintro rfl
    obtain ⟨p, hp, hname⟩ := Node.paramIndex?_eq_some hi
    obtain ⟨p', hp', hname'⟩ := Node.paramIndex?_eq_some hj
    rw [hp] at hp'
    cases hp'
    exact hne (hname.symm.trans hname')

/-- The constraints are on variables of the pattern. -/
theorem Lawful.matched_params {relation : Variance} {p v : Ty} {cs : List Constraint}
    (hm : h.Matched relation p v cs) (hp : h.isNormal p = true) :
    ∀ c ∈ cs, c.param ∈ p.vars.map Var.name := by
  induction hm with
  | param =>
      intro c hc
      rw [List.mem_singleton] at hc
      subst hc
      rw [Ty.vars_var]
      exact List.mem_cons_self
  | anonymous => exact nofun
  | any => exact nofun
  | @app relation p v p' v' m found cs hmeets _ hcs ih =>
      intro c hc
      obtain ⟨i, x, y, hx, hy, hc⟩ := (hcs c).1 hc
      have hover : h.Over (· ∈ p.vars) (.app p) := ⟨hp, by rw [Ty.vars_app]; exact fun _ hv => hv⟩
      have hover' : h.Over (· ∈ p.vars) (.app p') :=
        hmeets.pattern_of (P := fun q => h.Over (· ∈ p.vars) (.app q)) hover
          fun _ hr => L.raise_over hover hr
      obtain ⟨w, hw, hname⟩ := List.mem_map.1 (ih i x y hx hy (hover'.arg hx).normal c hc)
      rw [Ty.vars_app]
      exact List.mem_map.2 ⟨w, (hover'.arg hx).vars w hw, hname⟩

omit L in
/-- Constraints gathered from positions that share no variable. -/
theorem gathered_unique {values : List Ty} {found : Nat → Ty → Ty → List Constraint}
    {cs : List Constraint} (ha : (a.vars.map Var.name).Nodup)
    (hcs : Gathered a.args values found cs)
    (hparam : ∀ (i : Nat) (x y : Ty), a.args[i]? = some x → values[i]? = some y →
      ∀ c ∈ found i x y, c.param ∈ x.vars.map Var.name)
    (hunique : ∀ (i : Nat) (x y : Ty), a.args[i]? = some x → values[i]? = some y →
      ∀ c ∈ found i x y, ∀ c' ∈ found i x y, c.param = c'.param → c = c') :
    ∀ c ∈ cs, ∀ c' ∈ cs, c.param = c'.param → c = c' := by
  intro c hc c' hc' hname
  obtain ⟨i, x, y, hx, hy, hc⟩ := (hcs c).1 hc
  obtain ⟨j, x', y', hx', hy', hc'⟩ := (hcs c').1 hc'
  by_cases hij : i = j
  · subst hij
    rw [hx] at hx'
    rw [hy] at hy'
    cases hx'
    cases hy'
    exact hunique i x y hx hy c hc c' hc' hname
  · have hmem := hparam i x y hx hy c hc
    have hmem' := hparam j x' y' hx' hy' c' hc'
    rw [← hname] at hmem'
    exact (disjoint_vars ha hij hx hx' hmem hmem').elim

theorem Lawful.matched_unique (hl : h.Linear) {relation : Variance} {p v : Ty}
    {cs : List Constraint} (hm : h.Matched relation p v cs) (hp : h.Pattern n p)
    (hnodup : (p.vars.map Var.name).Nodup) :
    ∀ c ∈ cs, ∀ c' ∈ cs, c.param = c'.param → c = c' := by
  induction hm with
  | param =>
      intro c hc c' hc' _
      rw [List.mem_singleton] at hc hc'
      rw [hc, hc']
  | anonymous => exact nofun
  | any => exact nofun
  | @app relation p v p' v' m found cs hmeets hargs hcs ih =>
      have hp' := L.meets_pattern hmeets hp
      rw [Ty.vars_app] at hnodup
      have hnodup' : (p'.vars.map Var.name).Nodup :=
        hmeets.pattern_of (P := fun q => (q.vars.map Var.name).Nodup) hnodup
          fun _ hr => L.nodup_raise hl hp hnodup hr
      refine gathered_unique hnodup' hcs (fun i x y hx hy => ?_) fun i x y hx hy => ?_
      · exact L.matched_params (hargs i x y hx hy) (hp'.arg hx).normal
      · exact ih i x y hx hy (hp'.arg hx)
          ((nodup_vars_iff.1 hnodup').1 x (List.mem_of_getElem? hx))

/-- **Where no record mentions a parameter twice, constraints do not mix.** -/
theorem Lawful.unmixed_of_linear (hl : h.Linear) : h.Unmixed := by
  intro rounds source target record values cs hs ht hr hv e c hc c' hc' hname _ _
  obtain ⟨found, hall, hcs⟩ := L.sound.matchedArgs_of_matchArgs e
  have hpat := L.pattern ht hr
  have hnodup := hl target ht _ (L.sound.mem_entries ht hr)
  have hunique := gathered_unique hnodup hcs
    (fun i x y hx hy => L.matched_params (hall i x y hx hy) (hpat.arg hx).normal)
    (fun i x y hx hy => L.matched_unique hl (hall i x y hx hy) (hpat.arg hx)
      ((nodup_vars_iff.1 hnodup).1 x (List.mem_of_getElem? hx)))
  rw [hunique c hc c' hc' hname]

end Mentioned

end Lineage.Hierarchy

import Lineage.Proofs.Absorption
import Lineage.Proofs.Contexts

/-!
# Lowering is adjoint to subtyping

A match gives the constraints under which a pattern stands in a relation to a value, and it loses
nothing: with arguments put in, the pattern stands in the relation exactly if the arguments satisfy
the constraints (`decided_put_iff`). A match that fails fails for all arguments.

Where a match constrains every parameter at most once, and in its declared relation, the values of
the constraints are the solution. Then there is at most one way to take an instance down to a type,
and the instances of the type that fulfill it are those that fulfill what was taken down.
-/

namespace Lineage

open Nearest

/-- Instances are merged position by position. -/
theorem Ty.mergeAll_isSome {as bs : List Ty} (hl : as.length = bs.length) :
    (Ty.mergeAll as bs).isSome = true ↔ ∀ (i : Nat) (x y : Ty), as[i]? = some x →
      bs[i]? = some y → (x.merge y).isSome = true := by
  induction as generalizing bs with
  | nil =>
      cases bs with
      | nil => simp [Ty.mergeAll]
      | cons b bs => cases hl
  | cons a as ih =>
      cases bs with
      | nil => cases hl
      | cons b bs =>
          have hboth : (Ty.mergeAll (a :: as) (b :: bs)).isSome = true ↔
              (a.merge b).isSome = true ∧ (Ty.mergeAll as bs).isSome = true := by
            rw [Ty.mergeAll]
            cases a.merge b <;> cases Ty.mergeAll as bs <;> simp
          rw [hboth, ih (Nat.succ.inj hl)]
          constructor
          · intro hall i x y hx hy
            cases i with
            | zero =>
                cases hx
                cases hy
                exact hall.1
            | succ i => exact hall.2 i x y hx hy
          · intro hall
            exact ⟨hall 0 a b rfl rfl, fun i => hall (i + 1)⟩

namespace Hierarchy

variable {h : Hierarchy} {tables : Tables}

/-! ## 1. Agreement, step by step -/

section Agreement

variable {v : Variance} {x y : Ty} {a b raised p q p' q' : App Ty} {n : Node}

theorem decided_merge_iff : h.Decided .invariant x y true ↔ (x.merge y).isSome = true := by
  constructor
  · intro hd
    obtain ⟨k, hk⟩ := hd
    exact Option.some_inj.1 hk
  · intro hm
    exact ⟨0, congrArg some hm⟩

/-- `_` agrees with everything, at every place. -/
theorem decided_anonymous_left (hy : h.Sketch y) : h.Decided v .anonymous y true := by
  refine ⟨1, ?_⟩
  cases v with
  | contravariant => rfl
  | invariant => rfl
  | covariant =>
      cases y with
      | app b => rfl
      | var w =>
          rw [hy.var]
          rfl

theorem decided_anonymous_right (hx : h.Sketch x) : h.Decided v x .anonymous true :=
  (decided_swap sketch_anonymous hx).2 (decided_anonymous_left hx)

/-- An application fulfills another one if the arguments agree where it is raised to. -/
theorem decided_raised_iff (hn : h.find? b.head = some n) (hr : h.raise a n.id = some raised) :
    h.Decided .covariant (.app a) (.app b) true ↔ ∀ (i : Nat) (x y : Ty),
      raised.args[i]? = some x → b.args[i]? = some y → h.Decided (n.variance i) x y true := by
  constructor
  · intro hd i x y hx hy
    obtain ⟨k, hk⟩ := hd
    cases k with
    | zero => cases hk
    | succ k =>
        obtain ⟨n', raised', hn', hr', hargs⟩ := fulfills_app_iff.1 hk
        rw [hn] at hn'
        cases hn'
        rw [hr] at hr'
        cases hr'
        exact ⟨k, hargs i x y hx hy⟩
  · intro hargs
    exact (eventually_fulfills_app hn hr fun i x y hx hy =>
      decided_iff_eventually.1 (hargs i x y hx hy)).exists

/-- **Where two applications meet, they agree position by position.** -/
theorem Sound.decided_meets_iff (S : Sound h) (hp : h.Sketch (.app p)) (hq : h.Sketch (.app q))
    (hm : h.Meets p q n v p' q') : h.Decided v (.app p) (.app q) true ↔
      ∀ (i : Nat) (x y : Ty), p'.args[i]? = some x → q'.args[i]? = some y →
        h.Decided (v.compose (n.variance i)) x y true := by
  cases hm with
  | raised hn hr =>
      simp only [Variance.compose_covariant]
      exact decided_raised_iff hn hr
  | lowered hn hr =>
      have hq' : h.Sketch (.app q') := searchClosed_sketch.raise S hq hr
      refine (decided_raised_iff hn hr).trans
        ⟨fun hall i x y hx hy => ?_, fun hall i y x hy hx => ?_⟩
      · exact (decided_swap (hp.arg hx) (hq'.arg hy)).1 (hall i y x hy hx)
      · exact (decided_swap (hp.arg hx) (hq'.arg hy)).2 (hall i x y hx hy)
  | level hn hhead =>
      obtain ⟨f, xs⟩ := p
      obtain ⟨g, ys⟩ := q
      obtain rfl : f = g := hhead
      rw [decided_merge_iff, Ty.merge, if_pos rfl, Option.isSome_map,
        Ty.mergeAll_isSome ((hp.length hn).trans (hq.length hn).symm)]
      exact forall₃_congr fun i x y => by rw [← decided_merge_iff]; rfl

/-- Applications that agree meet. -/
theorem exists_meets (hp : h.Sketch (.app p)) (hd : h.Decided v (.app p) (.app q) true) :
    ∃ n p' q', h.Meets p q n v p' q' := by
  cases v with
  | covariant =>
      obtain ⟨k, hk⟩ := hd
      cases k with
      | zero => cases hk
      | succ k =>
          obtain ⟨n, p', hn, hr, -⟩ := fulfills_app_iff.1 hk
          exact ⟨n, p', q, .raised hn hr⟩
  | contravariant =>
      obtain ⟨k, hk⟩ := hd
      cases k with
      | zero => cases hk
      | succ k =>
          obtain ⟨n, q', hn, hr, -⟩ := fulfills_app_iff.1 hk
          exact ⟨n, p, q', .lowered hn hr⟩
  | invariant =>
      obtain ⟨⟨n, hn, -⟩, -⟩ := over_app_iff.1 hp
      refine ⟨n, p, q, .level hn ?_⟩
      rw [decided_merge_iff, Ty.merge] at hd
      by_contra hne
      rw [if_neg hne] at hd
      cases hd

/-- A pattern meets the same values with arguments put in. -/
theorem meets_substitute_iff {m : Node} (hm : m.paramIndex? "" = none) {xs : List Ty} :
    h.Meets (m.substitute p xs) q n v p' q' ↔
      ∃ r, h.Meets p q n v r q' ∧ p' = m.substitute r xs := by
  constructor
  · intro hmeets
    cases hmeets with
    | raised hn hr =>
        rw [raise_substitute hm] at hr
        obtain ⟨r, hraise, rfl⟩ := Option.map_eq_some_iff.1 hr
        exact ⟨r, .raised hn hraise, rfl⟩
    | lowered hn hr => exact ⟨p, .lowered (by rwa [Node.head_substitute] at hn) hr, rfl⟩
    | level hn hhead =>
        rw [Node.head_substitute] at hn hhead
        exact ⟨p, .level hn hhead, rfl⟩
  · rintro ⟨r, hmeets, rfl⟩
    cases hmeets with
    | raised hn hr => exact .raised hn (by rw [raise_substitute hm, hr, Option.map_some])
    | lowered hn hr => exact .lowered (by rwa [Node.head_substitute]) hr
    | level hn hhead => exact .level (by rwa [Node.head_substitute]) (by rwa [Node.head_substitute])

end Agreement

/-! ## 2. What a match says -/

section Match

variable {v : Variance} {p q p' q' : App Ty} {n m : Node} {xs : List Ty} {found : Match}

/-- Arguments satisfy what a match has found: it did not fail, and they stand in the relations to
    the values. -/
def Satisfies (h : Hierarchy) (n : Node) (xs : List Ty) (found : Match) : Prop :=
  ∃ cs, found = some cs ∧
    ∀ c ∈ cs, h.Decided c.relation (n.argument xs (.free c.param)) c.value true

theorem satisfies_some {cs : List Constraint} : h.Satisfies n xs (some cs) ↔
    ∀ c ∈ cs, h.Decided c.relation (n.argument xs (.free c.param)) c.value true := by
  simp [Satisfies]

theorem not_satisfies_none : ¬ h.Satisfies n xs none := by
  simp [Satisfies]

/-- Several matches are satisfied if each one is. The matches after one that fails are not
    looked at, and they do not count. -/
theorem satisfies_matchAll {α : Type} {f : α → Option Match} {es : List α} {Q : α → Prop}
    (e : matchAll f es = some found)
    (hf : ∀ x ∈ es, ∀ r, f x = some r → (Q x ↔ h.Satisfies n xs r)) :
    (∀ x ∈ es, Q x) ↔ h.Satisfies n xs found := by
  induction es generalizing found with
  | nil =>
      cases e
      simp [satisfies_some]
  | cons x es ih =>
      rw [List.forall_mem_cons] at hf ⊢
      rw [matchAll] at e
      obtain ⟨r, hr, e⟩ := Option.bind_eq_some_iff.1 e
      rw [hf.1 r hr]
      cases r with
      | none =>
          cases e
          simp [not_satisfies_none]
      | some cs =>
          obtain ⟨rest, hrest, e⟩ := Option.bind_eq_some_iff.1 e
          rw [ih hrest hf.2]
          cases rest with
          | none =>
              cases e
              simp [not_satisfies_none]
          | some ds =>
              cases e
              show _ ↔ h.Satisfies n xs (some (cs ++ ds))
              simp only [satisfies_some, List.forall_mem_append]

theorem satisfies_matchArgs {rec : Variance → Ty → Ty → Option Match} {ps ys : List Ty}
    {Q : Nat → Ty → Ty → Prop} (e : matchArgs rec v m ps ys = some found)
    (hrec : ∀ (i : Nat) (x y : Ty), ps[i]? = some x → ys[i]? = some y →
      ∀ r, rec (v.compose (m.variance i)) x y = some r → (Q i x y ↔ h.Satisfies n xs r)) :
    (∀ (i : Nat) (x y : Ty), ps[i]? = some x → ys[i]? = some y → Q i x y) ↔
      h.Satisfies n xs found := by
  rw [← satisfies_matchAll (Q := fun e => Q e.2 e.1.1 e.1.2) e (forall_mem_zip_zipIdx.2 hrec)]
  exact (forall_mem_zip_zipIdx (P := fun e => Q e.2 e.1.1 e.1.2)).symm

/-- A match of applications that do not meet fails. -/
theorem matchApp_of_not_meets {rec : Variance → Ty → Ty → Option Match}
    (hm : ∀ n p' q', ¬ h.Meets p q n v p' q') : matchApp h rec v p q = some none := by
  cases v with
  | covariant =>
      cases hn : h.find? q.head with
      | none => simp [matchApp, hn]
      | some n =>
          cases hr : h.raise p n.id with
          | none => simp [matchApp, hn, hr]
          | some p' => exact absurd (.raised hn hr) (hm n p' q)
  | contravariant =>
      cases hn : h.find? p.head with
      | none => simp [matchApp, hn]
      | some n =>
          cases hr : h.raise q n.id with
          | none => simp [matchApp, hn, hr]
          | some q' => exact absurd (.lowered hn hr) (hm n p q')
  | invariant =>
      by_cases hhead : p.head = q.head
      · cases hn : h.find? p.head with
        | none => simp [matchApp, matchSame, hn]
        | some n => exact absurd (.level hn hhead) (hm n p q)
      · simp [matchApp, hhead]

/-- The positions of a pattern stay where arguments are put in. -/
theorem forall_args_substitute {ys : List Ty} {Q : Nat → Ty → Ty → Prop} :
    (∀ (i : Nat) (x y : Ty), (n.substitute p xs).args[i]? = some x → ys[i]? = some y → Q i x y) ↔
      ∀ (i : Nat) (x y : Ty), p.args[i]? = some x → ys[i]? = some y →
        Q i (x.mapVars (n.argument xs)) y := by
  simp only [Node.args_substitute, List.getElem?_map, Option.map_eq_some_iff]
  constructor
  · intro hall i x y hx
    exact hall i _ y ⟨x, hx, rfl⟩
  · rintro hall i _ y ⟨x, hx, rfl⟩
    exact hall i x y hx

variable (S : Sound h) (N : Named h) (hxs : ∀ x ∈ xs, h.Sketch x) (hn : n ∈ h.nodes)
include S N hxs hn

/-- One step of a match: what it says about two applications follows from what it says about their
    arguments, where they meet. -/
theorem decided_put_app {rec : Variance → Ty → Ty → Option Match} (hp : h.isNormal (.app p) = true)
    (hq : h.Sketch (.app q)) (e : matchApp h rec v p q = some found)
    (hrec : ∀ {w : Variance} {x y : Ty} {r : Match}, h.isNormal x = true → h.Sketch y →
      rec w x y = some r → (h.Decided w (x.mapVars (n.argument xs)) y true ↔
        h.Satisfies n xs r)) :
    h.Decided v (.app (n.substitute p xs)) (.app q) true ↔ h.Satisfies n xs found := by
  have hput : h.Sketch (.app (n.substitute p xs)) := by
    have := searchClosed_sketch.put (n := n) hxs hp
    rwa [Ty.mapVars_app] at this
  by_cases hex : ∃ m p' q', h.Meets p q m v p' q'
  · obtain ⟨m, p', q', hm⟩ := hex
    have hp' : h.isNormal (.app p') = true :=
      hm.pattern_of (P := fun r => h.isNormal (.app r) = true) hp fun _ => S.isNormal_raise hp
    have hq' : h.Sketch (.app q') :=
      hm.value_of (P := fun r => h.Sketch (.app r)) hq fun _ => searchClosed_sketch.raise S hq
    have hargs := (isNormalApp_iff.1 (isNormal_app.symm.trans hp')).2
    rw [S.matchApp_of_meets hm] at e
    rw [S.decided_meets_iff hput hq ((meets_substitute_iff (N n hn)).2 ⟨p', hm, rfl⟩),
      ← satisfies_matchArgs e fun i x y hx hy r hr =>
        hrec (hargs x (List.mem_of_getElem? hx)) (hq'.arg hy) hr]
    exact forall_args_substitute
  · have hnone : ∀ m p' q', ¬ h.Meets p q m v p' q' := fun m p' q' hm => hex ⟨m, p', q', hm⟩
    rw [matchApp_of_not_meets hnone] at e
    cases e
    refine iff_of_false (fun hd => hex ?_) not_satisfies_none
    obtain ⟨m, p', q', hm⟩ := exists_meets hput hd
    obtain ⟨r, hm, -⟩ := (meets_substitute_iff (N n hn)).1 hm
    exact ⟨m, r, q', hm⟩

/-- **A match says exactly when the pattern agrees with the value**: it does with the arguments that
    satisfy what was found. -/
theorem decided_put_iff {k : Nat} {x y : Ty} (hx : h.isNormal x = true) (hy : h.Sketch y)
    (e : constraints h k v x y = some found) :
    h.Decided v (x.mapVars (n.argument xs)) y true ↔ h.Satisfies n xs found := by
  induction k generalizing v x y found with
  | zero => cases e
  | succ k ih =>
      rw [constraints] at e
      cases x with
      | var s =>
          rw [matchWith] at e
          cases e
          rw [Ty.mapVars_var, satisfies_some]
          by_cases hs : s.isAnonymous = true
          · have hname : s.name = "" := by simpa [Var.isAnonymous] using hs
            have hnone : n.paramIndex? s.name = none := by rw [hname, N n hn]
            rw [if_pos hs, Node.argument_of_none hnone]
            exact iff_of_true (decided_anonymous_left hy) (List.forall_mem_nil _)
          · rw [if_neg hs, List.forall_mem_singleton]
            exact Iff.rfl
      | app p =>
          have hput := searchClosed_sketch.put (n := n) hxs hx
          cases y with
          | var s =>
              cases e
              rw [hy.var]
              exact iff_of_true (decided_anonymous_right hput)
                (satisfies_some.2 (List.forall_mem_nil _))
          | app q =>
              rw [Ty.mapVars_app]
              exact decided_put_app S N hxs hn hx hy e ih

end Match

/-! ## 3. One constraint for each parameter -/

/-- Every parameter is constrained at most once, and in its declared relation. -/
def ConstrainedOnce (n : Node) (cs : List Constraint) : Prop :=
  ∀ p ∈ n.params, (cs.filter (·.param = p.name)).length ≤ 1 ∧
    ∀ c ∈ cs, c.param = p.name → c.relation = p.variance

instance (n : Node) (cs : List Constraint) : Decidable (ConstrainedOnce n cs) :=
  inferInstanceAs (Decidable (∀ p ∈ n.params, (cs.filter (·.param = p.name)).length ≤ 1 ∧
    ∀ c ∈ cs, c.param = p.name → c.relation = p.variance))

/-- The value that a parameter is constrained by, and `_` if it is not. -/
def boundOf (cs : List Constraint) (p : Param) : Ty :=
  (cs.filter (·.param = p.name)).head?.elim .anonymous Constraint.value

section Once

variable {n : Node} {cs : List Constraint} {p : Param} {c : Constraint} {xs : List Ty}

theorem boundOf_of_filter (hf : cs.filter (·.param = p.name) = [c]) : boundOf cs p = c.value := by
  rw [boundOf, hf]
  rfl

/-- The constraints on a parameter are one or none. -/
theorem ConstrainedOnce.cases (ho : ConstrainedOnce n cs) (hp : p ∈ n.params) :
    (cs.filter (·.param = p.name) = [] ∧ boundOf cs p = .anonymous) ∨
      ∃ c ∈ cs, cs.filter (·.param = p.name) = [c] ∧ c.param = p.name ∧
        c.relation = p.variance ∧ boundOf cs p = c.value := by
  cases hf : cs.filter (·.param = p.name) with
  | nil =>
      refine Or.inl ⟨rfl, ?_⟩
      rw [boundOf, hf]
      rfl
  | cons c rest =>
      obtain ⟨hlength, hrel⟩ := ho p hp
      have hmem : c ∈ cs.filter (·.param = p.name) := by
        rw [hf]
        exact List.mem_cons_self
      have hone := eq_singleton_of_mem hlength hmem
      obtain ⟨hc, hname⟩ := List.mem_filter.1 hmem
      have hname : c.param = p.name := of_decide_eq_true hname
      exact Or.inr ⟨c, hc, hf.symm.trans hone, hname, hrel c hc hname, boundOf_of_filter hone⟩

variable (tables) in
/-- The values of the constraints are what is solved for. -/
theorem ConstrainedOnce.eventually_solutions (ho : ConstrainedOnce n cs)
    (hv : ∀ c ∈ cs, h.Sketch c.value) (hp : p ∈ n.params) : ∀ᶠ m in Filter.atTop,
      solutions (answers h tables m) (cs.filter (·.param = p.name)) = some [boundOf cs p] := by
  rcases ho.cases hp with ⟨hf, hb⟩ | ⟨c, hc, hf, -, -, hb⟩
  · rw [hf, hb]
    exact Filter.Eventually.of_forall fun m => rfl
  · rw [hf, hb]
    exact solutions_single (hv c hc) c.param c.relation

/-- Arguments satisfy the constraints if each agrees with the value for its parameter, at the
    variance of the parameter. Constraints on other names are satisfied by `_`. -/
theorem ConstrainedOnce.satisfies_iff (ho : ConstrainedOnce n cs)
    (hv : ∀ c ∈ cs, h.Sketch c.value) (hxs : ∀ x ∈ xs, h.Sketch x) :
    h.Satisfies n xs (some cs) ↔ ∀ p ∈ n.params,
      h.Decided p.variance (n.argument xs (.free p.name)) (boundOf cs p) true := by
  rw [satisfies_some]
  constructor
  · intro hall p hp
    rcases ho.cases hp with ⟨-, hb⟩ | ⟨c, hc, -, hname, hrel, hb⟩
    · rw [hb]
      refine decided_anonymous_right ?_
      rcases Node.argument_eq_or_mem n xs (.free p.name) with e | hmem
      · rw [e]
        exact sketch_anonymous
      · exact hxs _ hmem
    · rw [hb, ← hname, ← hrel]
      exact hall c hc
  · intro hall c hc
    by_cases hparam : ∃ p ∈ n.params, p.name = c.param
    · obtain ⟨p, hp, hname⟩ := hparam
      obtain ⟨hlength, hrel⟩ := ho p hp
      have hmem : c ∈ cs.filter (·.param = p.name) :=
        List.mem_filter.2 ⟨hc, decide_eq_true hname.symm⟩
      have hd := hall p hp
      rwa [boundOf_of_filter (eq_singleton_of_mem hlength hmem), hname,
        ← hrel c hc hname.symm] at hd
    · have hnone : n.paramIndex? c.param = none := by
        rw [← Option.not_isSome_iff_eq_none, Node.paramIndex?_isSome_iff, List.mem_map]
        exact hparam
      rw [Node.argument_of_none hnone]
      exact decided_anonymous_left (hv c hc)

end Once

/-! ## 4. Taking an instance down -/

section Lowering

variable {v c : App Ty} {source target : Node} {record : App Ty} {cs : List Constraint}
  {found : Match} {k : Nat}

theorem exists_appFulfills_iff {a b : App Ty} : (∃ r, h.appFulfills r a b = some true) ↔
    h.Decided .covariant (.app a) (.app b) true := by
  constructor
  · intro hr
    obtain ⟨r, hr⟩ := hr
    exact ⟨r + 1, hr⟩
  · intro hd
    obtain ⟨k, hk⟩ := hd
    cases k with
    | zero => cases hk
    | succ k => exact ⟨k, hk⟩

/-- An instance of a type fulfills what was taken down if its arguments satisfy the constraints. -/
theorem ConstrainedOnce.decided_lowered_iff (S : Sound h) (ho : ConstrainedOnce target cs)
    (hv : ∀ c ∈ cs, h.Sketch c.value) (hc : h.Sketch (.app c)) (ht : h.find? c.head = some target) :
    h.Decided .covariant (.app c) (.app ⟨target.name, target.params.map (boundOf cs)⟩) true ↔
      h.Satisfies target c.args (some cs) := by
  have hmem := find?_mem ht
  have hnodup := S.params_nodup hmem
  have hl := hc.length ht
  rw [decided_raised_iff (S.find_of_mem hmem) (S.raise_self ht hl),
    ho.satisfies_iff hv (over_app_iff.1 hc).2]
  constructor
  · intro hall p hp
    obtain ⟨i, x, hi, hx, harg, hvar⟩ := exists_argument hnodup hl hp
    rw [harg, ← hvar]
    refine hall i x _ hx ?_
    rw [List.getElem?_map, hi]
    rfl
  · intro hall i x y hx hy
    rw [List.getElem?_map] at hy
    obtain ⟨p, hp, rfl⟩ := Option.map_eq_some_iff.1 hy
    obtain ⟨harg, hvar⟩ := argument_at hnodup hp hx
    have hd := hall p (List.mem_of_getElem? hp)
    rwa [harg, ← hvar] at hd

variable (hs : h.find? v.head = some source)
  (hr : target.ancestors.get? source.id = some record)
include hs hr

/-- An instance of a type fulfills another one if its arguments satisfy the match of the record. -/
theorem decided_record_iff (S : Sound h) (N : Named h) (hv : h.Sketch (.app v))
    (hc : h.Sketch (.app c)) (ht : h.find? c.head = some target)
    (hm : matchArgs (constraints h k) .covariant source record.args v.args = some found) :
    h.Decided .covariant (.app c) (.app v) true ↔ h.Satisfies target c.args found := by
  have hmem := find?_mem ht
  have hnormal := (isNormalApp_iff.1 (isNormal_app.symm.trans (S.isNormal_record hmem hr))).2
  rw [decided_raised_iff hs (raise_of_record ht hr), ← satisfies_matchArgs hm fun i x y hx hy r e =>
    decided_put_iff S N (over_app_iff.1 hc).2 hmem (hnormal x (List.mem_of_getElem? hx))
      (hv.arg hy) e]
  simp only [Variance.compose_covariant]
  exact forall_args_substitute

/-- What cannot be matched cannot be taken down. -/
theorem lowerings_of_none {q : Answers}
    (hm : matchArgs q.constraints .covariant source record.args v.args = some none) :
    lowerings h q v target = some [] := by
  simp only [lowerings, hs, hr, hm]
  rfl

variable (tables) in
/-- There is one way to take an instance down if every parameter is constrained once. -/
theorem ConstrainedOnce.eventually_lowerings (ho : ConstrainedOnce target cs)
    (hv : ∀ c ∈ cs, h.Sketch c.value)
    (hm : matchArgs (constraints h k) .covariant source record.args v.args = some (some cs)) :
    ∀ᶠ m in Filter.atTop, lowerings h (answers h tables m) v target =
      some [⟨target.name, target.params.map (boundOf cs)⟩] := by
  filter_upwards [eventually_forall_mem fun p hp => ho.eventually_solutions tables hv hp,
    Filter.eventually_ge_atTop k] with m hsol hk
  exact lowerings_single hs hr (matchArgs_keeps (constraints_keeps h hk) _ _ _ _ hm) hsol

end Lowering

/-- **Lowering is adjoint to subtyping where every parameter is constrained once.** Take a ground
    instance `v` and a type with a record of its type. If the match of the record against `v` comes
    to an end, and fails or constrains every parameter at most once and in its declared relation,
    then the search for the instances of the type below `v` comes to an end with at most one result,
    and the ground instances of the type that fulfill `v` are those that fulfill the result. The
    tables do not matter. -/
theorem appFulfills_iff_lowering (hr : Reachable h) (hn : Named h) (tables : Tables) {v : App Ty}
    (hv : h.isGround (.app v) = true) {source target : Node} {record : App Ty}
    (hs : h.find? v.head = some source) (ht : target ∈ h.nodes)
    (hrec : target.ancestors.get? source.id = some record) {k : Nat} {found : Match}
    (hm : matchArgs (constraints h k) .covariant source record.args v.args = some found)
    (ho : ∀ cs, found = some cs → ConstrainedOnce target cs) :
    ∃ lowered, (∃ k, ∀ m ≥ k, lowerings h (answers h tables m) v target = some lowered) ∧
      lowered.length ≤ 1 ∧ ∀ c : App Ty, h.isGround (.app c) = true → c.head = target.name →
        ((∃ r, h.appFulfills r c v = some true) ↔
          ∃ p ∈ lowered, ∃ r, h.appFulfills r c p = some true) := by
  have S := sound_of_reachable hr
  have hsv : h.Sketch (.app v) := (isGround_iff.1 hv).toOver
  have hiff (c : App Ty) (hc : h.isGround (.app c) = true) (hhead : c.head = target.name) :
      (∃ r, h.appFulfills r c v = some true) ↔ h.Satisfies target c.args found := by
    rw [exists_appFulfills_iff]
    exact decided_record_iff hs hrec S hn hsv (isGround_iff.1 hc).toOver
      (hhead ▸ S.find_of_mem ht) hm
  cases found with
  | none =>
      refine ⟨[], ⟨k, fun m hk => ?_⟩, Nat.zero_le 1, fun c hc hhead => ?_⟩
      · exact lowerings_of_none hs hrec (matchArgs_keeps (constraints_keeps h hk) _ _ _ _ hm)
      · rw [hiff c hc hhead]
        simp [not_satisfies_none]
  | some cs =>
      have hvalues : ∀ c ∈ cs, h.Sketch c.value :=
        (searchClosed_sketch.raiseClosed S).matchedArgs_values (S.matchedArgs_of_matchArgs hm)
          (over_app_iff.1 hsv).2
      refine ⟨[⟨target.name, target.params.map (boundOf cs)⟩], Filter.eventually_atTop.1
        ((ho cs rfl).eventually_lowerings tables hs hrec hvalues hm), le_refl 1,
        fun c hc hhead => ?_⟩
      simp only [hiff c hc hhead, List.mem_singleton, exists_eq_left, exists_appFulfills_iff]
      exact ((ho cs rfl).decided_lowered_iff S hvalues (isGround_iff.1 hc).toOver
        (hhead ▸ S.find_of_mem ht)).symm

/-- Dispatchers handle handlers of events that reply. What they are tagged with does not show. -/
def dispatchers : Hierarchy := [
  .declare "event" [],
  .declare "click" [],
  .declare "reply" [⟨"t", .covariant⟩],
  .declare "handler" [⟨"e", .contravariant⟩, ⟨"r", .covariant⟩],
  .declare "router" [⟨"y", .covariant⟩, ⟨"x", .contravariant⟩],
  .declare "dispatcher" [⟨"tag", .invariant⟩, ⟨"e", .covariant⟩],
  .addParent "click" (bareType "event"),
  .addParent "router" (.app ⟨"handler",
    [.var (.free "x"), .app ⟨"reply", [.var (.free "y")]⟩]⟩),
  .addParent "dispatcher" (.app ⟨"handler",
    [.app ⟨"handler", [.var (.free "e"), .app ⟨"reply", [bareType "event"]⟩]⟩,
      .app ⟨"reply", [bareType "event"]⟩]⟩),
  .finalize].foldl perform empty

/-- A handler of routers of clicks. -/
def routerHandler : App Ty :=
  ⟨"handler", [.app ⟨"router", [bareType "click", bareType "click"]⟩,
    .app ⟨"reply", [bareType "event"]⟩]⟩

/-- A handler of replies. -/
def replyHandler : App Ty :=
  ⟨"handler", [.app ⟨"reply", [bareType "event"]⟩, .app ⟨"reply", [bareType "event"]⟩]⟩

/-- The match goes through a router in a contravariant position, which is raised to a handler. So
    the dispatchers that handle routers of clicks are those of clicks, with any tag, and none handle
    replies. -/
theorem dispatchers_lowered : Named dispatchers ∧
    (∀ c : App Ty, dispatchers.isGround (.app c) = true → c.head = "dispatcher" →
      ((∃ r, dispatchers.appFulfills r c routerHandler = some true) ↔
        ∃ r, dispatchers.appFulfills r c ⟨"dispatcher", [.anonymous, bareType "click"]⟩ =
          some true)) ∧
    ∀ c : App Ty, dispatchers.isGround (.app c) = true → c.head = "dispatcher" →
      ¬ ∃ r, dispatchers.appFulfills r c replyHandler = some true := by
  have hr : Reachable dispatchers := ⟨_, rfl⟩
  have hn : Named dispatchers := by decide
  obtain ⟨tables, target, source, record, cs, ht, hs, hname, hrec, hrouter, honce, hreply, hone,
      hnone⟩ : ∃ tables target source record cs,
      dispatchers.find? "dispatcher" = some target ∧ dispatchers.find? "handler" = some source ∧
      target.name = "dispatcher" ∧ target.ancestors.get? source.id = some record ∧
      matchArgs (constraints dispatchers 9) .covariant source record.args routerHandler.args =
        some (some cs) ∧ ConstrainedOnce target cs ∧
      matchArgs (constraints dispatchers 9) .covariant source record.args replyHandler.args =
        some none ∧
      lowerings dispatchers (answers dispatchers tables 9) routerHandler target =
        some [⟨"dispatcher", [.anonymous, bareType "click"]⟩] ∧
      lowerings dispatchers (answers dispatchers tables 9) replyHandler target = some [] :=
    ⟨Tables.build dispatchers.nodes, _, _, _, _, rfl, rfl, rfl, rfl, rfl, by decide, rfl, rfl, rfl⟩
  -- what was found in nine rounds is what is found in the end
  have hsame {v : App Ty} {lowered found : List (App Ty)} {k : Nat}
      (hk : ∀ m ≥ k, lowerings dispatchers (answers dispatchers tables m) v target = some lowered)
      (hf : lowerings dispatchers (answers dispatchers tables 9) v target = some found) :
      lowered = found := by
    have hlater := lowerings_keeps (answers_kept dispatchers tables (Nat.le_max_right k 9))
      v target hf
    rw [hk _ (Nat.le_max_left k 9)] at hlater
    exact Option.some_inj.1 hlater
  refine ⟨hn, fun c hc hhead => ?_, fun c hc hhead => ?_⟩
  · obtain ⟨lowered, ⟨k, hk⟩, -, hiff⟩ := appFulfills_iff_lowering hr hn tables
      (v := routerHandler) rfl hs (find?_mem ht) hrec hrouter
      fun ds hds => Option.some_inj.1 hds ▸ honce
    rw [hsame hk hone] at hiff
    simpa using hiff c hc (hhead.trans hname.symm)
  · obtain ⟨lowered, ⟨k, hk⟩, -, hiff⟩ := appFulfills_iff_lowering hr hn tables
      (v := replyHandler) rfl hs (find?_mem ht) hrec hreply nofun
    rw [hsame hk hnone] at hiff
    simpa using hiff c hc (hhead.trans hname.symm)

end Hierarchy

end Lineage

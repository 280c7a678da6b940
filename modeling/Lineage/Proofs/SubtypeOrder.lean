import Lineage.Proofs.Alike
import Lineage.Proofs.Pair
import Lineage.Proofs.Validity

/-!
# Subtyping is reflexive and antisymmetric

An instance that fits fulfills itself if no variable in it has two bounds on one side
(`eventually_fulfills_self`). Between two lower bounds of a variable nothing is required, and each
of them would have to fulfill the other one. Ground instances that fulfill each other are equal
(`eq_of_fulfills`): their types are ancestors of each other, and at every position the arguments
fulfill each other, at contravariant positions with the two questions exchanged.

Nothing is asked of the hierarchy but that it is reachable.
-/

namespace Lineage

/-! ## 1. Variables with at most one bound on each side -/

mutual
/-- Whether every variable in an instance, also inside bounds, has at most one lower and one upper
    bound. -/
def Ty.singlyBounded : Ty → Bool
  | .app a => a.singlyBounded
  | .var ⟨_, lower, upper⟩ =>
      decide (lower.length ≤ 1) && decide (upper.length ≤ 1) && App.allSinglyBounded lower &&
        App.allSinglyBounded upper
/-- `Ty.singlyBounded` on the arguments of an application. -/
def App.singlyBounded : App Ty → Bool
  | ⟨_, args⟩ => Ty.allSinglyBounded args
/-- `Ty.singlyBounded` on every instance of a list. -/
def Ty.allSinglyBounded : List Ty → Bool
  | [] => true
  | t :: ts => t.singlyBounded && Ty.allSinglyBounded ts
/-- `App.singlyBounded` on every application of a list. -/
def App.allSinglyBounded : List (App Ty) → Bool
  | [] => true
  | a :: as => a.singlyBounded && App.allSinglyBounded as
end

theorem Ty.allSinglyBounded_iff {ts : List Ty} :
    Ty.allSinglyBounded ts = true ↔ ∀ t ∈ ts, t.singlyBounded = true := by
  induction ts with
  | nil => simp [Ty.allSinglyBounded]
  | cons t ts ih => simp [Ty.allSinglyBounded, ih]

theorem App.allSinglyBounded_iff {as : List (App Ty)} :
    App.allSinglyBounded as = true ↔ ∀ a ∈ as, a.singlyBounded = true := by
  induction as with
  | nil => simp [App.allSinglyBounded]
  | cons a as ih => simp [App.allSinglyBounded, ih]

theorem App.singlyBounded_iff {a : App Ty} :
    a.singlyBounded = true ↔ ∀ t ∈ a.args, t.singlyBounded = true := by
  obtain ⟨head, args⟩ := a
  rw [App.singlyBounded, Ty.allSinglyBounded_iff]

theorem Ty.singlyBounded_var_iff {v : Var Ty} : (Ty.var v).singlyBounded = true ↔
    v.lower.length ≤ 1 ∧ v.upper.length ≤ 1 ∧ (∀ a ∈ v.lower, a.singlyBounded = true) ∧
      ∀ a ∈ v.upper, a.singlyBounded = true := by
  obtain ⟨name, lower, upper⟩ := v
  simp only [Ty.singlyBounded, Bool.and_eq_true, decide_eq_true_eq, App.allSinglyBounded_iff,
    and_assoc]

namespace Hierarchy

variable {h : Hierarchy}

/-- **Writing out abbreviations adds no bounds.** -/
theorem spelling_singlyBounded :
    Spelling h fun t t' => t.singlyBounded = true → t'.singlyBounded = true where
  short := fun _ _ => by
    rw [Ty.singlyBounded, App.singlyBounded_iff]
    intro t ht
    rw [List.eq_of_mem_replicate ht]
    rfl
  full := fun _ _ hargs ha => by
    rw [Ty.singlyBounded, App.singlyBounded_iff] at ha ⊢
    exact forall_mem_of_forall₂ hargs ha
  var := fun hl hu hv => by
    obtain ⟨hlen, hlen', hlower, hupper⟩ := Ty.singlyBounded_var_iff.1 hv
    simp only [Ty.singlyBounded] at hl hu
    exact Ty.singlyBounded_var_iff.2 ⟨hl.length_eq ▸ hlen, hu.length_eq ▸ hlen',
      forall_mem_of_forall₂ hl hlower, forall_mem_of_forall₂ hu hupper⟩

/-! ## 2. Reflexivity -/

/-- What lies between the bounds of a variable. -/
theorem betweenBounds_eq_true {rec : Ty → Ty → Option Bool} {t : Ty} {v : Var Ty} :
    betweenBounds rec t v = some true ↔ (∀ l ∈ v.lower, rec (.app l) t = some true) ∧
      ∀ u ∈ v.upper, rec t (.app u) = some true := by
  rw [betweenBounds]
  constructor
  · intro e
    obtain ⟨passes, hl, e⟩ := Option.bind_eq_some_iff.1 e
    cases passes with
    | false => cases e
    | true => exact ⟨allM_eq_true.1 hl, allM_eq_true.1 e⟩
  · rintro ⟨hl, hu⟩
    rw [allM_eq_true.2 hl]
    exact allM_eq_true.2 hu

/-- A variable fulfills its only upper bound if its lower bounds do. -/
theorem varFulfillsWith_upper (S : Sound h) {rec : Ty → Ty → Option Bool} {v : Var Ty} {u : App Ty}
    {n : Node} (hn : h.find? u.head = some n) (hu : v.upper = [u])
    (hl : ∀ l ∈ v.lower, h.appFulfillsWith rec l u = some true) :
    h.varFulfillsWith rec v u = some true := by
  have hself : n.id ∈ n.descendants := by
    have hi := S.node_of_find hn
    exact (exists_node_iff hi).1 (S.ancestor_descendant.1 (S.hasAncestor_refl hi))
  have hshare : h.shareDescendant (v.upper ++ [u]) = true := by
    rw [hu]
    exact (Alike.shareDescendant_iff h).2
      ⟨n, [n], n.id, .cons hn (.cons hn .nil), by simpa using hself⟩
  have hbounded : v.isBounded = true := by simp [Var.isBounded, hu]
  rw [varFulfillsWith, if_pos hbounded, allM_eq_true.2 hl, hshare, Bool.or_true]
  rfl

section Reflexivity

variable (S : Sound h)
include S

/-- A variable fulfills itself if its lower bound fulfills itself and its upper bound. -/
theorem eventually_fulfills_var_self {v : Var Ty} (hlower : v.lower.length ≤ 1)
    (hupper : v.upper.length ≤ 1) (hnode : ∀ u ∈ v.upper, ∃ n, h.find? u.head = some n)
    (hself : ∀ l ∈ v.lower, ∀ᶠ m in Filter.atTop, h.fulfills m (.app l) (.app l) = some true)
    (hrange : ∀ l ∈ v.lower, ∀ u ∈ v.upper, ∀ᶠ m in Filter.atTop,
      h.appFulfills m l u = some true) :
    ∀ᶠ m in Filter.atTop, h.fulfills m (.var v) (.var v) = some true := by
  refine eventually_of_succ (eventually_of_succ (eventually_of_succ ?_))
  filter_upwards [eventually_forall_mem hself,
    eventually_forall_mem fun l hl => eventually_forall_mem (hrange l hl)] with m hm hrange
  refine betweenBounds_eq_true.2 ⟨fun l hl => ?_, fun u hu => ?_⟩
  · -- the lower bound is between the bounds
    refine betweenBounds_eq_true.2 ⟨fun l' hl' => ?_, fun u hu => hrange l hl u hu⟩
    rw [eq_singleton_of_mem hlower hl, List.mem_singleton] at hl'
    rw [hl']
    exact h.fulfills_keeps (Nat.le_succ m) _ _ (hm l hl)
  · obtain ⟨n, hn⟩ := hnode u hu
    refine varFulfillsWith_upper S hn (eq_singleton_of_mem hupper hu) fun l hl => ?_
    exact h.appFulfillsWith_keeps (h.fulfills_keeps (Nat.le_succ m)) l u (hrange l hl u hu)

/-- **A valid instance fulfills itself from some round on**, if its variables have at most one bound
    on each side. -/
theorem eventually_fulfills_self {t : Ty} (ht : h.Valid t) (hb : t.singlyBounded = true) :
    ∀ᶠ m in Filter.atTop, h.fulfills m t t = some true := by
  induction ht with
  | @app a n hn hl _ ih =>
      rw [Ty.singlyBounded, App.singlyBounded_iff] at hb
      exact eventually_fulfills_app_self S hn hl fun t hmem => ih t hmem (hb t hmem)
  | @var v hl hu hrange ihl _ =>
      obtain ⟨hlower, hupper, hbl, -⟩ := Ty.singlyBounded_var_iff.1 hb
      refine eventually_fulfills_var_self S hlower hupper (fun u hmem => ?_) (fun l hmem => ?_)
        fun l hmem u hmem' => ?_
      · obtain ⟨⟨n, hn, -⟩, -⟩ := valid_app_iff.1 (hu u hmem)
        exact ⟨n, hn⟩
      · refine ihl l hmem ?_
        rw [Ty.singlyBounded]
        exact hbl l hmem
      · obtain ⟨k, hk⟩ := hrange l hmem u hmem'
        exact Filter.eventually_atTop.2
          ⟨k, fun m hm => h.appFulfillsWith_keeps (h.fulfills_keeps hm) l u hk⟩

/-! ## 3. Antisymmetry -/

/-- Instances that fulfill each other are instances of one type. -/
theorem head_eq_of_fulfills {a b : App Ty} {k l : Nat}
    (hab : h.fulfills (k + 1) (.app a) (.app b) = some true)
    (hba : h.fulfills (l + 1) (.app b) (.app a) = some true) : a.head = b.head := by
  obtain ⟨n, a', hn, ha', -⟩ := fulfills_app_iff.1 hab
  obtain ⟨m, b', hm, hb', -⟩ := fulfills_app_iff.1 hba
  have hup : h.HasAncestor m.id n.id := (S.exists_raise_iff hm).1 ⟨a', ha'⟩
  have hdown : h.HasAncestor n.id m.id := (S.exists_raise_iff hn).1 ⟨b', hb'⟩
  have hid : m.id = n.id := S.acyclic hup hdown
  have hnode := S.node_of_find hm
  rw [hid, S.node_of_find hn] at hnode
  cases hnode
  rw [← find?_name hn, find?_name hm]

/-- The arguments of instances of one type agree if the instances fulfill each other. -/
theorem agreeAt_of_fulfills {f : String} {xs ys : List Ty} {n : Node} {k : Nat}
    (hn : h.find? f = some n) (hl : xs.length = n.arity)
    (e : h.fulfills (k + 1) (.app ⟨f, xs⟩) (.app ⟨f, ys⟩) = some true) {i : Nat} {x y : Ty}
    (hx : xs[i]? = some x) (hy : ys[i]? = some y) :
    agreeAt (h.fulfills k) (n.variance i) x y = some true := by
  obtain ⟨n', raised, hn', hr, hargs⟩ := fulfills_app_iff.1 e
  rw [hn] at hn'
  cases hn'
  rw [S.raise_self (a := ⟨f, xs⟩) hn hl] at hr
  cases hr
  exact hargs i x y hx hy

/-- **Ground instances that fulfill each other are equal.** The induction is on the first one; a
    contravariant position exchanges the two questions. -/
theorem eq_of_fulfills {a b : Ty} (ha : h.Ground a) (hb : h.Ground b) {k l : Nat}
    (hab : h.fulfills k a b = some true) (hba : h.fulfills l b a = some true) : a = b := by
  induction a using Ty.induct generalizing b k l with
  | var name lower upper =>
      obtain ⟨a, e⟩ := ha.app
      cases e
  | app f xs ih =>
      obtain ⟨⟨g, ys⟩, rfl⟩ := hb.app
      cases k with
      | zero => cases hab
      | succ k =>
          cases l with
          | zero => cases hba
          | succ l =>
              obtain rfl : f = g := head_eq_of_fulfills S hab hba
              obtain ⟨⟨n, hn, hlx⟩, hxs⟩ := over_app_iff.1 ha
              have hly : ys.length = n.arity := hb.length hn
              have hargs : xs = ys := by
                refine List.ext_getElem (hlx.trans hly.symm) fun i hi hj => ?_
                have hx := List.getElem?_eq_getElem hi
                have hy := List.getElem?_eq_getElem hj
                have hmem := List.getElem_mem hi
                have hgx := hxs _ hmem
                have hgy := hb.arg hy
                have hxy := agreeAt_of_fulfills S hn hlx hab hx hy
                have hyx := agreeAt_of_fulfills S hn hly hba hy hx
                cases hv : n.variance i with
                | covariant =>
                    rw [hv] at hxy hyx
                    exact ih _ hmem hgx hgy hxy hyx
                | contravariant =>
                    rw [hv] at hxy hyx
                    exact ih _ hmem hgx hgy hyx hxy
                | invariant =>
                    rw [hv, agreeAt_invariant_ground hgx hgy, Option.some_inj] at hxy
                    exact of_decide_eq_true hxy
              rw [hargs]

end Reflexivity

/-! ## 4. Questions -/

/-- What two instances answer is decided by their normal forms. -/
theorem eventually_typeFulfills {x y x' y' : Ty} {answer : Bool} (hx : h.normalize x = .ok x')
    (hy : h.normalize y = .ok y') (hvx : h.Valid x') (hvy : h.Valid y')
    (e : ∀ᶠ m in Filter.atTop, h.fulfills m x' y' = some answer) :
    ∀ᶠ m in Filter.atTop, h.typeFulfills m x y = some answer := by
  filter_upwards [eventually_validate hx hvx, eventually_validate hy hvy, e] with m hx hy e
  rw [typeFulfills, hx, hy]
  exact e

/-- **Subtyping is reflexive and antisymmetric.** Every instance that fits and in which no variable,
    nested ones and those in bounds included, has two bounds on one side fulfills itself from some
    number of rounds on; and ground instances that fulfill each other are equal. -/
theorem typeFulfills_refl_antisymm (hr : Reachable h) :
    (∀ (t : Ty) (k : Nat), h.isCompatible k t = some true → t.singlyBounded = true →
      ∃ k, ∀ m ≥ k, h.typeFulfills m t t = some true) ∧
    ∀ (a b : Ty) (k l : Nat), h.isGround a = true → h.isGround b = true →
      h.typeFulfills k a b = some true → h.typeFulfills l b a = some true → a = b := by
  have S := sound_of_reachable hr
  constructor
  · intro t k hk hb
    obtain ⟨t', hn, hv⟩ := exists_valid_of_isCompatible hk
    have hself := eventually_fulfills_self S hv (spelling_singlyBounded.normalize hn hb)
    exact Filter.eventually_atTop.1 (eventually_typeFulfills hn hn hv hv hself)
  · intro a b k l ha hb hab hba
    have ga := isGround_iff.1 ha
    have gb := isGround_iff.1 hb
    rw [typeFulfills_of_sketch ga.toOver gb.toOver] at hab
    rw [typeFulfills_of_sketch gb.toOver ga.toOver] at hba
    exact eq_of_fulfills S ga gb hab hba

/-- A source of something between cells of `int` and sources of something below `number`. -/
def rangedSource : Ty :=
  .app ⟨"source", [.var ⟨"a", [⟨"cell", [bareType "int", bareType "int"]⟩],
    [⟨"source", [.var ⟨"b", [], [⟨"number", []⟩]⟩]⟩]⟩]⟩

/-- A source of sinks of cells of `int`, labelled `number`. -/
def cellSinks : Ty :=
  .app ⟨"source", [.app ⟨"sink", [.app ⟨"cell", [bareType "int", bareType "number"]⟩]⟩]⟩

/-- A nested variable with a bound on each side, one of them bounded by another variable, fulfills
    itself. Sinks of cells fulfill themselves, and no other ground instance stands for the same
    type. A source of `int` is one of `number`, so that sources of `number` are not among those of
    `int`, in any number of rounds. -/
theorem channels_order :
    (∃ k, ∀ m ≥ k, channels.typeFulfills m rangedSource rangedSource = some true) ∧
    (channels.isGround cellSinks = true ∧ channels.typeFulfills 9 cellSinks cellSinks = some true ∧
      ∀ t, channels.isGround t = true → channels.typeFulfills 9 t cellSinks = some true →
        channels.typeFulfills 9 cellSinks t = some true → t = cellSinks) ∧
    ∀ l, channels.typeFulfills l (.app ⟨"source", [bareType "number"]⟩)
      (.app ⟨"source", [bareType "int"]⟩) ≠ some true := by
  obtain ⟨hrefl, hanti⟩ := typeFulfills_refl_antisymm (h := channels) ⟨_, rfl⟩
  refine ⟨hrefl rangedSource 9 rfl rfl, ⟨rfl, rfl, fun t ht hto hfrom => ?_⟩, fun l hl => ?_⟩
  · exact hanti t cellSinks 9 9 ht rfl hto hfrom
  · have e := hanti _ _ l 9 rfl rfl hl rfl
    revert e
    decide

end Hierarchy

end Lineage

import Lineage.Proofs.Closure
import Lineage.Proofs.CommonBound
import Lineage.Proofs.Rounds

/-!
# Two operands

The question for the nearest common relatives of two instances, taken apart: what is combined
(`common_pair`), what comes out for the position of a parameter (`Outcome`), and what is dropped
because something else is nearer.

* `exists_mem_distinct`, `apart_distinct`: what comes up again is dropped, and nothing else is.
* `Outcome.unique`, `combineAt_of_outcome`: what comes out for a position does not depend on the
  rounds, and it is there from some round on.
* `not_strictly_of_kept`: of two results of one question, neither is strictly nearer than the other.
* `fulfills_refl`: an instance fulfills itself from some round on, with `_` in it or not.
-/

namespace Lineage

open Nearest

/-! ## 1. Lists -/

section Lists

variable {α β : Type}

/-- A list of at most one member is a list of the member. -/
theorem eq_singleton_of_mem {xs : List α} {x : α} (hl : xs.length ≤ 1) (hx : x ∈ xs) :
    xs = [x] := by
  rcases xs with _ | ⟨y, _ | ⟨z, ys⟩⟩
  · cases hx
  · rw [List.mem_singleton.1 hx]
  · simp at hl

theorem keep_eq_self {p : α → Option Bool} {xs : List α} (hp : ∀ x ∈ xs, p x = some true) :
    keep p xs = some xs := by
  induction xs with
  | nil => rfl
  | cons x xs ih =>
      rw [List.forall_mem_cons] at hp
      rw [keep, hp.1, ih hp.2]
      rfl

/-- A member stays if it passes. -/
theorem mem_keep {p : α → Option Bool} {xs ys : List α} (e : keep p xs = some ys) {x : α}
    (hx : x ∈ xs) : ∃ b, p x = some b ∧ (b = true → x ∈ ys) := by
  induction xs generalizing ys with
  | nil => cases hx
  | cons y xs ih =>
      rw [keep] at e
      obtain ⟨passes, hy, e⟩ := Option.bind_eq_some_iff.1 e
      obtain ⟨rest, hrest, e⟩ := Option.bind_eq_some_iff.1 e
      cases e
      rcases List.mem_cons.1 hx with rfl | hx
      · refine ⟨passes, hy, fun hpass => ?_⟩
        rw [if_pos hpass]
        exact List.mem_cons_self
      · obtain ⟨b, hb, hmem⟩ := ih hrest hx
        refine ⟨b, hb, fun htrue => ?_⟩
        split
        · exact List.mem_cons_of_mem y (hmem htrue)
        · exact hmem htrue

theorem anyM_eq_false {p : α → Option Bool} {xs : List α} :
    xs.anyM p = some false ↔ ∀ x ∈ xs, p x = some false := by
  induction xs with
  | nil => exact ⟨fun _ => nofun, fun _ => rfl⟩
  | cons x xs ih =>
      rw [List.forall_mem_cons, ← ih, List.anyM]
      cases p x with
      | none => simp
      | some b => cases b <;> simp

/-- A question that is not answered is the last one to be asked. -/
theorem anyM_eq_none {p : α → Option Bool} {xs ys : List α} {y : α}
    (hx : ∀ x ∈ xs, p x = some false) (hy : p y = none) : (xs ++ y :: ys).anyM p = none := by
  induction xs with
  | nil =>
      rw [List.nil_append, List.anyM_cons, hy]
      rfl
  | cons x xs ih =>
      rw [List.forall_mem_cons] at hx
      rw [List.cons_append, List.anyM_cons, hx.1]
      exact ih hx.2

theorem exists_of_anyM {p : α → Option Bool} {xs : List α} (e : xs.anyM p = some true) :
    ∃ x ∈ xs, p x = some true := by
  induction xs with
  | nil => cases e
  | cons x xs ih =>
      rw [List.anyM] at e
      obtain ⟨b, hb, e⟩ := Option.bind_eq_some_iff.1 e
      cases b with
      | true => exact ⟨x, List.mem_cons_self, hb⟩
      | false =>
          obtain ⟨y, hy, hpy⟩ := ih e
          exact ⟨y, List.mem_cons_of_mem x hy, hpy⟩

/-- A test of all members fails at one of them. -/
theorem exists_of_allM {p : α → Option Bool} {xs : List α}
    (e : xs.allM p = some false) : ∃ x ∈ xs, p x = some false := by
  induction xs with
  | nil => cases e
  | cons x xs ih =>
      rw [List.allM] at e
      obtain ⟨b, hb, e⟩ := Option.bind_eq_some_iff.1 e
      cases b with
      | false => exact ⟨x, List.mem_cons_self, hb⟩
      | true =>
          obtain ⟨y, hy, hpy⟩ := ih e
          exact ⟨y, List.mem_cons_of_mem x hy, hpy⟩

/-- A test of all members comes to an end if it does on every member. -/
theorem exists_allM {p : α → Option Bool} {xs : List α} (hp : ∀ x ∈ xs, ∃ b, p x = some b) :
    ∃ b, xs.allM p = some b := by
  induction xs with
  | nil => exact ⟨true, rfl⟩
  | cons x xs ih =>
      rw [List.forall_mem_cons] at hp
      obtain ⟨b, hb⟩ := hp.1
      rw [List.allM, hb]
      cases b with
      | false => exact ⟨false, rfl⟩
      | true => exact ih hp.2

theorem exists_choices {options : α → Option (List β)} {xs : List α}
    (ho : ∀ x ∈ xs, ∃ os, options x = some os) : ∃ found, choices options xs = some found := by
  induction xs with
  | nil => exact ⟨_, rfl⟩
  | cons x xs ih =>
      rw [List.forall_mem_cons] at ho
      obtain ⟨os, hos⟩ := ho.1
      obtain ⟨rests, hrests⟩ := ih ho.2
      rw [choices, hos]
      cases os with
      | nil => exact ⟨_, rfl⟩
      | cons o os =>
          show ∃ found, (choices options xs >>= _) = some found
          rw [hrests]
          exact ⟨_, rfl⟩

/-- There is a choice if every position has an option. -/
theorem choices_ne_nil {options : α → Option (List β)} {xs : List α} {found : List (List β)}
    (e : choices options xs = some found)
    (ho : ∀ x ∈ xs, ∀ os, options x = some os → os ≠ []) : found ≠ [] := by
  induction xs generalizing found with
  | nil =>
      cases e
      exact List.cons_ne_nil _ _
  | cons x xs ih =>
      rw [List.forall_mem_cons] at ho
      rw [choices] at e
      obtain ⟨os, hx, e⟩ := Option.bind_eq_some_iff.1 e
      cases os with
      | nil => exact absurd rfl (ho.1 [] hx)
      | cons o os =>
          obtain ⟨rests, hrests, e⟩ := Option.bind_eq_some_iff.1 e
          cases e
          have hne := ih hrests ho.2
          cases rests with
          | nil => exact absurd rfl hne
          | cons rest rests => exact List.cons_ne_nil _ _

theorem keep_sublist {p : α → Option Bool} {xs ys : List α} (e : keep p xs = some ys) :
    ys.Sublist xs := by
  induction xs generalizing ys with
  | nil =>
      cases e
      exact List.Sublist.slnil
  | cons x xs ih =>
      rw [keep] at e
      obtain ⟨passes, -, e⟩ := Option.bind_eq_some_iff.1 e
      obtain ⟨rest, hrest, e⟩ := Option.bind_eq_some_iff.1 e
      cases e
      cases passes with
      | false => exact (ih hrest).cons x
      | true => exact (ih hrest).cons_cons x

end Lists

/-! ## 2. Distinct results -/

theorem Var.equivalent_refl (v : Var Ty) : v.equivalent v = true := by
  simp [Var.equivalent, App.sameBounds]

theorem Ty.equivalent_refl (t : Ty) : t.equivalent t = true := by
  cases t with
  | app a => simp [Ty.equivalent]
  | var v => exact v.equivalent_refl

/-- Every result has an equivalent one among those that are kept. -/
theorem exists_mem_distinct {results : List Ty} {t : Ty} (ht : t ∈ results) :
    ∃ r ∈ distinct results, r.equivalent t = true := by
  have hadd (acc : List Ty) (s : Ty) (hmem : (∃ r ∈ acc, r.equivalent t = true) ∨ s = t) :
      ∃ r ∈ addDistinct acc s, r.equivalent t = true := by
    rw [addDistinct]
    split
    · rename_i hany
      rcases hmem with hacc | rfl
      · exact hacc
      · exact List.any_eq_true.1 hany
    · rcases hmem with ⟨r, hr, e⟩ | rfl
      · exact ⟨r, List.mem_append_left _ hr, e⟩
      · exact ⟨s, List.mem_append_right _ List.mem_cons_self, s.equivalent_refl⟩
  have hrun (rs acc : List Ty) (hmem : (∃ r ∈ acc, r.equivalent t = true) ∨ t ∈ rs) :
      ∃ r ∈ rs.foldl addDistinct acc, r.equivalent t = true := by
    induction rs generalizing acc with
    | nil => simpa using hmem
    | cons s rs ih =>
        refine ih _ ?_
        rcases hmem with hacc | hrs
        · exact Or.inl (hadd acc s (Or.inl hacc))
        · rcases List.mem_cons.1 hrs with hs | hrs
          · exact Or.inl (hadd acc s (Or.inr hs.symm))
          · exact Or.inr hrs
  exact hrun results [] (Or.inr ht)

/-- Applications are equivalent only if they are equal, so every one is kept. -/
theorem mem_distinct_app {results : List Ty} {a : App Ty} :
    .app a ∈ distinct results ↔ .app a ∈ results := by
  refine ⟨mem_distinct, fun ha => ?_⟩
  obtain ⟨r, hr, e⟩ := exists_mem_distinct ha
  cases r with
  | var v => cases e
  | app b =>
      rw [Ty.equivalent, beq_iff_eq] at e
      rwa [e] at hr

/-- No result is equivalent to an earlier one. -/
def Apart (results : List Ty) : Prop := results.Pairwise fun r s => r.equivalent s = false

/-- One more result that is equivalent to none of the others. -/
theorem apart_concat {results : List Ty} {t : Ty} :
    Apart (results ++ [t]) ↔ Apart results ∧ ∀ r ∈ results, r.equivalent t = false := by
  simp [Apart, List.pairwise_append]

theorem apart_distinct (found : List Ty) : Apart (distinct found) := by
  refine List.foldlRecOn (motive := Apart) found addDistinct List.Pairwise.nil
    fun acc hacc t _ => ?_
  rw [addDistinct]
  split
  · exact hacc
  · rename_i hany
    exact apart_concat.2 ⟨hacc, by simpa using hany⟩

/-- No result is kept twice. -/
theorem nodup_distinct (results : List Ty) : (distinct results).Nodup := by
  refine (apart_distinct results).imp fun {r s} hrs e => ?_
  rw [e, s.equivalent_refl] at hrs
  cases hrs

/-- An instance is merged with itself to itself. -/
theorem Ty.merge_self (t : Ty) : t.merge t = some t := by
  induction t using Ty.induct with
  | app f as ih =>
      have hall : Ty.mergeAll as as = some as := by
        induction as with
        | nil => rfl
        | cons a as iha =>
            rw [List.forall_mem_cons] at ih
            rw [Ty.mergeAll, ih.1, iha ih.2]
      rw [Ty.merge, if_pos rfl, hall]
      rfl
  | var name lower upper =>
      simp [Ty.merge, Var.equivalent_refl]

namespace Hierarchy

variable {h : Hierarchy} {tables : Tables}

/-! ## 3. One question -/

theorem common_pair {k : Nat} {d : Direction} {x y : Ty} {results : List Ty} :
    Nearest.common h tables (k + 1) d [x, y] = some results ↔ ∃ found,
      combine h tables (answers h tables k) d x y = some found ∧
        keepNearest h (answers h tables k) d (distinct found) = some results := by
  show List.foldlM (takeIn h tables (answers h tables k) d) [x] [y] = some results ↔ _
  rw [List.foldlM_cons, takeIn, List.mapM_cons, List.mapM_nil]
  cases combine h tables (answers h tables k) d x y with
  | none => simp
  | some found => simp

/-- There is one way to combine at a type to which there is one way to carry the operands. -/
theorem combineVia_single {q : Answers} {d : Direction} {a b a' b' : App Ty} {n : Node}
    (ha : carry h q d a n = some [a']) (hb : carry h q d b n = some [b']) :
    combineVia h q d a b n = combineArgs q d n a' b' := by
  rw [combineVia, ha, hb]
  show (List.mapM (fun p : App Ty × App Ty => combineArgs q d n p.1 p.2) [(a', b')] >>= _) = _
  rw [List.mapM_cons, List.mapM_nil]
  cases combineArgs q d n a' b' with
  | none => rfl
  | some found => simp

theorem carry_up {q : Answers} {a a' : App Ty} {n : Node} (ha : h.raise a n.id = some a') :
    carry h q .up a n = some [a'] := by
  rw [carry, ha]
  rfl

/-- Instances that leave nothing open but `_` are closed under the steps of the search. -/
theorem searchClosed_sketch : SearchClosed h h.Sketch where
  app_iff := over_app_iff
  anonymous := sketch_anonymous
  lower := fun hv => by
    rw [hv.var]
    exact nofun
  upper := fun hv => by
    rw [hv.var]
    exact nofun
  joined := fun hv hw hl hu _ _ _ => by
    rw [hv.var, hw.var] at hl hu
    rw [hl rfl rfl, hu rfl rfl]
    exact sketch_anonymous

/-- An instance that fulfills itself agrees with itself at every place. -/
theorem agreeAt_self {rec : Ty → Ty → Option Bool} {t : Ty} (e : rec t t = some true)
    (v : Variance) : agreeAt rec v t t = some true := by
  cases v with
  | covariant => exact e
  | contravariant => exact e
  | invariant =>
      rw [agreeAt, Ty.merge_self]
      rfl

/-- An application fulfills itself if its arguments do. -/
theorem eventually_fulfills_app_self (S : Sound h) {a : App Ty} {n : Node}
    (hn : h.find? a.head = some n) (hl : a.args.length = n.arity)
    (hargs : ∀ t ∈ a.args, ∀ᶠ m in Filter.atTop, h.fulfills m t t = some true) :
    ∀ᶠ m in Filter.atTop, h.fulfills m (.app a) (.app a) = some true := by
  refine eventually_fulfills_app hn (S.raise_self hn hl) fun i x y hx hy => ?_
  rw [hx] at hy
  cases hy
  filter_upwards [hargs x (List.mem_of_getElem? hx)] with m hm
  exact agreeAt_self hm (n.variance i)

/-- Every instance fulfills itself from some round on. -/
theorem fulfills_refl (S : Sound h) {t : Ty} (ht : h.Sketch t) :
    ∀ᶠ m in Filter.atTop, h.fulfills m t t = some true := by
  induction t using Ty.induct with
  | app f ts ih =>
      obtain ⟨⟨n, hn, hl⟩, hts⟩ := over_app_iff.1 ht
      exact eventually_fulfills_app_self S hn hl fun t hmem => ih t hmem (hts t hmem)
  | var name lower upper =>
      rw [ht.var]
      exact eventually_of_succ (Filter.Eventually.of_forall fun m => rfl)

/-! ## 4. Positions -/

/-- What comes out for the position of a parameter: the nearest common relatives of the two
    arguments, in the same direction or in the other one, or what they are merged to. -/
def Outcome (h : Hierarchy) (d : Direction) (v : Variance) (x y : Ty) (zs : List Ty) : Prop :=
  match v with
  | .covariant => ∃ k, (h.nearestCommon k d [x, y]).run = some (.ok zs)
  | .contravariant => ∃ k, (h.nearestCommon k d.flip [x, y]).run = some (.ok zs)
  | .invariant => zs = (x.merge y).toList

section Outcome

variable {d : Direction} {v : Variance} {x y : Ty} {zs : List Ty} {k : Nat}
  (htab : h.tables = some tables) (hx : h.Sketch x) (hy : h.Sketch y)
include htab hx hy

/-- A question about two operands is one search. -/
theorem nearestCommon_pair_run (k : Nat) (d : Direction) :
    (h.nearestCommon k d [x, y]).run = (Nearest.common h tables k d [x, y]).map .ok := by
  unfold nearestCommon
  rw [htab]
  dsimp only
  rw [List.mapM_cons, List.mapM_cons, List.mapM_nil, operand_of_sketch hx, operand_of_sketch hy]
  simp only [pure_bind]
  cases Nearest.common h tables k d [x, y] with
  | none => rfl
  | some found => rfl

theorem nearestCommon_pair_eq_ok : (h.nearestCommon k d [x, y]).run = some (.ok zs) ↔
    Nearest.common h tables k d [x, y] = some zs := by
  rw [nearestCommon_pair_run htab hx hy]
  simp

theorem outcome_of_combineAt (e : combineAt (answers h tables k) d v x y = some zs) :
    h.Outcome d v x y zs := by
  cases v with
  | covariant => exact ⟨k, (nearestCommon_pair_eq_ok htab hx hy).2 e⟩
  | contravariant => exact ⟨k, (nearestCommon_pair_eq_ok htab hx hy).2 e⟩
  | invariant => exact (Option.some_inj.1 e).symm

/-- What comes out for a position is there from some round on. -/
theorem combineAt_of_outcome (ho : h.Outcome d v x y zs) :
    ∀ᶠ m in Filter.atTop, combineAt (answers h tables m) d v x y = some zs := by
  cases v with
  | covariant =>
      obtain ⟨k, hk⟩ := ho
      exact Filter.eventually_atTop.2 ⟨k, fun m hm =>
        common_keeps h tables hm d _ ((nearestCommon_pair_eq_ok htab hx hy).1 hk)⟩
  | contravariant =>
      obtain ⟨k, hk⟩ := ho
      exact Filter.eventually_atTop.2 ⟨k, fun m hm =>
        common_keeps h tables hm d.flip _ ((nearestCommon_pair_eq_ok htab hx hy).1 hk)⟩
  | invariant => exact Filter.Eventually.of_forall fun m => congrArg some ho.symm

theorem Outcome.unique {ws : List Ty} (hz : h.Outcome d v x y zs) (hw : h.Outcome d v x y ws) :
    zs = ws := by
  obtain ⟨m, hz, hw⟩ := ((combineAt_of_outcome htab hx hy hz).and
    (combineAt_of_outcome htab hx hy hw)).exists
  exact Option.some_inj.1 (hz.symm.trans hw)

end Outcome

/-! ## 5. Results of one question -/

/-- An application is nearest if it lies strictly beyond no other one. -/
theorem isNearest_app_iff {q : Answers} {d : Direction} {rs : List Ty} {x : App Ty} :
    isNearest h q d rs (.app x) = some true ↔
      ∀ y, .app y ∈ rs → y ≠ x → strictlyBeyond h q d x y = some false := by
  have hmem {y : App Ty} : y ∈ rs.filterMap Ty.app? ↔ .app y ∈ rs := by
    rw [List.mem_filterMap]
    constructor
    · rintro ⟨t, ht, e⟩
      cases t with
      | var v => cases e
      | app a =>
          cases e
          exact ht
    · exact fun hy => ⟨_, hy, rfl⟩
  have hany : isNearest h q d rs (.app x) = some true ↔ (rs.filterMap Ty.app?).anyM
      (fun y => if y = x then some false else strictlyBeyond h q d x y) = some false := by
    rw [isNearest]
    cases (rs.filterMap Ty.app?).anyM fun y =>
        if y = x then some false else strictlyBeyond h q d x y with
    | none => simp
    | some nearer => cases nearer <;> simp
  rw [hany, anyM_eq_false]
  constructor
  · intro hall y hy hne
    have hy' := hall y (hmem.2 hy)
    rwa [if_neg hne] at hy'
  · intro hall y hy
    split
    · rfl
    · rename_i hne
      exact hall y (hmem.1 hy) hne

/-- What is nearest stays so among fewer results. -/
theorem isNearest_of_subset {q : Answers} {d : Direction} {rs rs' : List Ty} (hsub : rs' ⊆ rs)
    {t : Ty} (e : isNearest h q d rs t = some true) : isNearest h q d rs' t = some true := by
  cases t with
  | var v => rfl
  | app x => exact isNearest_app_iff.2 fun y hy => isNearest_app_iff.1 e y (hsub hy)

/-- A single result has nothing nearer beside it. -/
theorem keepNearest_single (q : Answers) (d : Direction) (t : Ty) :
    keepNearest h q d [t] = some [t] := by
  refine keep_eq_self (List.forall_mem_singleton.2 ?_)
  cases t with
  | var v => rfl
  | app x =>
      refine isNearest_app_iff.2 fun y hy hne => absurd ?_ hne
      exact Ty.app.inj (List.mem_singleton.1 hy)

section Kept

variable {d : Direction} {k : Nat} {rs found : List Ty}
  (e : keepNearest h (answers h tables k) d rs = some found)
include e

/-- **Of two results neither is strictly nearer.** -/
theorem not_strictly_of_kept {a b : App Ty} (ha : .app a ∈ found) (hb : .app b ∈ found)
    (hne : b ≠ a) : strictlyFulfills h (answers h tables k) b a = some false := by
  have hnot {x y : App Ty} (hx : .app x ∈ found) (hy : .app y ∈ found) (hne : y ≠ x) :
      strictlyBeyond h (answers h tables k) d x y = some false :=
    isNearest_app_iff.1 (keep_eq_some e _ hx).2 y (keep_eq_some e _ hy).1 hne
  cases d with
  | up => exact hnot ha hb hne
  | down => exact hnot hb ha hne.symm

/-- So if one of them fulfills the other, they fulfill each other. -/
theorem fulfills_symm_of_kept {z w : Ty} (hz : z ∈ found) (hw : w ∈ found) (hsz : h.Sketch z)
    (hsw : h.Sketch w) (hwz : h.fulfills (k + 1) w z = some true) :
    h.fulfills (k + 1) z w = some true := by
  cases w with
  | var v =>
      rw [hsw.var]
      rfl
  | app b =>
      cases z with
      | var v =>
          rw [hsz.var]
          rfl
      | app a =>
          by_cases hne : b = a
          · rwa [hne] at hwz ⊢
          · have hnot := not_strictly_of_kept e hz hw hne
            rw [strictlyFulfills] at hnot
            obtain ⟨below, hbelow, hnot⟩ := Option.bind_eq_some_iff.1 hnot
            -- both are the same question, asked in one round
            rw [show below = true from Option.some_inj.1 (hbelow.symm.trans hwz)] at hnot
            obtain ⟨above, habove, hnot⟩ := Option.bind_eq_some_iff.1 hnot
            cases above with
            | false => cases hnot
            | true => exact habove

/-- Whether one of them fulfills the other is known from some round on. -/
theorem decided_of_kept (S : Sound h) {z w : Ty} (hz : z ∈ found) (hw : w ∈ found)
    (hsz : h.Sketch z) (hsw : h.Sketch w) :
    ∃ b, ∀ᶠ m in Filter.atTop, h.fulfills m w z = some b := by
  have hlater {b : Bool} (hb : h.fulfills (k + 1) w z = some b) :
      ∃ b, ∀ᶠ m in Filter.atTop, h.fulfills m w z = some b :=
    ⟨b, Filter.eventually_atTop.2 ⟨k + 1, fun m hm => h.fulfills_keeps hm w z hb⟩⟩
  cases w with
  | var v =>
      rw [hsw.var] at hlater ⊢
      cases z with
      | var v' =>
          rw [hsz.var] at hlater ⊢
          exact hlater rfl
      | app a => exact hlater rfl
  | app b =>
      cases z with
      | var v =>
          rw [hsz.var] at hlater ⊢
          exact hlater rfl
      | app a =>
          by_cases hne : b = a
          · rw [hne]
            exact ⟨true, fulfills_refl S hsz⟩
          · have hnot := not_strictly_of_kept e hz hw hne
            rw [strictlyFulfills] at hnot
            obtain ⟨below, hbelow, -⟩ := Option.bind_eq_some_iff.1 hnot
            exact hlater hbelow

end Kept

/-- An earlier round does not leave a closed class. -/
theorem SearchClosed.stays {P : Ty → Prop} (C : SearchClosed h P) (S : Sound h) (k : Nat) :
    Stays h P (answers h tables k) := ⟨⟨k, rfl⟩, ⟨k, rfl⟩, C.common S k⟩

section Options

variable {d : Direction} {v : Variance} {x y z w : Ty} {os : List Ty} {k : Nat}

/-- The options for a position are what was kept in an earlier round, or there is at most one. -/
theorem options_cases (e : combineAt (answers h tables k) d v x y = some os) :
    (v = .invariant ∧ os = (x.merge y).toList) ∨ v ≠ .invariant ∧ ∃ j d' rs, k = j + 1 ∧
      keepNearest h (answers h tables j) d' rs = some os := by
  have hkept {d' : Direction} (e : Nearest.common h tables k d' [x, y] = some os) :
      ∃ j d' rs, k = j + 1 ∧ keepNearest h (answers h tables j) d' rs = some os := by
    cases k with
    | zero => cases e
    | succ j =>
        obtain ⟨found, -, hkeep⟩ := common_pair.1 e
        exact ⟨j, d', _, rfl, hkeep⟩
  cases v with
  | invariant => exact Or.inl ⟨rfl, (Option.some_inj.1 e).symm⟩
  | covariant => exact Or.inr ⟨nofun, hkept e⟩
  | contravariant => exact Or.inr ⟨nofun, hkept e⟩

variable (S : Sound h) (hx : h.Sketch x) (hy : h.Sketch y)
  (e : combineAt (answers h tables k) d v x y = some os) (hz : z ∈ os) (hw : w ∈ os)
include S hx hy e hz hw

/-- Options that agree one way agree the other way. -/
theorem agreeAt_symm_of_options (hwz : agreeAt (h.fulfills k) v w z = some true) :
    agreeAt (h.fulfills k) v z w = some true := by
  have hsz := searchClosed_sketch.combineAt (searchClosed_sketch.stays S k) hx hy e hz
  have hsw := searchClosed_sketch.combineAt (searchClosed_sketch.stays S k) hx hy e hw
  rcases options_cases e with ⟨rfl, rfl⟩ | ⟨hv, j, d', rs, rfl, hkeep⟩
  · rw [Option.mem_toList] at hz hw
    rw [hz] at hw
    cases hw
    exact hwz
  · cases v with
    | invariant => exact absurd rfl hv
    | covariant => exact fulfills_symm_of_kept hkeep hz hw hsz hsw hwz
    | contravariant => exact fulfills_symm_of_kept hkeep hw hz hsw hsz hwz

/-- Whether options agree is known from some round on. -/
theorem decided_of_options : ∃ b, ∀ᶠ m in Filter.atTop, agreeAt (h.fulfills m) v w z = some b := by
  have hsz := searchClosed_sketch.combineAt (searchClosed_sketch.stays S k) hx hy e hz
  have hsw := searchClosed_sketch.combineAt (searchClosed_sketch.stays S k) hx hy e hw
  rcases options_cases e with ⟨rfl, -⟩ | ⟨hv, j, d', rs, -, hkeep⟩
  · exact ⟨_, Filter.Eventually.of_forall fun m => rfl⟩
  · cases v with
    | invariant => exact absurd rfl hv
    | covariant => exact decided_of_kept hkeep S hz hw hsz hsw
    | contravariant => exact decided_of_kept hkeep S hw hz hsw hsz

end Options

end Hierarchy

end Lineage

import Lineage.Proofs.Subtyping

/-!
# Questions that come to an end

A question is put with more and more rounds. It comes to an end (`Ends`) if from some round on it
has an answer, always the same one; a property of the answer is carried along. Every way in which
the search puts questions together keeps this: one question after the other, one for each member of
a list, and so on.
-/

namespace Lineage

variable {α β : Type} {P : α → Prop} {Q : β → Prop}

/-- From some round on there is an answer, always the same one, and it has a property. -/
def Ends (P : α → Prop) (f : Nat → Option α) : Prop :=
  ∃ a, P a ∧ ∀ᶠ m in Filter.atTop, f m = some a

/-- There is an answer from some round on, always the same one. -/
def Answered (f : Nat → Option α) : Prop := Ends (fun _ => True) f

theorem answered_iff {f : Nat → Option α} : Answered f ↔ ∃ k a, ∀ m ≥ k, f m = some a := by
  constructor
  · intro hf
    obtain ⟨a, -, hf⟩ := hf
    obtain ⟨k, hk⟩ := Filter.eventually_atTop.1 hf
    exact ⟨k, a, hk⟩
  · intro hf
    obtain ⟨k, a, hk⟩ := hf
    exact ⟨a, trivial, Filter.eventually_atTop.2 ⟨k, hk⟩⟩

theorem ends_some {a : α} (ha : P a) : Ends P fun _ => some a :=
  ⟨a, ha, Filter.Eventually.of_forall fun _ => rfl⟩

theorem answered_some (a : α) : Answered fun _ => some a := ends_some trivial

namespace Ends

variable {f : Nat → Option α}

theorem imp {R : α → Prop} (hf : Ends P f) (hP : ∀ a, P a → R a) : Ends R f := by
  obtain ⟨a, ha, hf⟩ := hf
  exact ⟨a, hP a ha, hf⟩

theorem answered (hf : Ends P f) : Answered f := hf.imp fun _ _ => trivial

/-- The first round has no answer yet, so it does not count. -/
theorem of_succ (hf : Ends P fun m => f (m + 1)) : Ends P f := by
  obtain ⟨a, ha, hf⟩ := hf
  exact ⟨a, ha, Hierarchy.eventually_of_succ hf⟩

theorem succ (hf : Ends P f) : Ends P fun m => f (m + 1) := by
  obtain ⟨a, ha, hf⟩ := hf
  exact ⟨a, ha, (Filter.tendsto_add_atTop_nat 1).eventually hf⟩

/-- Two questions, the second one put with the answer to the first. -/
theorem bind {g : α → Nat → Option β} (hf : Ends P f) (hg : ∀ a, P a → Ends Q (g a)) :
    Ends Q fun m => f m >>= fun a => g a m := by
  obtain ⟨a, ha, hf⟩ := hf
  obtain ⟨b, hb, hg⟩ := hg a ha
  refine ⟨b, hb, ?_⟩
  filter_upwards [hf, hg] with m hfm hgm
  rw [hfm]
  exact hgm

/-- The answer in another form. -/
theorem map {g : α → β} (hf : Ends P f) (hg : ∀ a, P a → Q (g a)) :
    Ends Q fun m => f m >>= fun a => some (g a) :=
  hf.bind fun a ha => ends_some (hg a ha)

/-- One question for each member of a list. -/
theorem mapM {f : α → Nat → Option β} {xs : List α} (hf : ∀ x ∈ xs, Ends Q (f x)) :
    Ends (fun ys => ∀ y ∈ ys, Q y) fun m => xs.mapM fun x => f x m := by
  induction xs with
  | nil => exact ends_some fun _ hy => by cases hy
  | cons x xs ih =>
      rw [List.forall_mem_cons] at hf
      simp only [List.mapM_cons]
      refine hf.1.bind fun y hy => (ih hf.2).map fun ys hys => ?_
      exact List.forall_mem_cons.2 ⟨hy, hys⟩

/-- The answers for the members of a list, put together. -/
theorem flatten {f : α → Nat → Option (List β)} {xs : List α}
    (hf : ∀ x ∈ xs, Ends (fun ys => ∀ y ∈ ys, Q y) (f x)) :
    Ends (fun ys => ∀ y ∈ ys, Q y) fun m => do
      let found ← xs.mapM fun x => f x m
      return found.flatten := by
  refine (mapM hf).map fun yss hyss y hy => ?_
  obtain ⟨ys, hys, hy⟩ := List.mem_flatten.1 hy
  exact hyss ys hys y hy

/-- The members are taken in one after the other. -/
theorem foldlM {I : β → Prop} {f : Nat → β → α → Option β} {xs : List α} {b : β} (hb : I b)
    (hf : ∀ b, I b → ∀ x ∈ xs, Ends I fun m => f m b x) :
    Ends I fun m => xs.foldlM (f m) b := by
  induction xs generalizing b with
  | nil => exact ends_some hb
  | cons x xs ih =>
      simp only [List.foldlM_cons]
      refine (hf b hb x List.mem_cons_self).bind fun b' hb' => ?_
      exact ih hb' fun b hb x hx => hf b hb x (List.mem_cons_of_mem _ hx)

/-- The members that pass a test. -/
theorem keep {p : α → Nat → Option Bool} {xs : List α} (hx : ∀ x ∈ xs, P x)
    (hp : ∀ x ∈ xs, Answered (p x)) :
    Ends (fun ys => ∀ y ∈ ys, P y) fun m => Nearest.keep (fun x => p x m) xs := by
  induction xs with
  | nil => exact ends_some fun _ hy => by cases hy
  | cons x xs ih =>
      rw [List.forall_mem_cons] at hp hx
      refine Ends.bind hp.1 fun b _ => (ih hx.2 hp.2).map fun ys hys => ?_
      cases b with
      | false => exact hys
      | true => exact List.forall_mem_cons.2 ⟨hx.1, hys⟩

/-- One option for each position. -/
theorem choices {options : α → Nat → Option (List β)} {xs : List α}
    (ho : ∀ x ∈ xs, Ends (fun os => ∀ o ∈ os, Q o) (options x)) :
    Ends (fun yss => ∀ ys ∈ yss, ∀ y ∈ ys, Q y) fun m =>
      Nearest.choices (fun x => options x m) xs := by
  induction xs with
  | nil =>
      refine ends_some fun ys hys y hy => ?_
      rw [List.mem_singleton.1 hys] at hy
      cases hy
  | cons x xs ih =>
      rw [List.forall_mem_cons] at ho
      refine ho.1.bind fun os hos => ?_
      cases os with
      | nil => exact ends_some fun _ hys => by cases hys
      | cons o os =>
          refine (ih ho.2).map fun rests hrests ys hys => ?_
          obtain ⟨b, hb, hys⟩ := List.mem_flatMap.1 hys
          obtain ⟨rest, hrest, rfl⟩ := List.mem_map.1 hys
          exact List.forall_mem_cons.2 ⟨hos b hb, hrests rest hrest⟩

/-- One match for each position. -/
theorem matchAll {R : Constraint → Prop} {f : α → Nat → Option Nearest.Match} {xs : List α}
    (hf : ∀ x ∈ xs, Ends (fun found => ∀ cs, found = some cs → ∀ c ∈ cs, R c) (f x)) :
    Ends (fun found => ∀ cs, found = some cs → ∀ c ∈ cs, R c) fun m =>
      Nearest.matchAll (fun x => f x m) xs := by
  induction xs with
  | nil =>
      refine ends_some fun cs e => ?_
      cases e
      exact fun c hc => by cases hc
  | cons x xs ih =>
      rw [List.forall_mem_cons] at hf
      refine hf.1.bind fun found hfound => ?_
      cases found with
      | none => exact ends_some fun _ e => by cases e
      | some cs =>
          refine (ih hf.2).map fun rest hrest cs' e => ?_
          obtain ⟨cs'', rfl, rfl⟩ := Option.map_eq_some_iff.1 e
          exact List.forall_mem_append.2 ⟨hfound cs rfl, hrest cs'' rfl⟩

end Ends

namespace Answered

theorem allM {p : α → Nat → Option Bool} {xs : List α} (hp : ∀ x ∈ xs, Answered (p x)) :
    Answered fun m => xs.allM fun x => p x m := by
  induction xs with
  | nil => exact answered_some true
  | cons x xs ih =>
      rw [List.forall_mem_cons] at hp
      refine Ends.bind hp.1 fun b _ => ?_
      cases b with
      | false => exact answered_some false
      | true => exact ih hp.2

theorem anyM {p : α → Nat → Option Bool} {xs : List α} (hp : ∀ x ∈ xs, Answered (p x)) :
    Answered fun m => xs.anyM fun x => p x m := by
  induction xs with
  | nil => exact answered_some false
  | cons x xs ih =>
      rw [List.forall_mem_cons] at hp
      refine Ends.bind hp.1 fun b _ => ?_
      cases b with
      | false => exact ih hp.2
      | true => exact answered_some true

open Hierarchy (Query)

theorem run_lift {f : Nat → Option α} (hf : Answered f) :
    Answered fun m => (liftM (f m) : Query α).run := by
  obtain ⟨a, -, hf⟩ := hf
  refine ⟨.ok a, trivial, ?_⟩
  filter_upwards [hf] with m hm
  rw [hm]
  rfl

/-- Two questions that may fail, one after the other. -/
theorem run_bind {q : Nat → Query α} {g : α → Nat → Query β} (hq : Answered fun m => (q m).run)
    (hg : ∀ a, Answered fun m => (g a m).run) :
    Answered fun m => (q m >>= fun a => g a m).run := by
  refine Ends.bind hq fun r _ => ?_
  cases r with
  | error e => exact answered_some _
  | ok a => exact hg a

theorem run_forM {q : α → Nat → Query Unit} {xs : List α}
    (hq : ∀ x ∈ xs, Answered fun m => (q x m).run) :
    Answered fun m => (xs.forM fun x => q x m).run := by
  induction xs with
  | nil => exact answered_some _
  | cons x xs ih =>
      rw [List.forall_mem_cons] at hq
      exact run_bind hq.1 fun _ => ih hq.2

theorem run_mapM {q : α → Nat → Query β} {xs : List α}
    (hq : ∀ x ∈ xs, Answered fun m => (q x m).run) :
    Answered fun m => (xs.mapM fun x => q x m).run := by
  induction xs with
  | nil => exact answered_some _
  | cons x xs ih =>
      rw [List.forall_mem_cons] at hq
      simp only [List.mapM_cons]
      exact run_bind hq.1 fun y => run_bind (ih hq.2) fun ys => answered_some _

end Answered

end Lineage

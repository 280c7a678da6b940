import Lineage.Proofs.Alike
import Lineage.Proofs.Parameterless

/-!
# Upper bounds that can be met

A variable with upper bounds only can stand where a type is expected if something lies below that
type and below all bounds. Subtyping asks for it among the descendants of the types
(`shareDescendant_iff_liesBeyond`). Where no type has parameters, the search for common descendants
answers the same question. It takes in the bounds one after the other and keeps the nearest types,
and it comes out empty only if there is nothing to find, because before every common descendant
there is a nearest one (`exists_nearestBeyond_iff`).
-/

namespace Lineage

open Nearest

namespace Hierarchy

variable {h : Hierarchy} {d : Direction} {apps : List (App Ty)}

/-! ## 1. Common descendants -/

/-- Subtyping looks for a common descendant of the types of all given applications. -/
theorem shareDescendant_iff_liesBeyond (S : Sound h) (hne : apps ≠ []) :
    h.shareDescendant apps = true ↔ ∃ c, h.LiesBeyond .down apps c := by
  have hreach {a : App Ty} {n : Node} {c : Nat} (hn : h.find? a.head = some n) :
      (∃ i, h.idOf? a.head = some i ∧ h.Reaches .down i c) ↔ c ∈ n.descendants := by
    rw [S.idOf?_of_find hn]
    simp only [Option.some_inj, exists_eq_left', Reaches, HasDescendant]
    exact exists_node_iff (S.node_of_find hn)
  rw [Alike.shareDescendant_iff]
  constructor
  · rintro ⟨n, ns, c, hfind, hall⟩
    refine ⟨c, fun a ha => ?_⟩
    obtain ⟨m, hm, hn⟩ := forall₂_exists_right hfind ha
    exact (hreach hn).2 (hall m hm)
  · rintro ⟨c, hc⟩
    have hnodes : ∀ a ∈ apps, ∃ m, h.find? a.head = some m := by
      intro a ha
      obtain ⟨i, hi, -⟩ := hc a ha
      obtain ⟨m, hm, hname⟩ := S.idOf?_eq_some.1 hi
      exact ⟨m, hname ▸ S.find_of_node hm⟩
    obtain ⟨ms, hms⟩ := exists_mapM_eq_some hnodes
    have hfind := mapM_eq_some.1 hms
    cases ms with
    | nil => exact absurd (List.forall₂_nil_right_iff.1 hfind) hne
    | cons n ns =>
        refine ⟨n, ns, c, hfind, fun m hm => ?_⟩
        obtain ⟨a, ha, hn⟩ := forall₂_exists_left hfind hm
        exact (hreach hn).1 (hc a ha)

/-- Before every type that lies beyond the given ones there is a nearest one. -/
theorem exists_nearestBeyond_iff (S : Sound h) (hne : apps ≠ []) :
    (∃ c, h.IsNearestBeyond d apps c) ↔ ∃ c, h.LiesBeyond d apps c := by
  constructor
  · rintro ⟨c, hc⟩
    exact ⟨c, hc.1⟩
  · rintro ⟨c, hc⟩
    obtain ⟨a, rest, rfl⟩ := List.exists_cons_of_ne_nil hne
    have hlt : ∀ x, h.LiesBeyond d (a :: rest) x → x < h.nodes.length := by
      intro x hx
      obtain ⟨i, -, hi⟩ := hx a List.mem_cons_self
      exact S.lt_of_reaches hi
    obtain ⟨x, hx, -, hfirst⟩ := S.exists_first (d := d) hlt hc
    exact ⟨x, hx, hfirst⟩

/-! ## 2. A variable and a type -/

section Variable

variable {v : Var Ty} {a : App Ty}

/-- A variable and an application are combined to the same in either order. -/
theorem nearestCommon_var_app {k : Nat} (hv : h.operand k d (.var v) = pure (.var v))
    (ha : h.operand k d (.app a) = pure (.app a)) :
    h.nearestCommon k d [.var v, .app a] = h.nearestCommon k d [.app a, .var v] := by
  have hcommon (tables : Tables) : Nearest.common h tables k d [.var v, .app a] =
      Nearest.common h tables k d [.app a, .var v] := by cases k <;> rfl
  unfold nearestCommon
  simp only [List.mapM_cons, List.mapM_nil, hv, ha, pure_bind, hcommon]

/-- A variable that has upper bounds only fulfills a type if its bounds and the type share a
    descendant. -/
theorem fulfills_var_app (hl : v.lower = []) (hu : v.upper ≠ []) (k : Nat) :
    h.fulfills (k + 1) (.var v) (.app a) = some (h.shareDescendant (v.upper ++ [a])) := by
  have hbounded : v.isBounded = true := by simp [Var.isBounded, hu]
  have hsome : v.upper.isEmpty = false := by simp [hu]
  rw [fulfills, fulfillsWith, varFulfillsWith, if_pos hbounded, hl, hsome]
  rfl

variable (B : Parameterless h)
include B

theorem Parameterless.validate_app (ha : h.isNormal (.app a) = true) (k : Nat) :
    h.validate k (.app a) = pure (.app a) := by
  refine validate_of_isNormal ha ?_
  rw [checkRanges, B.checkRangesApp_eq (isNormal_app.symm.trans ha)]

/-- Without lower bounds there is no range to check. -/
theorem Parameterless.validate_var (hl : v.lower = []) (hv : h.isNormal (.var v) = true) (k : Nat) :
    h.validate k (.var v) = pure (.var v) := by
  refine validate_of_isNormal hv ?_
  have hupper : h.checkRangesApps k v.upper = pure () :=
    B.checkRangesApps_eq (isNormal_var_iff.1 hv).2
  obtain ⟨name, lower, upper⟩ := v
  cases hl
  rw [checkRanges, hupper]
  rfl

/-- The search finds something exactly if something lies beyond all that takes part. -/
theorem Parameterless.results_ne_nil_iff {k : Nat} {rest results : List Ty}
    (e : (h.nearestCommon (k + 2) d (.app a :: rest)).run = some (.ok results)) :
    results ≠ [] ↔ ∃ c, h.LiesBeyond d (a :: rest.flatMap (members d)) c := by
  obtain ⟨is, rfl, -, -, hmem⟩ := B.exists_lists e
  rw [← exists_nearestBeyond_iff B.sound (List.cons_ne_nil _ _), ← not_iff_not]
  simp only [ne_eq, not_not, List.map_eq_nil_iff, not_exists, ← hmem]
  exact List.eq_nil_iff_forall_not_mem

end Variable

/-- **Upper bounds can be met exactly if the search finds something.** In a finalized hierarchy
    without parameters, take a variable with upper bounds only and a type. Their nearest common
    descendants are found. The variable fulfills the type exactly if there are any, and there are
    any exactly if some type descends from the type and from all bounds. -/
theorem upperBounds_met (hr : Reachable h) (hf : h.isFinalized = true)
    (hp : ∀ n ∈ h.nodes, n.params = []) {v : Var Ty} (hl : v.lower = []) (hu : v.upper ≠ [])
    {a : App Ty} (hv : h.isNormal (.var v) = true) (ha : h.isNormal (.app a) = true) (k : Nat) :
    ∃ results, (h.nearestCommon (k + 2) .down [.var v, .app a]).run = some (.ok results) ∧
      h.typeFulfills (k + 2) (.var v) (.app a) = some (!results.isEmpty) ∧
      (results ≠ [] ↔ ∃ c, h.LiesBeyond .down (a :: v.upper) c) := by
  have B : Parameterless h := ⟨sound_of_reachable hr, fun hn => hp _ hn⟩
  have hva := B.validate_app ha (k + 2)
  have hvv := B.validate_var hl hv (k + 2)
  have hoa : h.operand (k + 2) .down (.app a) = pure (.app a) := hva
  have hov : h.operand (k + 2) .down (.var v) = pure (.var v) := hvv
  have hall : ∀ t ∈ [Ty.app a, .var v], (h.operand (k + 2) .down t).run = some (.ok t) :=
    List.forall_mem_cons.2 ⟨congrArg ExceptT.run hoa,
      List.forall_mem_singleton.2 (congrArg ExceptT.run hov)⟩
  obtain ⟨i, -, hid, -⟩ := B.eq_appAt (isNormal_app.symm.trans ha)
  have e := B.nearestCommon_eq_ok.2 ⟨hf, hall, i, hid, rfl⟩
  have hsome := B.results_ne_nil_iff e
  have htake : a :: [Ty.var v].flatMap (members .down) = a :: v.upper := by
    simp [members, facing]
  rw [htake] at hsome
  refine ⟨_, ?_, ?_, hsome⟩
  · rw [nearestCommon_var_app hov hoa]
    exact e
  · have hshare : h.typeFulfills (k + 2) (.var v) (.app a) =
        some (h.shareDescendant (v.upper ++ [a])) := by
      rw [typeFulfills, hvv, hva]
      exact fulfills_var_app hl hu (k + 1)
    have hnil : v.upper ++ [a] ≠ [] := by simp
    rw [hshare, Option.some_inj, Bool.eq_iff_iff, shareDescendant_iff_liesBeyond B.sound hnil]
    simp only [liesBeyond_perm (List.perm_append_singleton a v.upper), ← hsome]
    simp

/-- Something that is ordered and printed. -/
def orderedPrinted : Var Ty := ⟨"t", [], [⟨"ordered", []⟩, ⟨"printed", []⟩]⟩

/-- What is ordered and printed can be a printed type, since numbers are all of this. It cannot be a
    word: nothing below a word is ordered. -/
theorem numerals_met :
    (numerals.nearestCommon 2 .down [.var orderedPrinted, .app ⟨"printed", []⟩]).run =
      some (.ok [.app ⟨"int", []⟩, .app ⟨"float", []⟩]) ∧
    numerals.typeFulfills 2 (.var orderedPrinted) (.app ⟨"printed", []⟩) = some true ∧
    (∃ c, numerals.LiesBeyond .down (⟨"printed", []⟩ :: orderedPrinted.upper) c) ∧
    (numerals.nearestCommon 2 .down [.var orderedPrinted, .app ⟨"word", []⟩]).run =
      some (.ok []) ∧
    numerals.typeFulfills 2 (.var orderedPrinted) (.app ⟨"word", []⟩) = some false ∧
    ¬ ∃ c, numerals.LiesBeyond .down (⟨"word", []⟩ :: orderedPrinted.upper) c := by
  have hr : Reachable numerals := ⟨_, rfl⟩
  have hp : ∀ n ∈ numerals.nodes, n.params = [] := by decide
  have hprinted : (numerals.nearestCommon 2 .down
    [.var orderedPrinted, .app ⟨"printed", []⟩]).run =
      some (.ok [.app ⟨"int", []⟩, .app ⟨"float", []⟩]) := by decide +kernel
  have hword : (numerals.nearestCommon 2 .down [.var orderedPrinted, .app ⟨"word", []⟩]).run =
    some (.ok []) := by decide +kernel
  have hu : orderedPrinted.upper ≠ [] := List.cons_ne_nil _ _
  obtain ⟨found, hfound, hyes, hbelow⟩ :=
    upperBounds_met hr rfl hp rfl hu (a := ⟨"printed", []⟩) rfl rfl 0
  rw [hprinted] at hfound
  cases hfound
  obtain ⟨found, hfound, hno, hnothing⟩ :=
    upperBounds_met hr rfl hp rfl hu (a := ⟨"word", []⟩) rfl rfl 0
  rw [hword] at hfound
  cases hfound
  exact ⟨hprinted, hyes, hbelow.1 (List.cons_ne_nil _ _), hword, hno,
    fun hc => hnothing.2 hc rfl⟩

end Hierarchy

end Lineage

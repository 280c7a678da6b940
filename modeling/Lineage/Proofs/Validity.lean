import Lineage.Proofs.Closure
import Lineage.Proofs.CommonBound
import Lineage.Proofs.Rounds

/-!
# Results are valid

An instance is valid if every name in it is declared and has the declared number of arguments, and
if every variable in it has a range: each lower bound fulfills each upper bound. Variables nested in
arguments and in the bounds of other variables count.

Valid instances are those that `validate` gives back unchanged, from some round on
(`validate_of_valid`, `valid_of_validate`). They are closed under the steps of the search
(`searchClosed_valid`), so the nearest common relatives of valid instances are valid.
-/

namespace Lineage.Hierarchy

open Nearest

variable {h : Hierarchy}

/-! ## 1. Valid instances -/

/-- All names fit their declarations, and all variables have ranges. -/
inductive Valid (h : Hierarchy) : Ty → Prop where
  | app {a : App Ty} {n : Node} : h.find? a.head = some n → a.args.length = n.arity →
      (∀ t ∈ a.args, Valid h t) → Valid h (.app a)
  | var {v : Var Ty} : (∀ a ∈ v.lower, Valid h (.app a)) → (∀ a ∈ v.upper, Valid h (.app a)) →
      (∀ lo ∈ v.lower, ∀ up ∈ v.upper, ∃ k, h.appFulfills k lo up = some true) → Valid h (.var v)

theorem valid_app_iff {a : App Ty} : h.Valid (.app a) ↔
    (∃ n, h.find? a.head = some n ∧ a.args.length = n.arity) ∧ ∀ t ∈ a.args, h.Valid t := by
  constructor
  · intro ha
    cases ha with
    | app hn hl hargs => exact ⟨⟨_, hn, hl⟩, hargs⟩
  · rintro ⟨⟨n, hn, hl⟩, hargs⟩
    exact .app hn hl hargs

/-- Valid instances are closed under the steps of the search: a range is checked where two
    variables are put together. -/
theorem searchClosed_valid : SearchClosed h h.Valid where
  app_iff := valid_app_iff
  anonymous := .var nofun nofun nofun
  lower := fun hv => by
    cases hv with
    | var hl _ _ => exact hl
  upper := fun hv => by
    cases hv with
    | var _ hu _ => exact hu
  joined := fun _ _ _ _ hl hu hrange => .var hl hu hrange

theorem Valid.isNormal {t : Ty} (ht : h.Valid t) : h.isNormal t = true := by
  induction ht with
  | app hn hl _ ih =>
      rw [isNormal_app]
      exact isNormalApp_iff.2 ⟨⟨_, hn, hl⟩, ih⟩
  | @var v _ _ _ ihl ihu =>
      exact isNormal_var_iff.2 ⟨fun a ha => isNormal_app.symm.trans (ihl a ha),
        fun a ha => isNormal_app.symm.trans (ihu a ha)⟩

/-! ## 2. Validating -/

section Ranges

variable {k : Nat}

theorem checkRange_eq_ok {v : Var Ty} : (h.checkRange k v).run = some (.ok ()) ↔
    ∀ lo ∈ v.lower, ∀ up ∈ v.upper, h.appFulfills k lo up = some true := by
  unfold checkRange
  rw [run_forM_eq_ok]
  refine forall₂_congr fun lo _ => ?_
  rw [run_forM_eq_ok]
  refine forall₂_congr fun up _ => ?_
  cases h.appFulfills k lo up with
  | none => exact ⟨nofun, nofun⟩
  | some passes =>
      cases passes with
      | false => exact ⟨nofun, nofun⟩
      | true => exact ⟨fun _ => rfl, fun _ => rfl⟩

theorem checkRangesAll_eq_ok {ts : List Ty} : (h.checkRangesAll k ts).run = some (.ok ()) ↔
    ∀ t ∈ ts, (h.checkRanges k t).run = some (.ok ()) := by
  induction ts with
  | nil =>
      rw [checkRangesAll]
      exact ⟨fun _ => nofun, fun _ => rfl⟩
  | cons t ts ih =>
      rw [checkRangesAll, run_check_eq_ok, List.forall_mem_cons, ih]

theorem checkRangesApps_eq_ok {as : List (App Ty)} :
    (h.checkRangesApps k as).run = some (.ok ()) ↔
      ∀ a ∈ as, ∀ t ∈ a.args, (h.checkRanges k t).run = some (.ok ()) := by
  induction as with
  | nil =>
      rw [checkRangesApps]
      exact ⟨fun _ a ha => absurd ha List.not_mem_nil, fun _ => rfl⟩
  | cons a as ih =>
      obtain ⟨f, ts⟩ := a
      rw [checkRangesApps, run_check_eq_ok, List.forall_mem_cons, ih, checkRangesApp,
        checkRangesAll_eq_ok]

/-- The ranges of a variable are its own and those in its bounds. -/
theorem checkRanges_var_eq_ok {v : Var Ty} : (h.checkRanges k (.var v)).run = some (.ok ()) ↔
    (∀ lo ∈ v.lower, ∀ up ∈ v.upper, h.appFulfills k lo up = some true) ∧
      (∀ a ∈ v.lower, ∀ t ∈ a.args, (h.checkRanges k t).run = some (.ok ())) ∧
      ∀ a ∈ v.upper, ∀ t ∈ a.args, (h.checkRanges k t).run = some (.ok ()) := by
  obtain ⟨name, lower, upper⟩ := v
  rw [checkRanges, run_check_eq_ok, run_check_eq_ok, checkRange_eq_ok, checkRangesApps_eq_ok,
    checkRangesApps_eq_ok]

theorem valid_of_checkRanges {t : Ty} (hn : h.isNormal t = true)
    (e : (h.checkRanges k t).run = some (.ok ())) : h.Valid t := by
  induction t using Ty.induct with
  | app f ts ih =>
      rw [isNormal_app] at hn
      obtain ⟨hdecl, hts⟩ := isNormalApp_iff.1 hn
      rw [checkRanges, checkRangesApp, checkRangesAll_eq_ok] at e
      exact valid_app_iff.2 ⟨hdecl, fun t ht => ih t ht (hts t ht) (e t ht)⟩
  | var name lower upper ihl ihu =>
      rw [isNormal_var_iff] at hn
      obtain ⟨hrange, hl, hu⟩ := checkRanges_var_eq_ok.1 e
      have hbound {a : App Ty} (ha : h.isNormalApp a = true)
          (ih : ∀ t ∈ a.args, h.isNormal t = true → h.Valid t) : h.Valid (.app a) := by
        obtain ⟨hdecl, hts⟩ := isNormalApp_iff.1 ha
        exact valid_app_iff.2 ⟨hdecl, fun t ht => ih t ht (hts t ht)⟩
      refine .var (fun a ha => ?_) (fun a ha => ?_) fun lo hlo up hup => ⟨k, hrange lo hlo up hup⟩
      · exact hbound (hn.1 a ha) fun t ht hnt => ihl a ha t ht hnt (hl a ha t ht)
      · exact hbound (hn.2 a ha) fun t ht hnt => ihu a ha t ht hnt (hu a ha t ht)

end Ranges

/-- What `validate` gives is valid, and it is the normal form. -/
theorem valid_of_validate {k : Nat} {t t' : Ty} (e : (h.validate k t).run = some (.ok t')) :
    h.normalize t = .ok t' ∧ h.Valid t' := by
  unfold validate at e
  obtain ⟨s, hs, e⟩ := run_bind_eq_ok.1 e
  rw [run_liftExcept] at hs
  obtain ⟨hranges, e⟩ := run_check_eq_ok.1 e
  cases e
  have hnorm : h.normalize t = .ok t' := Option.some_inj.1 hs
  exact ⟨hnorm, valid_of_checkRanges (isNormal_normalize hnorm) hranges⟩

/-- The ranges of a valid instance pass from some round on. -/
theorem Valid.eventually_checkRanges {t : Ty} (ht : h.Valid t) :
    ∀ᶠ m in Filter.atTop, (h.checkRanges m t).run = some (.ok ()) := by
  -- a bound that passes has arguments that pass
  have hargs {a : App Ty} {m : Nat} (e : (h.checkRanges m (.app a)).run = some (.ok ())) :
      ∀ t ∈ a.args, (h.checkRanges m t).run = some (.ok ()) := by
    obtain ⟨f, ts⟩ := a
    rwa [checkRanges, checkRangesApp, checkRangesAll_eq_ok] at e
  induction ht with
  | @app a n _ _ _ ih =>
      obtain ⟨f, ts⟩ := a
      filter_upwards [eventually_forall_mem ih] with m hm
      rw [checkRanges, checkRangesApp, checkRangesAll_eq_ok]
      exact hm
  | @var v _ _ hrange ihl ihu =>
      have hpass : ∀ᶠ m in Filter.atTop, ∀ lo ∈ v.lower, ∀ up ∈ v.upper,
          h.appFulfills m lo up = some true := by
        refine eventually_forall_mem fun lo hlo => eventually_forall_mem fun up hup => ?_
        obtain ⟨k, hk⟩ := hrange lo hlo up hup
        exact Filter.eventually_atTop.2
          ⟨k, fun m hm => h.appFulfillsWith_keeps (h.fulfills_keeps hm) lo up hk⟩
      filter_upwards [hpass, eventually_forall_mem ihl, eventually_forall_mem ihu] with m hm hl hu
      exact checkRanges_var_eq_ok.2 ⟨hm, fun a ha => hargs (hl a ha), fun a ha => hargs (hu a ha)⟩

/-- A valid normal form is what `validate` gives, from some round on. -/
theorem eventually_validate {t t' : Ty} (hn : h.normalize t = .ok t') (ht : h.Valid t') :
    ∀ᶠ m in Filter.atTop, (h.validate m t).run = some (.ok t') := by
  filter_upwards [ht.eventually_checkRanges] with m hm
  unfold validate
  rw [hn, run_bind_eq_ok]
  exact ⟨t', rfl, run_check_eq_ok.2 ⟨hm, rfl⟩⟩

/-- **Valid instances are given back unchanged**, from some round on. -/
theorem validate_of_valid {t : Ty} (ht : h.Valid t) :
    ∃ k, ∀ m ≥ k, (h.validate m t).run = some (.ok t) :=
  Filter.eventually_atTop.1 (eventually_validate (normalize_of_isNormal ht.isNormal) ht)

/-- An instance that fits has a valid normal form. -/
theorem exists_valid_of_isCompatible {t : Ty} {k : Nat} (hk : h.isCompatible k t = some true) :
    ∃ t', h.normalize t = .ok t' ∧ h.Valid t' := by
  unfold isCompatible at hk
  obtain ⟨r, hr, hk⟩ := Option.bind_eq_some_iff.1 hk
  cases r with
  | error _ => cases hk
  | ok t' => exact ⟨t', valid_of_validate hr⟩

/-! ## 3. Results -/

/-- An operand that fits is looked at as a valid instance. -/
theorem valid_of_operand {k rounds : Nat} {d : Direction} {t t' : Ty}
    (hk : h.isCompatible k t = some true)
    (e : (h.operand rounds d t).run = some (.ok t')) : h.Valid t' := by
  obtain ⟨s, hs, hvalid⟩ := exists_valid_of_isCompatible hk
  rw [normalize_of_operand e] at hs
  cases hs
  exact hvalid

/-- **Nearest common relatives of instances that fit are valid**: every name in them is declared
    and has its number of arguments, every variable has a range, and `validate` gives them back
    unchanged. -/
theorem nearestCommon_valid (hr : Reachable h) {rounds : Nat} {d : Direction}
    {operands results : List Ty} (ho : ∀ o ∈ operands, ∃ k, h.isCompatible k o = some true)
    (e : (h.nearestCommon rounds d operands).run = some (.ok results)) :
    ∀ r ∈ results, h.Valid r ∧ ∃ k, ∀ m ≥ k, (h.validate m r).run = some (.ok r) := by
  obtain ⟨tables, operands', -, hops, hfound⟩ := nearestCommon_run_eq_ok.1 e
  have hvalid : ∀ o ∈ operands', h.Valid o := by
    intro o' hmem
    obtain ⟨o, hmem, hop⟩ := forall₂_exists_left (forall₂_of_run_mapM hops) hmem
    obtain ⟨k, hk⟩ := ho o hmem
    exact valid_of_operand hk hop
  intro r hmem
  have hr' := searchClosed_valid.common (sound_of_reachable hr) rounds hvalid hfound r hmem
  exact ⟨hr', validate_of_valid hr'⟩

/-- Lists of numbers. -/
def shelves : Hierarchy := [
  .declare "number" [],
  .declare "int" [],
  .declare "list" [⟨"t", .covariant⟩],
  .addParent "int" (bareType "number"),
  .finalize].foldl perform empty

/-- A variable between lists of `int` and lists of anything, and one below lists of `number`. -/
def listRanges : List Ty :=
  [.var ⟨"a", [⟨"list", [bareType "int"]⟩], [⟨"list", []⟩]⟩,
    .var ⟨"b", [], [⟨"list", [bareType "number"]⟩]⟩]

/-- The upper bounds are combined, the lower bound is carried over, and the range that results
    passes. -/
theorem shelves_valid : (∀ o ∈ listRanges, ∃ k, shelves.isCompatible k o = some true) ∧
    (shelves.nearestCommon 9 .down listRanges).run = some (.ok
      [.var ⟨"", [⟨"list", [bareType "int"]⟩], [⟨"list", [bareType "number"]⟩]⟩]) ∧
    shelves.Valid (.var ⟨"", [⟨"list", [bareType "int"]⟩], [⟨"list", [bareType "number"]⟩]⟩) := by
  have ho : ∀ o ∈ listRanges, ∃ k, shelves.isCompatible k o = some true := by
    refine List.forall_mem_cons.2 ⟨⟨9, rfl⟩, List.forall_mem_cons.2 ⟨⟨9, rfl⟩, nofun⟩⟩
  have e : (shelves.nearestCommon 9 .down listRanges).run = some (.ok
      [.var ⟨"", [⟨"list", [bareType "int"]⟩], [⟨"list", [bareType "number"]⟩]⟩]) := rfl
  exact ⟨ho, e, (nearestCommon_valid ⟨_, rfl⟩ ho e _ List.mem_cons_self).1⟩

end Lineage.Hierarchy

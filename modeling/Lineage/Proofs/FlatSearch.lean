import Lineage.Proofs.Closure
import Lineage.Proofs.Flat
import Lineage.Proofs.Rounds
import Lineage.Proofs.Termination

/-!
# The search comes to an end on flat hierarchies

Where all parents are flat, every question for nearest common relatives has an answer in some number
of rounds, whatever the operands are and in both directions.

The measure is how deep instances are nested (`Within`). Arguments are nested less deep than the
instance they belong to, and bounds less deep than their variable. In a flat hierarchy carrying an
instance to a relative gives it nothing deeper than the arguments it had, so what is found is never
nested deeper than the operands were, and can be fed into the search again.
-/

namespace Lineage

/-! ## 1. Depth -/

/-- The instance is nested at most so deep. Variables without bounds are not nested at all. -/
def Within : Nat → Ty → Prop
  | 0, t => t.isFree = true
  | depth + 1, .app a => ∀ t ∈ a.args, Within depth t
  | depth + 1, .var v => ∀ b ∈ v.lower ++ v.upper, Within depth (.app b)

/-- The bounds of a variable without bounds. -/
theorem Var.bounds_eq_nil {v : Var Ty} (hv : (Ty.var v).isFree = true) :
    v.lower ++ v.upper = [] := by
  obtain ⟨name, lower, upper⟩ := v
  simpa [Ty.isFree, Var.isBounded] using hv

theorem within_of_isFree {t : Ty} (ht : t.isFree = true) (depth : Nat) : Within depth t := by
  cases depth with
  | zero => exact ht
  | succ depth =>
      cases t with
      | app a => cases ht
      | var v =>
          show ∀ b ∈ v.lower ++ v.upper, Within depth (.app b)
          rw [Var.bounds_eq_nil ht]
          exact fun b hb => by cases hb

theorem within_anonymous (depth : Nat) : Within depth .anonymous := within_of_isFree rfl depth

theorem Within.succ {depth : Nat} {t : Ty} (ht : Within depth t) : Within (depth + 1) t := by
  induction depth generalizing t with
  | zero => exact within_of_isFree ht 1
  | succ depth ih =>
      cases t with
      | app a => exact fun s hs => ih (ht s hs)
      | var v => exact fun b hb => ih (ht b hb)

theorem Within.mono {depth depth' : Nat} (hle : depth ≤ depth') {t : Ty} (ht : Within depth t) :
    Within depth' t := by
  induction hle with
  | refl => exact ht
  | step _ ih => exact ih.succ

theorem exists_within_all {α : Type} {f : α → Ty} {xs : List α}
    (hx : ∀ x ∈ xs, ∃ depth, Within depth (f x)) : ∃ depth, ∀ x ∈ xs, Within depth (f x) := by
  induction xs with
  | nil => exact ⟨0, fun _ hx => by cases hx⟩
  | cons x xs ih =>
      rw [List.forall_mem_cons] at hx
      obtain ⟨d, hd⟩ := hx.1
      obtain ⟨d', hd'⟩ := ih hx.2
      refine ⟨max d d', List.forall_mem_cons.2 ⟨hd.mono (Nat.le_max_left _ _), fun y hy => ?_⟩⟩
      exact (hd' y hy).mono (Nat.le_max_right _ _)

/-- Every instance is nested only so deep. -/
theorem exists_within (t : Ty) : ∃ depth, Within depth t := by
  have happ (b : App Ty) (hb : ∀ t ∈ b.args, ∃ depth, Within depth t) :
      ∃ depth, Within depth (.app b) := by
    obtain ⟨depth, hd⟩ := exists_within_all hb
    exact ⟨depth + 1, hd⟩
  induction t using Ty.induct with
  | app head args ih => exact happ ⟨head, args⟩ ih
  | var name lower upper hl hu =>
      have hbounds : ∀ b ∈ lower ++ upper, ∃ depth, Within depth (.app b) :=
        List.forall_mem_append.2 ⟨fun b hb => happ b (hl b hb), fun b hb => happ b (hu b hb)⟩
      obtain ⟨depth, hd⟩ := exists_within_all hbounds
      exact ⟨depth + 1, hd⟩

/-- A merge is nested no deeper than what is merged. -/
theorem Within.merge {depth : Nat} {x y z : Ty} (hx : Within depth x) (hy : Within depth y)
    (e : x.merge y = some z) : Within depth z := by
  induction depth generalizing x y z with
  | zero =>
      rcases Ty.merge_cases e with rfl | rfl | ⟨f, xs, ys, zs, rfl, -⟩
      · exact hx
      · exact hy
      · cases hx
  | succ depth ih =>
      rcases Ty.merge_cases e with rfl | rfl | ⟨f, xs, ys, zs, rfl, rfl, rfl, -, hall⟩
      · exact hx
      · exact hy
      · intro z hz
        obtain ⟨x, hmem, y, hmem', e⟩ := hall z hz
        exact ih (hx x hmem) (hy y hmem') e

theorem Within.foldlM_merge {depth : Nat} {first z : Ty} {rest : List Ty}
    (hfirst : Within depth first) (hrest : ∀ x ∈ rest, Within depth x)
    (e : rest.foldlM Ty.merge first = some z) : Within depth z := by
  induction rest generalizing first with
  | nil =>
      cases e
      exact hfirst
  | cons x rest ih =>
      rw [List.forall_mem_cons] at hrest
      obtain ⟨y, hy, e⟩ := Option.bind_eq_some_iff.1 e
      exact ih (hfirst.merge hrest.1 hy) hrest.2 e

/-- The records of a flat hierarchy mention no types. -/
theorem Hierarchy.FlatRecords.argumentAcyclic {h : Hierarchy} (hf : h.FlatRecords)
    (hs : h.Sound) : h.ArgumentAcyclic := by
  refine Hierarchy.argumentAcyclic_of_flat fun n hn e he t ht => ?_
  have hget := (Roster.mem_entries_iff (hs.ancestors_nodup hn)).1 he
  have hflat := hf _ _ e.2 (hs.record_get hn hget) t ht
  cases t with
  | app a => cases hflat
  | var v => rfl

namespace Nearest

open Hierarchy

variable {h : Hierarchy} {tables : Tables} {depth : Nat} (hs : Sound h) (hf : h.FlatRecords)

/-! ## 2. Comparing results -/

section Compare

include hs hf

theorem answered_fulfills_flat (x y : Ty) :
    Answered fun m => (answers h tables m).fulfills x y :=
  answered_fulfills hs (hf.argumentAcyclic hs) x y

theorem answered_appFulfills_flat (a b : App Ty) :
    Answered fun m => h.appFulfillsWith (answers h tables m).fulfills a b :=
  answered_appFulfills hs (hf.argumentAcyclic hs) a b

theorem answered_strictlyFulfills (a b : App Ty) :
    Answered fun m => strictlyFulfills h (answers h tables m) a b := by
  simp only [strictlyFulfills]
  refine Ends.bind (answered_appFulfills_flat hs hf a b) fun ok _ => ?_
  cases ok with
  | false => exact answered_some _
  | true => exact Ends.bind (answered_appFulfills_flat hs hf b a) fun back _ => answered_some _

theorem answered_isNearest (d : Direction) (results : List Ty) (t : Ty) :
    Answered fun m => isNearest h (answers h tables m) d results t := by
  cases t with
  | var v => exact answered_some _
  | app x =>
      simp only [isNearest]
      refine Ends.bind (Answered.anyM fun y _ => ?_) fun nearer _ => answered_some _
      split
      · exact answered_some _
      · cases d with
        | up => exact answered_strictlyFulfills hs hf y x
        | down => exact answered_strictlyFulfills hs hf x y

/-- The nearest results are found in the end, and are some of the results. -/
theorem ends_keepNearest {P : Ty → Prop} (d : Direction) {results : List Ty}
    (hr : ∀ t ∈ results, P t) :
    Ends (fun found => ∀ t ∈ found, P t) fun m => keepNearest h (answers h tables m) d results :=
  Ends.keep hr fun t _ => answered_isNearest hs hf d results t

/-- **A class that combining does not leave** contains all that is found from operands in it. -/
theorem ends_common {P : Ty → Prop}
    (hP : ∀ (d : Direction) (x y : Ty), P x → P y → Ends (fun found => ∀ t ∈ found, P t)
      fun m => combine h tables (answers h tables m) d x y)
    (d : Direction) {operands : List Ty} (ho : ∀ t ∈ operands, P t) :
    Ends (fun found => ∀ t ∈ found, P t) fun m => common h tables m d operands := by
  refine Ends.of_succ ?_
  cases operands with
  | nil => exact ends_some fun _ ht => by cases ht
  | cons first operands =>
      rw [List.forall_mem_cons] at ho
      have hfirst : ∀ t ∈ [first], P t := by
        intro t ht
        rw [List.mem_singleton.1 ht]
        exact ho.1
      refine Ends.foldlM (I := fun found => ∀ t ∈ found, P t)
        (f := fun m => takeIn h tables (answers h tables m) d) hfirst
        fun results hr operand hop => ?_
      simp only [takeIn]
      refine Ends.bind (Ends.mapM fun x hx => hP d x operand (hr x hx) (ho.2 operand hop))
        fun found hfound => ?_
      refine ends_keepNearest hs hf d fun t ht => ?_
      obtain ⟨ts, hts, ht⟩ := List.mem_flatten.1 (mem_distinct ht)
      exact hfound ts hts t ht

end Compare

/-! ## 3. Carrying -/

/-- Whatever is found from operands that are nested at most so deep is nested no deeper. -/
def Contained (h : Hierarchy) (tables : Tables) (depth : Nat) : Prop :=
  ∀ (d : Direction) {operands : List Ty}, (∀ t ∈ operands, Within depth t) →
    Ends (fun found => ∀ t ∈ found, Within depth t) fun m => common h tables m d operands

section Carry

variable {a b : App Ty} {n : Node}

/-- Flat records are matched at once: each parameter gets arguments. -/
theorem ends_matchArgs {patterns values : List Ty} (hp : ∀ p ∈ patterns, p.app? = none)
    (v : Variance) : Ends (fun found => ∀ cs, found = some cs → ∀ c ∈ cs, c.value ∈ values)
      fun m => matchArgs (answers h tables m).constraints v n patterns values := by
  refine Ends.matchAll fun e he => ?_
  obtain ⟨⟨p, x⟩, i⟩ := e
  obtain ⟨hpat, hval⟩ := List.of_mem_zip (List.fst_mem_of_mem_zipIdx he)
  cases p with
  | app a => cases hp _ hpat
  | var w =>
      refine Ends.of_succ (ends_some fun cs e c hc => ?_)
      cases e
      split at hc
      · cases hc
      · rw [List.mem_singleton.1 hc]
        exact hval

include hs hf

theorem answered_fits (uppers lowers : List Ty) (t : Ty) :
    Answered fun m => fits (answers h tables m) uppers lowers t := by
  simp only [fits]
  refine Ends.bind (Answered.allM fun u _ => answered_fulfills_flat hs hf t u) fun ok _ => ?_
  cases ok with
  | false => exact answered_some _
  | true => exact Answered.allM fun l _ => answered_fulfills_flat hs hf l t

/-- Solutions are nested no deeper than the values of the constraints. -/
theorem ends_solutions (hc : Contained h tables depth) {cs : List Constraint}
    (hcs : ∀ c ∈ cs, Within depth c.value) :
    Ends (fun found => ∀ t ∈ found, Within depth t) fun m =>
      solutions (answers h tables m) cs := by
  have hvalues (relation : Variance) :
      ∀ t ∈ valuesOf relation (cs.filter (!·.value.isFree)), Within depth t := by
    intro t ht
    obtain ⟨c, hmem, -, rfl⟩ := mem_valuesOf.1 ht
    exact hcs c (List.mem_filter.1 hmem).1
  unfold solutions
  dsimp only
  split
  · refine ends_some fun t ht => ?_
    rw [List.mem_singleton.1 ht]
    exact within_anonymous depth
  · split
    · rename_i exact exacts hinv
      have hinv' := hvalues .invariant
      rw [hinv, List.forall_mem_cons] at hinv'
      split
      · exact ends_some fun _ ht => by cases ht
      · rename_i value hmerge
        refine Ends.keep (fun t ht => ?_) fun t _ => answered_fits hs hf _ _ t
        rw [List.mem_singleton.1 ht]
        exact hinv'.1.foldlM_merge hinv'.2 hmerge
    · split
      · exact hc .up (hvalues .contravariant)
      · refine (hc .down (hvalues .covariant)).bind fun found hfound => ?_
        exact Ends.keep hfound fun t _ =>
          Answered.allM fun l _ => answered_fulfills_flat hs hf l t

/-- An application is carried down to arguments that are nested no deeper. -/
theorem ends_lowerings (hc : Contained h tables depth) (hn : n ∈ h.nodes)
    (ha : ∀ t ∈ a.args, Within depth t) :
    Ends (fun found => ∀ b ∈ found, ∀ t ∈ b.args, Within depth t) fun m =>
      lowerings h (answers h tables m) a n := by
  unfold lowerings
  split
  · exact ends_some fun _ hb => by cases hb
  · rename_i source hsource
    split
    · exact ends_some fun _ hb => by cases hb
    · rename_i record hrecord
      have hflat := hf _ _ record (hs.record_get hn hrecord)
      refine (ends_matchArgs hflat .covariant).bind fun found hfound => ?_
      cases found with
      | none => exact ends_some fun _ hb => by cases hb
      | some cs =>
          have hcs : ∀ c ∈ cs, Within depth c.value := fun c hm => ha _ (hfound cs rfl c hm)
          refine (Ends.choices fun p _ => ends_solutions hs hf hc fun c hm =>
            hcs c (List.mem_filter.1 hm).1).map fun xss hxss b hb => ?_
          obtain ⟨xs, hxs, rfl⟩ := List.mem_map.1 hb
          exact hxss xs hxs

/-- **Carrying gives nothing deeper** than the arguments there were. -/
theorem ends_carry (hc : Contained h tables depth) (d : Direction) (hn : n ∈ h.nodes)
    (ha : ∀ t ∈ a.args, Within depth t) :
    Ends (fun found => ∀ b ∈ found, ∀ t ∈ b.args, Within depth t) fun m =>
      carry h (answers h tables m) d a n := by
  cases d with
  | down => exact ends_lowerings hs hf hc hn ha
  | up =>
      refine ends_some fun b hb t ht => ?_
      rcases hf.raise_args hs (Option.mem_toList.1 hb) t ht with rfl | hmem
      · exact within_anonymous depth
      · exact ha t hmem

end Carry

/-! ## 4. Combining -/

section Combine

variable {a b : App Ty} {n : Node} (hc : Contained h tables depth)
include hc

theorem ends_combineAt (d : Direction) (v : Variance) {x y : Ty} (hx : Within depth x)
    (hy : Within depth y) : Ends (fun found => ∀ t ∈ found, Within depth t) fun m =>
      combineAt (answers h tables m) d v x y := by
  have hboth : ∀ t ∈ [x, y], Within depth t := by
    intro t ht
    rcases List.mem_pair.1 ht with rfl | rfl
    · exact hx
    · exact hy
  cases v with
  | covariant => exact hc d hboth
  | contravariant => exact hc d.flip hboth
  | invariant => exact ends_some fun t ht => hx.merge hy (Option.mem_toList.1 ht)

theorem ends_combineArgs (d : Direction) (ha : ∀ t ∈ a.args, Within depth t)
    (hb : ∀ t ∈ b.args, Within depth t) :
    Ends (fun found => ∀ c ∈ found, ∀ t ∈ c.args, Within depth t) fun m =>
      combineArgs (answers h tables m) d n a b := by
  refine (Ends.choices (Q := Within depth) fun e he => ?_).map fun xss hxss c hmem => ?_
  · obtain ⟨⟨x, y⟩, i⟩ := e
    obtain ⟨hx, hy⟩ := List.of_mem_zip (List.fst_mem_of_mem_zipIdx he)
    exact ends_combineAt hc d _ (ha x hx) (hb y hy)
  · obtain ⟨xs, hxs, rfl⟩ := List.mem_map.1 hmem
    exact hxss xs hxs

theorem ends_combineBounds (d : Direction) {as bs : List (App Ty)}
    (has : ∀ a ∈ as, Within depth (.app a)) (hbs : ∀ b ∈ bs, Within depth (.app b)) :
    Ends (fun found => ∀ cs, found = some cs → ∀ c ∈ cs, Within depth (.app c)) fun m =>
      combineBounds (answers h tables m) d as bs := by
  unfold combineBounds
  split
  · refine ends_some fun cs e => ?_
    cases e
    exact hbs
  · split
    · refine ends_some fun cs e => ?_
      cases e
      exact has
    · have hall : ∀ t ∈ (as ++ bs).map Ty.app, Within depth t :=
        List.forall_mem_map.2 (List.forall_mem_append.2 ⟨has, hbs⟩)
      refine (hc d hall).bind fun found hfound => ?_
      split
      · exact ends_some fun _ e => by cases e
      · rename_i hfilter
        refine ends_some fun cs e c hmem => ?_
        cases e
        obtain ⟨t, ht, hct⟩ := List.mem_filterMap.1 hmem
        cases t with
        | var v => cases hct
        | app a =>
            cases hct
            exact hfound _ ht

include hs hf

theorem ends_combineVia (d : Direction) (hn : n ∈ h.nodes) (ha : ∀ t ∈ a.args, Within depth t)
    (hb : ∀ t ∈ b.args, Within depth t) :
    Ends (fun found => ∀ c ∈ found, ∀ t ∈ c.args, Within depth t) fun m =>
      combineVia h (answers h tables m) d a b n := by
  refine (ends_carry hs hf hc d hn ha).bind fun as has => ?_
  refine (ends_carry hs hf hc d hn hb).bind fun bs hbs => ?_
  refine Ends.flatten fun e he => ?_
  obtain ⟨x, hx, he⟩ := List.mem_flatMap.1 he
  obtain ⟨y, hy, rfl⟩ := List.mem_map.1 he
  exact ends_combineArgs hc d (has x hx) (hbs y hy)

/-- **Two applications are combined** to applications that are nested no deeper. -/
theorem ends_combineApps (d : Direction) (ha : ∀ t ∈ a.args, Within depth t)
    (hb : ∀ t ∈ b.args, Within depth t) :
    Ends (fun found => ∀ c ∈ found, ∀ t ∈ c.args, Within depth t) fun m =>
      combineApps h tables (answers h tables m) d a b := by
  unfold combineApps
  split
  · refine Ends.flatten fun n hn => ?_
    obtain ⟨i, -, hi⟩ := List.mem_filterMap.1 hn
    exact ends_combineVia hs hf hc d (List.mem_of_getElem? hi) ha hb
  · exact ends_some fun _ hmem => by cases hmem

/-- Nothing but applications is found from applications. -/
theorem ends_common_apps (d : Direction) {as : List (App Ty)}
    (has : ∀ a ∈ as, ∀ t ∈ a.args, Within depth t) :
    Ends (fun found => ∀ t ∈ found, Within (depth + 1) t) fun m =>
      common h tables m d (as.map .app) := by
  have happs : Ends (fun found => ∀ t ∈ found, ∃ a, t = .app a ∧ ∀ t ∈ a.args, Within depth t)
      fun m => common h tables m d (as.map .app) := by
    refine ends_common hs hf (fun d x y hx hy => ?_) d
      (List.forall_mem_map.2 fun a ha => ⟨a, rfl, has a ha⟩)
    obtain ⟨a, rfl, ha⟩ := hx
    obtain ⟨b, rfl, hb⟩ := hy
    refine (ends_combineApps hs hf hc d ha hb).map fun found hfound t ht => ?_
    obtain ⟨c, hmem, rfl⟩ := List.mem_map.1 ht
    exact ⟨c, rfl, hfound c hmem⟩
  refine happs.imp fun found hfound t ht => ?_
  obtain ⟨a, rfl, ha⟩ := hfound t ht
  exact ha

theorem ends_combineVarApp (d : Direction) {v : Var Ty} (hv : Within (depth + 1) (.var v))
    (ha : ∀ t ∈ a.args, Within depth t) :
    Ends (fun found => ∀ t ∈ found, Within (depth + 1) t) fun m =>
      combineVarApp (answers h tables m) d v a := by
  have hfacing : ∀ b ∈ facing d v, ∀ t ∈ b.args, Within depth t := by
    intro b hb
    refine (hv b ?_).succ
    cases d with
    | up => exact List.mem_append_left _ hb
    | down => exact List.mem_append_right _ hb
  unfold combineVarApp
  split
  · refine ends_some fun t ht => ?_
    rw [List.mem_singleton.1 ht]
    exact ha
  · rename_i b bs hbs
    rw [hbs] at hfacing
    exact ends_common_apps hs hf hc d (List.forall_mem_cons.2 ⟨ha, hfacing⟩)

/-- Two variables are combined to one whose bounds are nested no deeper than theirs. -/
theorem ends_combineVars (d : Direction) {v w : Var Ty} (hv : Within (depth + 1) (.var v))
    (hw : Within (depth + 1) (.var w)) :
    Ends (fun found => ∀ t ∈ found, Within (depth + 1) t) fun m =>
      combineVars h (answers h tables m) d v w := by
  have hv' := List.forall_mem_append.1 hv
  have hw' := List.forall_mem_append.1 hw
  simp only [combineVars]
  refine (ends_combineBounds hc d.flip hv'.1 hw'.1).bind fun lower hlower => ?_
  cases lower with
  | none => exact ends_some fun _ ht => by cases ht
  | some lower =>
      refine (ends_combineBounds hc d hv'.2 hw'.2).bind fun upper hupper => ?_
      cases upper with
      | none => exact ends_some fun _ ht => by cases ht
      | some upper =>
          refine Ends.bind (Answered.allM fun lo _ => Answered.allM fun up _ =>
            answered_appFulfills_flat hs hf lo up) fun consistent _ => ?_
          cases consistent with
          | false => exact ends_some fun _ ht => by cases ht
          | true =>
              refine ends_some fun t ht => ?_
              rw [List.mem_singleton.1 ht]
              exact List.forall_mem_append.2 ⟨hlower lower rfl, hupper upper rfl⟩

/-- **One more level**: what is found is nested no deeper than the operands. -/
theorem contained_succ : Contained h tables (depth + 1) := by
  refine fun d operands ho => ends_common hs hf (fun d x y hx hy => ?_) d ho
  cases x with
  | app a =>
      cases y with
      | app b =>
          refine (ends_combineApps hs hf hc d hx hy).map fun found hfound t ht => ?_
          obtain ⟨c, hmem, rfl⟩ := List.mem_map.1 ht
          exact hfound c hmem
      | var w => exact ends_combineVarApp hs hf hc d hy hx
  | var v =>
      cases y with
      | app b => exact ends_combineVarApp hs hf hc d hx hy
      | var w => exact ends_combineVars hs hf hc d hx hy

end Combine

include hs hf in
/-- **Results are nested no deeper than the operands**, and are found in the end. -/
theorem contained (depth : Nat) : Contained h tables depth := by
  induction depth with
  | zero =>
      -- variables without bounds give `_`
      refine fun d operands ho => ends_common hs hf (fun d x y hx hy => ?_) d ho
      cases x with
      | app a => cases hx
      | var v =>
          cases y with
          | app b => cases hy
          | var w =>
              obtain ⟨hvl, hvu⟩ := List.append_eq_nil_iff.1 (Var.bounds_eq_nil hx)
              obtain ⟨hwl, hwu⟩ := List.append_eq_nil_iff.1 (Var.bounds_eq_nil hy)
              simp only [combine, combineVars, hvl, hvu, hwl, hwu]
              refine ends_some fun t ht => ?_
              rw [List.mem_singleton.1 ht]
              rfl
  | succ depth ih => exact contained_succ hs hf ih

end Nearest

namespace Hierarchy

variable {h : Hierarchy}

theorem answered_operand (hs : Sound h) (hac : h.ArgumentAcyclic) (d : Direction) (t : Ty) :
    Answered fun m => (h.operand m d t).run := by
  cases d with
  | down => exact answered_validate hs hac t
  | up =>
      simp only [operand]
      cases h.normalize t with
      | ok t => exact answered_some _
      | error e => exact answered_some _

/-- **Questions for nearest common relatives come to an end** in hierarchies whose parents have
    nothing but parameters and `_` as arguments. Whatever the variances and the operands are, from
    some number of rounds on there is an answer, and more rounds do not change it. -/
theorem nearestCommon_ends (hr : Reachable h) (hf : h.FlatParents) (d : Direction)
    (operands : List Ty) : ∃ k r, ∀ m ≥ k, (h.nearestCommon m d operands).run = some r := by
  have hs := sound_of_reachable hr
  have hrec := hf.record hr
  have hac := hrec.argumentAcyclic hs
  rw [← answered_iff]
  unfold nearestCommon
  cases h.tables with
  | none => exact answered_some _
  | some tables =>
      refine Answered.run_bind (Answered.run_mapM fun t _ => answered_operand hs hac d t)
        fun operands => ?_
      obtain ⟨depth, hdepth⟩ := exists_within_all (f := id) fun t (_ : t ∈ operands) =>
        exists_within t
      exact (Nearest.contained hs hrec depth d hdepth).answered.run_lift

/-- Something between `int` and `number`. -/
def integral (name : String) : Ty := .var ⟨name, [⟨"int", []⟩], [⟨"number", []⟩]⟩

/-- Something below a source, and a sink, of something between `int` and `number`. -/
def looseEnds : List Ty :=
  [.var ⟨"v", [], [⟨"source", [integral "x"]⟩]⟩, .app ⟨"sink", [integral "y"]⟩]

/-- The search goes through the bounds of variables and changes its direction at the sink. -/
theorem channels_answered : Reachable channels ∧ channels.FlatParents ∧
    (channels.nearestCommon 9 .down looseEnds).run = some (.ok
      [.app ⟨"cell", [integral "y", .anonymous]⟩, .app ⟨"port", [integral "y"]⟩]) ∧
    (∃ k r, ∀ m ≥ k, (channels.nearestCommon m .down looseEnds).run = some r) ∧
    ∃ k r, ∀ m ≥ k, (channels.nearestCommon m .up looseEnds).run = some r := by
  have hr : Reachable channels := ⟨_, rfl⟩
  have hf : channels.FlatParents := by decide
  exact ⟨hr, hf, rfl, nearestCommon_ends hr hf .down looseEnds,
    nearestCommon_ends hr hf .up looseEnds⟩

end Hierarchy

end Lineage

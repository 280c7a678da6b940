import Lineage.Proofs.CommonBound
import Lineage.Proofs.Ending
import Mathlib.Data.Finset.Card
import Mathlib.Data.Finset.Filter
import Mathlib.Order.GameAdd

/-!
# Subtyping comes to an end

If no type comes back to itself through the names in the arguments of its records
(`ArgumentAcyclic`), every question about subtyping has an answer in some number of rounds, and the
same one in every larger number.

* `wellFounded_piece`: raising an instance and taking its arguments or bounds comes to an end,
  though the arguments of a raised instance may be larger than the instance was.
* `wellFounded_subquestion`: a question asks about two parts, or about a part of one side and the
  whole other side. The sides may be exchanged, so what gets smaller is the unordered pair.
-/

namespace Lineage

open Relation

/-! ## 1. Names in records -/

theorem Ty.mem_namesAll {u : String} (ts : List Ty) :
    u ∈ Ty.namesAll ts ↔ ∃ t ∈ ts, u ∈ t.names := by
  induction ts with
  | nil => simp [Ty.namesAll]
  | cons t ts ih => simp [Ty.namesAll, ih]

theorem Ty.mem_names_app {u f : String} {as : List Ty} :
    u ∈ (Ty.app ⟨f, as⟩).names ↔ u = f ∨ ∃ t ∈ as, u ∈ t.names := by
  rw [Ty.names, App.names, List.mem_cons, Ty.mem_namesAll]

namespace Hierarchy

variable {h : Hierarchy}

theorem isSome_find?_of_mem_names {t : Ty} (ht : h.isNormal t = true) {u : String}
    (hu : u ∈ t.names) : (h.find? u).isSome = true := by
  induction t using Ty.induct with
  | app f as ih =>
      obtain ⟨⟨n, hn, -⟩, has⟩ := isNormalApp_iff.1 (isNormal_app.symm.trans ht)
      rcases Ty.mem_names_app.1 hu with rfl | ⟨t, hm, hu⟩
      · exact Option.isSome_iff_exists.2 ⟨n, hn⟩
      · exact ih t hm (has t hm) hu
  | var name lower upper => simp [Ty.names] at hu

/-- A relation into a finite set without cycles comes to an end. -/
theorem wellFounded_of_acyclic {α : Type} {r : α → α → Prop} (s : Finset α)
    (hr : ∀ {a b : α}, r a b → b ∈ s) (hac : ∀ a, ¬ TransGen r a a) :
    WellFounded fun b a => r a b := by
  classical
  let after (a : α) : Finset α := s.filter (TransGen r a)
  refine Subrelation.wf ?_ (measure fun a => (after a).card).wf
  intro b a hab
  refine Finset.card_lt_card (Finset.ssubset_iff_subset_ne.2 ⟨?_, ?_⟩)
  · intro c hc
    obtain ⟨hcs, hbc⟩ := Finset.mem_filter.1 hc
    exact Finset.mem_filter.2 ⟨hcs, .head hab hbc⟩
  · intro e
    have hb : b ∈ after a := Finset.mem_filter.2 ⟨hr hab, .single hab⟩
    rw [← e] at hb
    exact hac b (Finset.mem_filter.1 hb).2

theorem wellFounded_mentions (hs : Sound h) (hac : h.ArgumentAcyclic) :
    WellFounded fun other name => h.Mentions name other := by
  classical
  refine wellFounded_of_acyclic (h.nodes.map Node.name).toFinset (fun {name other} hm => ?_) hac
  obtain ⟨n, hn, -, e, he, t, ht, ho⟩ := hm
  have hget := (Roster.mem_entries_iff (hs.ancestors_nodup hn)).1 he
  have hargs := (isNormalApp_iff.1 (isNormal_app.symm.trans (hs.isNormal_record hn hget))).2
  obtain ⟨k, hk⟩ := Option.isSome_iff_exists.1 (isSome_find?_of_mem_names (hargs t ht) ho)
  exact List.mem_toFinset.2 (List.mem_map.2 ⟨k, find?_mem hk, find?_name hk⟩)

/-- Ranks for the types that fall from a type to those that it mentions. -/
theorem argumentAcyclic_of_rank (rank : String → Nat)
    (hrank : ∀ n ∈ h.nodes, ∀ e ∈ n.ancestors.entries, ∀ t ∈ e.2.args, ∀ u ∈ t.names,
      rank u < rank n.name) : h.ArgumentAcyclic := by
  intro name hcycle
  have hfalls : ∀ {other}, TransGen h.Mentions name other → rank other < rank name := by
    intro other hpath
    have hstep {a b : String} (hab : h.Mentions a b) : rank b < rank a := by
      obtain ⟨n, hn, rfl, e, he, t, ht, hu⟩ := hab
      exact hrank n hn e he t ht b hu
    induction hpath with
    | single hab => exact hstep hab
    | tail _ hbc ih => exact (hstep hbc).trans ih
  exact Nat.lt_irrefl _ (hfalls hcycle)

/-! ## 2. Parts -/

/-- An argument of an application, raised first or not, or a bound of a variable. -/
inductive Piece (h : Hierarchy) : Ty → Ty → Prop where
  | arg {a : App Ty} {s : Ty} : s ∈ a.args → Piece h s (.app a)
  | raised {a b : App Ty} {target : Nat} {s : Ty} : h.raise a target = some b → s ∈ b.args →
      Piece h s (.app a)
  | bound {v : Var Ty} {b : App Ty} : b ∈ v.lower ++ v.upper → Piece h (.app b) (.var v)

/-- Putting in instances from which only finitely many steps are possible, for a pattern whose
    names are safe. -/
theorem acc_mapVars {n : Node} {args : List Ty} (ha : ∀ t ∈ args, Acc h.Piece t) {p : Ty}
    (hp : ∀ u ∈ p.names, ∀ ts : List Ty, (∀ t ∈ ts, Acc h.Piece t) →
      Acc h.Piece (.app ⟨u, ts⟩)) : Acc h.Piece (p.mapVars (n.argument args)) := by
  induction p using Ty.induct with
  | app f as ih =>
      rw [Ty.mapVars_app, App.mapVars_eq]
      refine hp f (Ty.mem_names_app.2 (Or.inl rfl)) _ fun t ht => ?_
      obtain ⟨q, hq, rfl⟩ := List.mem_map.1 ht
      exact ih q hq fun u hu => hp u (Ty.mem_names_app.2 (Or.inr ⟨q, hq, hu⟩))
  | var name lower upper =>
      rw [Ty.mapVars_var]
      rcases n.argument_eq_or_mem args ⟨name, lower, upper⟩ with e | hm
      · rw [e]
        refine ⟨_, fun s hs => ?_⟩
        cases hs with
        | bound hb => cases hb
      · exact ha _ hm

/-- **Raising and taking parts comes to an end**, whatever the instance. The arguments of a raised
    instance are built from what the type mentions and from the arguments it had. -/
theorem wellFounded_piece (hs : Sound h) (hac : h.ArgumentAcyclic) : WellFounded h.Piece := by
  have happ (name : String) : ∀ args : List Ty, (∀ t ∈ args, Acc h.Piece t) →
      Acc h.Piece (.app ⟨name, args⟩) := by
    -- the type comes before what it mentions, its arguments are done already
    induction name using (wellFounded_mentions hs hac).induction with
    | _ name ih =>
        intro args ha
        refine ⟨_, fun s hsm => ?_⟩
        cases hsm with
        | arg hsa => exact ha s hsa
        | raised hb hsb =>
            obtain ⟨n, r, hn, hr, rfl⟩ := raise_eq_some.1 hb
            rw [Node.args_substitute] at hsb
            obtain ⟨p, hp, rfl⟩ := List.mem_map.1 hsb
            refine acc_mapVars ha fun u hu => ih u ?_
            have hm := find?_mem hn
            exact ⟨n, hm, find?_name hn, _, hs.mem_entries hm hr, p, hp, hu⟩
  refine ⟨fun t => ?_⟩
  induction t using Ty.induct with
  | app f as ih => exact happ f as ih
  | var name lower upper hl hu =>
      refine ⟨_, fun s hsm => ?_⟩
      cases hsm with
      | @bound _ b hb =>
          rcases List.mem_append.1 hb with hb | hb
          · exact happ b.head b.args (hl b hb)
          · exact happ b.head b.args (hu b hb)

/-! ## 3. What a question asks -/

/-- The first question is asked to answer the second. -/
inductive Subquestion (h : Hierarchy) : Ty × Ty → Ty × Ty → Prop where
  | lower {v : Var Ty} {l : App Ty} {x : Ty} : l ∈ v.lower → Subquestion h (.app l, x) (x, .var v)
  | upper {v : Var Ty} {u : App Ty} {x : Ty} : u ∈ v.upper → Subquestion h (x, .app u) (x, .var v)
  | args {a b raised : App Ty} {target : Nat} {s t : Ty} : h.raise a target = some raised →
      s ∈ raised.args → t ∈ b.args → Subquestion h (s, t) (.app a, .app b)
  | swapped {a b raised : App Ty} {target : Nat} {s t : Ty} : h.raise a target = some raised →
      s ∈ raised.args → t ∈ b.args → Subquestion h (t, s) (.app a, .app b)
  | bound {v : Var Ty} {l b : App Ty} {p : Ty × Ty} : l ∈ v.lower →
      Subquestion h p (.app l, .app b) → Subquestion h p (.var v, .app b)

/-- What is asked is about parts, on one side at least. -/
theorem Subquestion.smaller {p q : Ty × Ty} (hpq : h.Subquestion p q) :
    TransGen (Sym2.GameAdd h.Piece) s(p.1, p.2) s(q.1, q.2) := by
  induction hpq with
  | lower hl => exact .single (.fst_snd (.bound (List.mem_append_left _ hl)))
  | upper hu => exact .single (.snd (.bound (List.mem_append_right _ hu)))
  | args hr hs ht => exact .tail (.single (.snd (.arg ht))) (.fst (.raised hr hs))
  | swapped hr hs ht => exact .tail (.single (.fst_snd (.arg ht))) (.fst (.raised hr hs))
  | bound hl _ ih => exact .tail ih (.fst (.bound (List.mem_append_left _ hl)))

/-- **The rules of subtyping come to an end.** -/
theorem wellFounded_subquestion (hs : Sound h) (hac : h.ArgumentAcyclic) :
    WellFounded h.Subquestion :=
  Subrelation.wf Subquestion.smaller
    (InvImage.wf (fun p : Ty × Ty => s(p.1, p.2)) (wellFounded_piece hs hac).sym2_gameAdd.transGen)

/-! ## 4. Answers -/

section Answers

variable {r : Nat → Ty → Ty → Option Bool}

theorem answered_agreeAt (v : Variance) {x y : Ty} (hxy : Answered fun m => r m x y)
    (hyx : Answered fun m => r m y x) : Answered fun m => agreeAt (r m) v x y := by
  cases v with
  | covariant => exact hxy
  | contravariant => exact hyx
  | invariant => exact answered_some _

theorem answered_appFulfillsWith {a b : App Ty}
    (hr : ∀ p, h.Subquestion p (.app a, .app b) → Answered fun m => r m p.1 p.2) :
    Answered fun m => h.appFulfillsWith (r m) a b := by
  unfold appFulfillsWith
  cases hn : h.find? b.head with
  | none => exact answered_some _
  | some n =>
      dsimp only
      cases hraise : h.raise a n.id with
      | none => exact answered_some _
      | some raised =>
          refine Answered.allM fun e he => ?_
          obtain ⟨⟨x, y⟩, i⟩ := e
          have hmem := List.of_mem_zip (List.fst_mem_of_mem_zipIdx he)
          exact answered_agreeAt _ (hr (x, y) (.args hraise hmem.1 hmem.2))
            (hr (y, x) (.swapped hraise hmem.1 hmem.2))

/-- A round has an answer if what it asks has. -/
theorem answered_fulfillsWith {x y : Ty}
    (hr : ∀ p, h.Subquestion p (x, y) → Answered fun m => r m p.1 p.2) :
    Answered fun m => h.fulfillsWith (r m) x y := by
  cases y with
  | var v =>
      simp only [fulfillsWith, betweenBounds]
      refine Ends.bind (Answered.allM fun l hl => hr (.app l, x) (.lower hl)) fun b _ => ?_
      cases b with
      | false => exact answered_some _
      | true => exact Answered.allM fun u hu => hr (x, .app u) (.upper hu)
  | app b =>
      cases x with
      | app a => exact answered_appFulfillsWith hr
      | var v =>
          simp only [fulfillsWith, varFulfillsWith]
          cases v.isBounded with
          | false => exact answered_some _
          | true =>
              have hlower : ∀ l ∈ v.lower, Answered fun m => h.appFulfillsWith (r m) l b :=
                fun l hl => answered_appFulfillsWith fun p hp => hr p (.bound hl hp)
              refine Ends.bind (Answered.allM hlower) fun ok _ => ?_
              cases ok with
              | false => exact answered_some _
              | true => exact answered_some _

end Answers

theorem answered_checkRangesAll {ts : List Ty}
    (hts : ∀ t ∈ ts, Answered fun m => (h.checkRanges m t).run) :
    Answered fun m => (h.checkRangesAll m ts).run := by
  induction ts with
  | nil => exact answered_some _
  | cons t ts ih =>
      rw [List.forall_mem_cons] at hts
      simp only [checkRangesAll]
      exact hts.1.run_bind fun _ => ih hts.2

theorem answered_checkRangesApps {as : List (App Ty)}
    (has : ∀ a ∈ as, ∀ t ∈ a.args, Answered fun m => (h.checkRanges m t).run) :
    Answered fun m => (h.checkRangesApps m as).run := by
  induction as with
  | nil => exact answered_some _
  | cons a as ih =>
      rw [List.forall_mem_cons] at has
      obtain ⟨head, args⟩ := a
      simp only [checkRangesApps, checkRangesApp]
      exact (answered_checkRangesAll has.1).run_bind fun _ => ih has.2

section Acyclic

variable (hs : Sound h) (hac : h.ArgumentAcyclic)
include hs hac

/-- **Every question about subtyping has an answer.** -/
theorem answered_fulfills (x y : Ty) : Answered fun m => h.fulfills m x y := by
  suffices hall : ∀ p : Ty × Ty, Answered fun m => h.fulfills m p.1 p.2 from hall (x, y)
  intro p
  induction p using (wellFounded_subquestion hs hac).induction with
  | _ p ih => exact Ends.of_succ (answered_fulfillsWith ih)

theorem answered_appFulfills (a b : App Ty) : Answered fun m => h.appFulfills m a b :=
  Ends.succ (answered_fulfills hs hac (.app a) (.app b))

theorem answered_checkRange (v : Var Ty) : Answered fun m => (h.checkRange m v).run := by
  refine Answered.run_forM fun lower _ => Answered.run_forM fun upper _ => ?_
  refine Answered.run_bind (answered_appFulfills hs hac lower upper).run_lift fun ok => ?_
  cases ok with
  | false => exact answered_some _
  | true => exact answered_some _

/-- The ranges of all variables are checked in the end. -/
theorem answered_checkRanges (t : Ty) : Answered fun m => (h.checkRanges m t).run := by
  induction t using Ty.induct with
  | app head args ih =>
      simp only [checkRanges, checkRangesApp]
      exact answered_checkRangesAll ih
  | var name lower upper hl hu =>
      simp only [checkRanges]
      refine (answered_checkRange hs hac _).run_bind fun _ => ?_
      exact (answered_checkRangesApps hl).run_bind fun _ => answered_checkRangesApps hu

theorem answered_validate (t : Ty) : Answered fun m => (h.validate m t).run := by
  simp only [validate]
  refine Answered.run_bind ?_ fun t => ?_
  · cases h.normalize t with
    | ok t => exact answered_some _
    | error e => exact answered_some _
  · exact (answered_checkRanges hs hac t).run_bind fun _ => answered_some _

end Acyclic

/-- **Subtyping comes to an end** if no type mentions itself in its records, directly or through
    others. Whatever the instances are, from some number of rounds on it is settled whether one
    fulfills the other and whether an instance fits, and more rounds do not change the answer. -/
theorem subtyping_ends (hr : Reachable h) (hac : h.ArgumentAcyclic) (provided expected : Ty) :
    (∃ k b, ∀ m ≥ k, h.typeFulfills m provided expected = some b) ∧
      ∃ k b, ∀ m ≥ k, h.isCompatible m provided = some b := by
  have hs := sound_of_reachable hr
  have hprovided := answered_validate hs hac provided
  have hexpected := answered_validate hs hac expected
  rw [← answered_iff, ← answered_iff]
  constructor
  · simp only [typeFulfills]
    refine hprovided.bind fun p _ => hexpected.bind fun e _ => ?_
    cases p with
    | error e => exact answered_some _
    | ok p =>
        cases e with
        | error e => exact answered_some _
        | ok e => exact answered_fulfills hs hac p e
  · simp only [isCompatible]
    refine hprovided.bind fun p _ => ?_
    cases p with
    | error e => exact answered_some _
    | ok p => exact answered_some _

/-- A matrix is a sequence of sequences, a ledger a matrix of sinks. -/
def ledgers : Hierarchy := [
  .declare "number" [],
  .declare "int" [],
  .declare "seq" [⟨"t", .covariant⟩],
  .declare "sink" [⟨"t", .contravariant⟩],
  .declare "matrix" [⟨"t", .covariant⟩],
  .declare "ledger" [],
  .addParent "int" (bareType "number"),
  .addParent "matrix" (.app ⟨"seq", [.app ⟨"seq", [.var (.free "t")]⟩]⟩),
  .addParent "ledger" (.app ⟨"matrix", [.app ⟨"sink", [bareType "int"]⟩]⟩)].foldl perform empty

/-- Sequences of sequences of something between a sink of `number` and a sink of `int`. -/
def slots : Ty := .app ⟨"seq", [.app ⟨"seq", [.var
  ⟨"x", [⟨"sink", [bareType "number"]⟩], [⟨"sink", [bareType "int"]⟩]⟩]⟩]⟩

/-- A ledger is raised to something larger, and then compared with bounds on both sides. -/
theorem ledgers_settled : Reachable ledgers ∧ ledgers.ArgumentAcyclic ∧
    ledgers.typeFulfills 9 (bareType "ledger") slots = some true ∧
    (∃ k b, ∀ m ≥ k, ledgers.typeFulfills m (bareType "ledger") slots = some b) ∧
    ∃ k b, ∀ m ≥ k, ledgers.isCompatible m (bareType "ledger") = some b := by
  have hr : Reachable ledgers := ⟨_, rfl⟩
  have hac : ledgers.ArgumentAcyclic :=
    argumentAcyclic_of_rank (fun name => if name = "ledger" then 2 else if name = "matrix" then 1
      else 0) (by decide)
  exact ⟨hr, hac, rfl, subtyping_ends hr hac (bareType "ledger") slots⟩

end Hierarchy

end Lineage

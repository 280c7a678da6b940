import Lineage.Proofs.Absorption
import Lineage.Proofs.Antichain

/-!
# Operands that change nothing

An operand changes nothing if every result so far is combined with it to itself: what comes out is
settled already, so it is kept as it is (`Settled.takeIn_eq_self`).

* Copies of a ground instance give the instance, which absorbs itself (`common_replicate`).
* Variables without bounds among applications change nothing: an application combined with such a
  variable stays what it is (`Settled.foldlM_filter`). Where they come first, they give way to the
  first application (`foldlM_free`).
-/

namespace Lineage

open Nearest

/-! ## 1. Lists -/

section Lists

variable {α β ε : Type} {f : α → ExceptT ε Option α} {p : α → Bool}

/-- Members that are given back as they are can be left out, if what follows does not look at
    them. -/
theorem mapM_bind_filter {xs : List α} {g g' : List α → ExceptT ε Option β}
    (hskip : ∀ x ∈ xs, p x = false → f x = pure x)
    (hkeep : ∀ x ∈ xs, p x = true → ∀ y, (f x).run = some (.ok y) → p y = true)
    (hg : ∀ ys, List.Forall₂ (fun x y => (f x).run = some (.ok y)) xs ys →
      g ys = g' (ys.filter p)) :
    xs.mapM f >>= g = (xs.filter p).mapM f >>= g' := by
  induction xs generalizing g g' with
  | nil =>
      rw [List.filter_nil, List.mapM_nil, pure_bind, pure_bind]
      exact hg [] .nil
  | cons x xs ih =>
      rw [List.forall_mem_cons] at hskip hkeep
      cases hp : p x with
      | false =>
          have hx := hskip.1 hp
          have hneg : ¬ p x = true := by simp [hp]
          rw [List.filter_cons_of_neg hneg, List.mapM_cons, hx]
          simp only [pure_bind, bind_assoc]
          refine ih hskip.2 hkeep.2 fun ys hys => ?_
          rw [hg (x :: ys) (.cons (by rw [hx]; rfl) hys), List.filter_cons_of_neg hneg]
      | true =>
          rw [List.filter_cons_of_pos hp, List.mapM_cons, List.mapM_cons]
          simp only [pure_bind, bind_assoc]
          refine ExceptT.ext ?_
          rw [ExceptT.run_bind, ExceptT.run_bind]
          cases hx : (f x).run with
          | none => rfl
          | some r =>
              cases r with
              | error e => rfl
              | ok y =>
                  -- the member is read, and the rest is read behind it
                  refine congrArg ExceptT.run (ih hskip.2 hkeep.2 fun ys hys => ?_)
                  rw [hg (y :: ys) (.cons hx hys), List.filter_cons_of_pos (hkeep.1 hp y hx)]

end Lists

theorem Ty.isFree_iff {t : Ty} : t.isFree = true ↔ ∃ name, t = .var (.free name) := by
  cases t with
  | app a => simp [Ty.isFree]
  | var v =>
      obtain ⟨name, lower, upper⟩ := v
      simp [Ty.isFree, Var.isBounded, Var.free]

namespace Hierarchy

variable {h : Hierarchy} {tables : Tables} {q : Answers} {d : Direction}

/-! ## 2. Taking in an operand -/

/-- **An operand with which every result is combined to itself changes nothing.** -/
theorem Settled.takeIn_eq_self {results : List Ty} {t : Ty} (hs : h.Settled q d results)
    (hc : ∀ r ∈ results, combine h tables q d r t = some [r]) :
    takeIn h tables q d results t = some results := by
  have hmap : results.mapM (combine h tables q d · t) = some (results.map fun r => [r]) := by
    rw [mapM_eq_some, List.forall₂_map_right_iff, List.forall₂_same]
    exact hc
  have hflat : (results.map fun r => [r]).flatten = results := by
    rw [← List.flatMap_def, List.flatMap_singleton']
  rw [takeIn, hmap, Option.bind_eq_bind, Option.bind_some, hflat, hs.apart.distinct_eq, hs.kept]

/-- A single result that is combined with an operand to another one. -/
theorem takeIn_single {r s t : Ty} (hc : combine h tables q d r t = some [s]) :
    takeIn h tables q d [r] t = some [s] := by
  rw [takeIn, List.mapM_cons, hc]
  exact keepNearest_single q d s

/-! ## 3. Copies of an instance -/

/-- If two copies of an instance are combined to it, any number of copies are. -/
theorem common_replicate {k : Nat} {x : Ty}
    (e : Nearest.common h tables k d [x, x] = some [x]) (n : Nat) :
    Nearest.common h tables k d (List.replicate (n + 1) x) = some [x] := by
  cases k with
  | zero => cases e
  | succ k =>
      obtain ⟨found, hfound, hkept⟩ := common_pair.1 e
      have htake : takeIn h tables (answers h tables k) d [x] x = some [x] := by
        rw [takeIn, List.mapM_cons, hfound]
        simpa using hkept
      show (List.replicate n x).foldlM (takeIn h tables (answers h tables k) d) [x] = some [x]
      induction n with
      | zero => rfl
      | succ n ih =>
          rw [List.replicate_succ, List.foldlM_cons, htake]
          exact ih

/-- **Common relatives are idempotent.** In every finalized hierarchy without nameless parameters,
    the nearest common ancestors of any number of copies of a ground instance are found, and there
    is only the instance; and so are the nearest common descendants. -/
theorem nearestCommon_replicate (hr : Reachable h) (hf : h.isFinalized = true) (hn : Named h)
    {x : Ty} (hx : h.isGround x = true) :
    ∃ k, ∀ m ≥ k, ∀ (d : Direction) (n : Nat),
      (h.nearestCommon m d (List.replicate (n + 1) x)).run = some (.ok [x]) := by
  have S := sound_of_reachable hr
  obtain ⟨tables, htab⟩ := Option.isSome_iff_exists.1 hf
  have hg := isGround_iff.1 hx
  have hs : h.Sketch x := hg.toOver
  have habs (d : Direction) : h.Absorbs tables d x x :=
    absorbs_of_covers S htab hn hs hg (Ty.covers_refl x)
  obtain ⟨k, hk⟩ := Filter.eventually_atTop.1 ((habs .up).and (habs .down))
  refine ⟨k, fun m hm d n => ?_⟩
  have hpair : Nearest.common h tables m d [x, x] = some [x] := by
    cases d with
    | up => exact (hk m hm).1.1
    | down => exact (hk m hm).2.1
  refine (nearestCommon_eq_ok fun o ho => ?_).2 ⟨tables, htab, common_replicate hpair n⟩
  rw [List.eq_of_mem_replicate ho]
  exact hs

/-- Three copies of a source of sinks of cells: the search goes down, up and down again, and merges
    at the bottom. -/
theorem channels_copies : Named channels ∧ channels.isGround cellSinks = true ∧
    (channels.nearestCommon 9 .down [cellSinks, cellSinks, cellSinks]).run =
      some (.ok [cellSinks]) ∧
    ∃ k, ∀ m ≥ k, ∀ (d : Direction) (n : Nat),
      (channels.nearestCommon m d (List.replicate (n + 1) cellSinks)).run =
        some (.ok [cellSinks]) := by
  have hn : Named channels := by decide
  exact ⟨hn, rfl, by decide +kernel, nearestCommon_replicate ⟨_, rfl⟩ rfl hn rfl⟩

/-! ## 4. Variables without bounds -/

/-- An application, or a variable without bounds. -/
inductive AppOrFree : Ty → Prop where
  | app (a : App Ty) : AppOrFree (.app a)
  | free (name : String) : AppOrFree (.var (.free name))

/-- Applications combined with an application are applications. -/
theorem exists_app_of_takeIn {results next : List Ty} {a : App Ty}
    (hr : ∀ r ∈ results, ∃ b, r = .app b) (e : takeIn h tables q d results (.app a) = some next) :
    ∀ r ∈ next, ∃ b, r = .app b := by
  intro r hmem
  obtain ⟨found, hfound, e⟩ := Option.bind_eq_some_iff.1 e
  obtain ⟨t, ht, zs, hzs, hz⟩ := mem_flatten_mapM hfound (mem_distinct (keep_eq_some e r hmem).1)
  obtain ⟨b, rfl⟩ := hr t ht
  obtain ⟨cs, -, e⟩ := Option.bind_eq_some_iff.1 hzs
  cases e
  obtain ⟨c, -, rfl⟩ := List.mem_map.1 hz
  exact ⟨c, rfl⟩

/-- **Behind an application, variables without bounds can be left out.** The induction is on the
    operands; after each of them the results are settled applications. -/
theorem Settled.foldlM_filter {results ts : List Ty} (hs : h.Settled q d results)
    (hr : ∀ r ∈ results, ∃ a, r = .app a) (hts : ∀ t ∈ ts, AppOrFree t) :
    ts.foldlM (takeIn h tables q d) results =
      (ts.filter (!·.isFree)).foldlM (takeIn h tables q d) results := by
  induction ts generalizing results with
  | nil => rfl
  | cons t ts ih =>
      rw [List.forall_mem_cons] at hts
      cases hts.1 with
      | free name =>
          have hself : takeIn h tables q d results (.var (.free name)) = some results := by
            refine hs.takeIn_eq_self fun r hmem => ?_
            obtain ⟨a, rfl⟩ := hr r hmem
            exact combineVarApp_free
          rw [List.filter_cons_of_neg Bool.false_ne_true, List.foldlM_cons, hself]
          exact ih hs hr hts.2
      | app a =>
          rw [List.filter_cons_of_pos rfl, List.foldlM_cons, List.foldlM_cons]
          cases hnext : takeIn h tables q d results (.app a) with
          | none => rfl
          | some next => exact ih (settled_takeIn hnext) (exists_app_of_takeIn hr hnext) hts.2

theorem foldlM_filter_app {ts : List Ty} (hts : ∀ t ∈ ts, AppOrFree t) (a : App Ty) :
    ts.foldlM (takeIn h tables q d) [.app a] =
      (ts.filter (!·.isFree)).foldlM (takeIn h tables q d) [.app a] :=
  (settled_single _).foldlM_filter (List.forall_mem_singleton.2 ⟨a, rfl⟩) hts

/-- **In front of the first application they give way to it.** -/
theorem foldlM_free {ts rest : List Ty} {a : App Ty} (hts : ∀ t ∈ ts, AppOrFree t)
    (hrest : ts.filter (!·.isFree) = .app a :: rest) (name : String) :
    ts.foldlM (takeIn h tables q d) [.var (.free name)] =
      rest.foldlM (takeIn h tables q d) [.app a] := by
  induction ts generalizing name with
  | nil => cases hrest
  | cons t ts ih =>
      rw [List.forall_mem_cons] at hts
      cases hts.1 with
      | free name' =>
          have htake : takeIn h tables q d [.var (.free name)] (.var (.free name')) =
              some [.var (.free "")] := takeIn_single rfl
          rw [List.filter_cons_of_neg Bool.false_ne_true] at hrest
          rw [List.foldlM_cons, htake]
          exact ih hts.2 hrest ""
      | app b =>
          have htake : takeIn h tables q d [.var (.free name)] (.app b) = some [.app b] :=
            takeIn_single combineVarApp_free
          rw [List.filter_cons_of_pos rfl] at hrest
          cases hrest
          rw [List.foldlM_cons, htake]
          exact foldlM_filter_app hts.2 _

/-- The search does not depend on variables without bounds, if there are applications. -/
theorem common_filter (k : Nat) {ts : List Ty} (hts : ∀ t ∈ ts, AppOrFree t)
    (hne : ts.filter (!·.isFree) ≠ []) : Nearest.common h tables k d ts =
      Nearest.common h tables k d (ts.filter (!·.isFree)) := by
  cases k with
  | zero => rfl
  | succ k =>
      rw [Nearest.common, Nearest.common]
      cases ts with
      | nil => rfl
      | cons t ts =>
          rw [List.forall_mem_cons] at hts
          cases hts.1 with
          | app a => exact foldlM_filter_app hts.2 a
          | free name =>
              rw [List.filter_cons_of_neg Bool.false_ne_true] at hne ⊢
              obtain ⟨u, rest, hrest⟩ := List.exists_cons_of_ne_nil hne
              obtain ⟨hmem, hu⟩ := List.mem_filter.1 (hrest ▸ List.mem_cons_self)
              rw [hrest]
              cases hts.2 u hmem with
              | app a => exact foldlM_free hts.2 hrest name
              | free name => cases hu

/-- A variable without bounds is accepted as it is, and an application as an application. -/
theorem AppOrFree.operand {k : Nat} {t u : Ty} (ht : AppOrFree t)
    (e : (h.operand k d t).run = some (.ok u)) : AppOrFree u ∧ u.isFree = t.isFree := by
  have hnorm := normalize_of_operand e
  cases ht with
  | app a =>
      rw [normalize] at hnorm
      obtain ⟨b, -, e⟩ := bind_eq_ok.1 hnorm
      obtain rfl := pure_eq_ok.1 e
      exact ⟨.app b, rfl⟩
  | free name =>
      rw [normalize_of_isNormal isNormal_free] at hnorm
      cases hnorm
      exact ⟨.free name, rfl⟩

/-- **Variables without bounds are neutral operands.** Put among applications in any number, under
    any names and at any positions, they leave every answer as it is. -/
theorem nearestCommon_filter (h : Hierarchy) (k : Nat) (d : Direction) {apps : List (App Ty)}
    (hne : apps ≠ []) {mixed : List Ty} (hm : mixed.filter (!·.isFree) = apps.map .app) :
    h.nearestCommon k d mixed = h.nearestCommon k d (apps.map .app) := by
  have hmixed : ∀ t ∈ mixed, AppOrFree t := by
    intro t ht
    cases hfree : t.isFree with
    | true =>
        obtain ⟨name, rfl⟩ := Ty.isFree_iff.1 hfree
        exact .free name
    | false =>
        have hmem : t ∈ mixed.filter (!·.isFree) := List.mem_filter.2 ⟨ht, by simp [hfree]⟩
        rw [hm] at hmem
        obtain ⟨a, -, rfl⟩ := List.mem_map.1 hmem
        exact .app a
  obtain ⟨a, rest, rfl⟩ := List.exists_cons_of_ne_nil hne
  have hfirst : .app a ∈ mixed := by
    refine List.mem_of_mem_filter (p := fun t : Ty => !t.isFree) ?_
    rw [hm]
    exact List.mem_cons_self
  unfold nearestCommon
  cases h.tables with
  | none => rfl
  | some tables =>
      dsimp only
      rw [← hm]
      refine mapM_bind_filter (fun t ht hp => ?_) (fun t ht hp u hu => ?_) fun us hus => ?_
      · obtain ⟨name, rfl⟩ := Ty.isFree_iff.1 (by simpa using hp)
        cases d <;> rfl
      · rwa [((hmixed t ht).operand hu).2]
      · have hread : ∀ u ∈ us, AppOrFree u := by
          intro u hu
          obtain ⟨t, ht, e⟩ := forall₂_exists_left hus hu
          exact ((hmixed t ht).operand e).1
        obtain ⟨u, hu, e⟩ := forall₂_exists_right hus hfirst
        have hkept : u ∈ us.filter (!·.isFree) :=
          List.mem_filter.2 ⟨hu, by rw [((hmixed _ hfirst).operand e).2]; rfl⟩
        rw [common_filter k hread (List.ne_nil_of_mem hkept)]

/-- Lists of handles among variables without bounds. -/
def mixedLists : List Ty :=
  [.var (.free "a"), .anonymous, listOf (.var ⟨"t", [], [⟨"readable", []⟩]⟩), .var (.free "a"),
    listOf (bareType "writable"), listOf (bareType "lockable"), .var (.free "t")]

/-- Something lockable and a list of logs, which have nothing in common. -/
def lockAndList : List Ty := [bareType "lockable", listOf (bareType "log")]

/-- The same with a variable behind each. -/
def mixedKinds : List Ty :=
  [bareType "lockable", .var (.free "a"), listOf (bareType "log"), .var (.free "b")]

/-- Variables in front of the lists, between them and behind them change nothing, and neither do
    variables among operands that have nothing in common. -/
theorem handles_mixed :
    (handles.nearestCommon 9 .down handleLists).run =
      some (.ok [listOf (bareType "log"), listOf (bareType "lease")]) ∧
    handles.nearestCommon 9 .down mixedLists = handles.nearestCommon 9 .down handleLists ∧
    (handles.nearestCommon 9 .up lockAndList).run = some (.ok []) ∧
    handles.nearestCommon 9 .up mixedKinds = handles.nearestCommon 9 .up lockAndList := by
  have hlists : handleLists = List.map Ty.app
    [⟨"list", [.var ⟨"t", [], [⟨"readable", []⟩]⟩]⟩, ⟨"list", [bareType "writable"]⟩,
      ⟨"list", [bareType "lockable"]⟩] := rfl
  have hkinds : lockAndList = List.map Ty.app [⟨"lockable", []⟩, ⟨"list", [bareType "log"]⟩] := rfl
  refine ⟨by decide +kernel, ?_, by decide +kernel, ?_⟩
  · rw [hlists]
    exact nearestCommon_filter handles 9 .down (List.cons_ne_nil _ _) rfl
  · rw [hkinds]
    exact nearestCommon_filter handles 9 .up (List.cons_ne_nil _ _) rfl

end Hierarchy

end Lineage

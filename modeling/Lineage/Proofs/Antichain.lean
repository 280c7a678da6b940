import Lineage.Proofs.SubtypeOrder

/-!
# Results are an antichain

After every operand the results that came up again are dropped, and so are those that lie strictly
beyond another one. What is left is settled (`Settled`): no result is equivalent to another one, and
none is strictly nearer. Every search ends with settled results (`settled_commonWith`), and settled
results are kept as they are when they are looked at once more.

Of two ground results neither fulfills the other: as neither is strictly nearer, they would fulfill
each other, and ground instances that do so are equal.
-/

namespace Lineage

open Nearest

/-! ## 1. Distinct results -/

theorem App.sameBounds_comm (as bs : List (App Ty)) :
    App.sameBounds as bs = App.sameBounds bs as := by
  rw [App.sameBounds, App.sameBounds, Bool.and_assoc, Bool.and_assoc,
    Bool.and_comm (as.all bs.contains), Bool.beq_comm]

theorem Ty.equivalent_comm (s t : Ty) : s.equivalent t = t.equivalent s := by
  cases s with
  | app a =>
      cases t with
      | app b => exact Bool.beq_comm
      | var w => rfl
  | var v =>
      cases t with
      | app b => rfl
      | var w =>
          rw [Ty.equivalent, Ty.equivalent, Var.equivalent, Var.equivalent,
            App.sameBounds_comm v.lower, App.sameBounds_comm v.upper]

/-- Results that are apart stay as they are. -/
theorem Apart.distinct_eq {results : List Ty} (ha : Apart results) :
    distinct results = results := by
  induction results using List.reverseRecOn with
  | nil => rfl
  | append_singleton rs t ih =>
      obtain ⟨hrs, ht⟩ := apart_concat.1 ha
      have hany : ¬ rs.any (·.equivalent t) = true := by simpa using ht
      rw [distinct, List.foldl_append]
      show addDistinct (distinct rs) t = rs ++ [t]
      rw [ih hrs, addDistinct, if_neg hany]

/-- Results at different positions are not equivalent. -/
theorem Apart.not_equivalent {results : List Ty} (ha : Apart results) {i j : Nat} {r s : Ty}
    (hij : i ≠ j) (hr : results[i]? = some r) (hs : results[j]? = some s) :
    r.equivalent s = false := by
  have hlater {i j : Nat} {r s : Ty} (hlt : i < j) (hr : results[i]? = some r)
      (hs : results[j]? = some s) : r.equivalent s = false := by
    obtain ⟨hi, rfl⟩ := List.getElem?_eq_some_iff.1 hr
    obtain ⟨hj, rfl⟩ := List.getElem?_eq_some_iff.1 hs
    exact List.pairwise_iff_getElem.1 ha i j hi hj hlt
  rcases Nat.lt_or_gt_of_ne hij with hlt | hlt
  · exact hlater hlt hr hs
  · rw [Ty.equivalent_comm]
    exact hlater hlt hs hr

namespace Hierarchy

variable {h : Hierarchy} {tables : Tables} {q : Answers} {d : Direction}

/-! ## 2. Settled results -/

/-- Results that are kept as they are: no two of them are equivalent, and none has a strictly nearer
    one beside it. -/
structure Settled (h : Hierarchy) (q : Answers) (d : Direction) (results : List Ty) : Prop where
  apart : Apart results
  kept : keepNearest h q d results = some results

theorem settled_nil : h.Settled q d [] := ⟨List.Pairwise.nil, rfl⟩

theorem settled_single (t : Ty) : h.Settled q d [t] :=
  ⟨List.pairwise_singleton _ t, keepNearest_single q d t⟩

/-- What is kept of distinct results is settled: there are fewer rivals than before. -/
theorem settled_keepNearest {found results : List Ty}
    (e : keepNearest h q d (distinct found) = some results) : h.Settled q d results := by
  have hsub := keep_sublist e
  refine ⟨(apart_distinct found).sublist hsub, keep_eq_self fun t ht => ?_⟩
  exact isNearest_of_subset hsub.subset (keep_eq_some e t ht).2

theorem settled_takeIn {rs results : List Ty} {t : Ty}
    (e : takeIn h tables q d rs t = some results) : h.Settled q d results := by
  obtain ⟨found, -, e⟩ := Option.bind_eq_some_iff.1 e
  exact settled_keepNearest e

/-- Settled results are settled again after more operands. -/
theorem Settled.foldlM_takeIn {rs ts results : List Ty} (hrs : h.Settled q d rs)
    (e : ts.foldlM (takeIn h tables q d) rs = some results) : h.Settled q d results := by
  induction ts generalizing rs with
  | nil =>
      cases e
      exact hrs
  | cons t ts ih =>
      rw [List.foldlM_cons] at e
      obtain ⟨next, hnext, e⟩ := Option.bind_eq_some_iff.1 e
      exact ih (settled_takeIn hnext) e

/-- **Every search ends with settled results.** -/
theorem settled_commonWith {ts results : List Ty}
    (e : commonWith h tables q d ts = some results) : h.Settled q d results := by
  cases ts with
  | nil =>
      cases e
      exact settled_nil
  | cons t ts => exact (settled_single t).foldlM_takeIn e

/-- Of two ground results that are settled, neither fulfills the other. -/
theorem Settled.not_fulfills (S : Sound h) {k : Nat} {results : List Ty}
    (hs : h.Settled (answers h tables k) d results) {r s : Ty} (hr : r ∈ results)
    (hmem : s ∈ results) (hne : r ≠ s) (hgr : h.Ground r) (hgs : h.Ground s) :
    h.fulfills (k + 1) r s = some false := by
  obtain ⟨b, rfl⟩ := hgr.app
  obtain ⟨a, rfl⟩ := hgs.app
  have hnot := not_strictly_of_kept hs.kept hmem hr fun e => hne (congrArg Ty.app e)
  rw [strictlyFulfills] at hnot
  obtain ⟨below, hbelow, -⟩ := Option.bind_eq_some_iff.1 hnot
  cases below with
  | false => exact hbelow
  | true =>
      -- neither is strictly nearer, so the other way round it is fulfilled as well
      have hba : h.fulfills (k + 1) (.app b) (.app a) = some true := hbelow
      have hab := fulfills_symm_of_kept hs.kept hmem hr hgs.toOver hgr.toOver hba
      exact absurd (eq_of_fulfills S hgr hgs hba hab) hne

/-! ## 3. Questions -/

/-- Normal instances are closed under the steps of the search. -/
theorem searchClosed_normal : SearchClosed h fun t => h.isNormal t = true where
  app_iff := by
    intro a
    rw [isNormal_app, isNormalApp_iff]
  anonymous := isNormal_free
  lower := fun hv a ha => isNormal_app.trans ((isNormal_var_iff.1 hv).1 a ha)
  upper := fun hv a ha => isNormal_app.trans ((isNormal_var_iff.1 hv).2 a ha)
  joined := fun _ _ _ _ hl hu _ => isNormal_var_iff.2
    ⟨fun a ha => isNormal_app.symm.trans (hl a ha), fun a ha => isNormal_app.symm.trans (hu a ha)⟩

/-- The results of a question are normal. -/
theorem isNormal_of_nearestCommon (S : Sound h) {k : Nat} {operands results : List Ty}
    (e : (h.nearestCommon k d operands).run = some (.ok results)) :
    ∀ r ∈ results, h.isNormal r = true := by
  obtain ⟨tables, operands', -, hops, hfound⟩ := nearestCommon_run_eq_ok.1 e
  refine searchClosed_normal.common S k (fun o' hmem => ?_) hfound
  obtain ⟨o, -, hop⟩ := forall₂_exists_left (forall₂_of_run_mapM hops) hmem
  exact isNormal_normalize (normalize_of_operand hop)

/-- **Results are an antichain without duplicates.** Whatever the operands are, no two results at
    different positions are equivalent, and of two different results without variables neither
    fulfills the other one. -/
theorem nearestCommon_antichain (hr : Reachable h) {k : Nat} {operands results : List Ty}
    (e : (h.nearestCommon k d operands).run = some (.ok results)) :
    (∀ (i j : Nat) (r s : Ty), i ≠ j → results[i]? = some r → results[j]? = some s →
      r.equivalent s = false) ∧
    ∀ r ∈ results, ∀ s ∈ results, r ≠ s → r.vars = [] → s.vars = [] →
      ∀ m ≥ k, h.typeFulfills m r s = some false := by
  have S := sound_of_reachable hr
  obtain ⟨tables, operands', -, -, hfound⟩ := nearestCommon_run_eq_ok.1 e
  cases k with
  | zero => cases hfound
  | succ k =>
      have hsettled : h.Settled (answers h tables k) d results := settled_commonWith hfound
      have hground {t : Ty} (ht : t ∈ results) (hv : t.vars = []) : h.Ground t :=
        ⟨isNormal_of_nearestCommon S e t ht, by simp [hv]⟩
      refine ⟨fun i j r s => hsettled.apart.not_equivalent, ?_⟩
      intro r hmr s hms hne hvr hvs m hm
      have hgr := hground hmr hvr
      have hgs := hground hms hvs
      rw [typeFulfills_of_sketch hgr.toOver hgs.toOver]
      exact h.fulfills_keeps hm r s (hsettled.not_fulfills S hmr hms hne hgr hgs)

/-- Files and sockets can be read and written. Logs are files that can be locked, journals are logs
    on a socket, and leases are locked sockets. -/
def handles : Hierarchy := [
  .declare "readable" [],
  .declare "writable" [],
  .declare "lockable" [],
  .declare "file" [],
  .declare "socket" [],
  .declare "log" [],
  .declare "journal" [],
  .declare "lease" [],
  .declare "list" [⟨"t", .covariant⟩],
  .addParent "file" (bareType "readable"),
  .addParent "file" (bareType "writable"),
  .addParent "socket" (bareType "readable"),
  .addParent "socket" (bareType "writable"),
  .addParent "log" (bareType "file"),
  .addParent "log" (bareType "lockable"),
  .addParent "journal" (bareType "log"),
  .addParent "journal" (bareType "socket"),
  .addParent "lease" (bareType "socket"),
  .addParent "lease" (bareType "lockable"),
  .finalize].foldl perform empty

/-- A list of something. -/
def listOf (t : Ty) : Ty := .app ⟨"list", [t]⟩

/-- Lists of something readable, of something writable and of something lockable. -/
def handleLists : List Ty :=
  [listOf (.var ⟨"t", [], [⟨"readable", []⟩]⟩), listOf (bareType "writable"),
    listOf (bareType "lockable")]

/-- What can be read, written and locked is a log, a journal or a lease. Journals are logs, so they
    are left out, and the lists of the other two do not compare. -/
theorem handles_antichain :
    (handles.nearestCommon 9 .down handleLists).run =
      some (.ok [listOf (bareType "log"), listOf (bareType "lease")]) ∧
    (listOf (bareType "log")).equivalent (listOf (bareType "lease")) = false ∧
    ∀ m ≥ 9,
      handles.typeFulfills m (listOf (bareType "log")) (listOf (bareType "lease")) = some false ∧
      handles.typeFulfills m (listOf (bareType "lease")) (listOf (bareType "log")) =
        some false := by
  have e : (handles.nearestCommon 9 .down handleLists).run =
    some (.ok [listOf (bareType "log"), listOf (bareType "lease")]) := by decide +kernel
  have hne : listOf (bareType "log") ≠ listOf (bareType "lease") := by decide
  obtain ⟨hapart, hnot⟩ := nearestCommon_antichain (h := handles) ⟨_, rfl⟩ e
  refine ⟨e, hapart 0 1 _ _ Nat.zero_ne_one rfl rfl, fun m hm => ⟨?_, ?_⟩⟩
  · exact hnot _ (by simp) _ (by simp) hne rfl rfl m hm
  · exact hnot _ (by simp) _ (by simp) hne.symm rfl rfl m hm

end Hierarchy

end Lineage

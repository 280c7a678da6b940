import Lineage.Proofs.Order

/-!
# Counters of the nodes that wait

Visits go on until the queue is empty, and each takes one off the counters of the nodes that wait
for the visited one. Both are safe in a reachable hierarchy:

* after as many visits as there are nodes the queue is empty (`queue_after_all`), so the order is
  not cut short;
* whenever a counter is decreased, it counts the visit under way, so it is not zero
  (`pending_of_releases`).
-/

namespace Lineage.Hierarchy

open Nearest

variable {h : Hierarchy} {d : Direction} {v : Visit} {w : Nat}

/-- The visits come to a point at which the counter of `w` is decreased, and `v` is where the
    ordering stands right before: after some visits, in the next one, some of the nodes that wait
    were released and `w` follows. -/
def Releases (nodes : List Node) (d : Direction) (v : Visit) (w : Nat) : Prop :=
  ∃ (rounds : Nat) (u : Visit) (x : Nat) (rest done more : List Nat),
    u = Visit.run nodes d rounds (Visit.start nodes d) ∧ u.queue = x :: rest ∧
    (nodes[x]?.map d.backSteps).getD [] = done ++ w :: more ∧
    v = done.foldl Visit.release { u with queue := rest, visited := u.visited ++ [x] }

section Counters

variable (hs : Sound h)
include hs

/-- Without a node to visit nothing changes, so the invariant holds after any number of rounds. -/
theorem visiting_run (rounds : Nat) (hv : Visiting h d v) :
    Visiting h d (Visit.run h.nodes d rounds v) := by
  induction rounds generalizing v with
  | zero => exact hv
  | succ rounds ih =>
      rw [Visit.run]
      cases hq : v.queue with
      | nil =>
          have hsame : Visit.step h.nodes d v = v := by rw [Visit.step, hq]
          rw [hsame]
          exact ih hv
      | cons x rest => exact ih (hv.step hs hq)

/-- **A counter that is decreased counts the visit under way.** -/
theorem pending_of_releases (hw : Releases h.nodes d v w) :
    ∃ left : Nat, v.pending[w]? = some ((left : Int) + 1) := by
  obtain ⟨rounds, u, x, rest, done, more, hu, hq, hwaiting, rfl⟩ := hw
  have hv : Visiting h d u := hu ▸ visiting_run hs rounds (visiting_start hs)
  obtain ⟨n, hn, -⟩ := hv.next hq
  rw [hn, Option.map_some, Option.getD_some] at hwaiting
  -- no node is released twice, so the counter is still the one between the visits
  have hnodup : (done ++ w :: more).Nodup := hwaiting ▸ hs.steps_nodup (List.mem_of_getElem? hn)
  obtain ⟨hdone, -, hne⟩ := List.nodup_append.1 hnodup
  have hnot : w ∉ done := fun hmem => hne w hmem w List.mem_cons_self rfl
  have hback : w ∈ d.backSteps n := by simp [hwaiting]
  obtain ⟨m, hm⟩ : ∃ m, h.nodes[w]? = some m := by
    rw [Direction.backSteps, mem_steps hn, hs.step_flip] at hback
    exact hback.node
  have hx : x ∈ d.steps m := (mem_backSteps hs hn hm).1 hback
  -- it counts the node that is being visited
  have hcount := hv.waits_step hs hq hm
  rw [if_pos hx] at hcount
  rw [pending_foldl_release _ _ hdone, if_neg hnot, hv.pending hm, hcount]
  exact ⟨_, rfl⟩

/-- After as many visits as nodes nothing is left in the queue. -/
theorem queue_after_all :
    (Visit.run h.nodes d h.nodes.length (Visit.start h.nodes d)).queue = [] := by
  have hv := visiting_run hs h.nodes.length (visiting_start (d := d) hs)
  refine List.eq_nil_iff_forall_not_mem.2 fun x hx => ?_
  obtain ⟨n, hn, -⟩ := hv.ready.1 (List.mem_append_right _ hx)
  have hvisited : x ∈ visitOrder h.nodes d :=
    (visitOrder_perm hs).mem_iff.2 (List.mem_range.2 (List.getElem?_eq_some_iff.1 hn).1)
  exact (List.nodup_append.1 hv.nodup).2.2 x hvisited x hx rfl

end Counters

/-- **The order of visits is a topological order of all types.** In every reachable hierarchy and
    either direction each type is visited once, behind all its steps. Nothing waits in the queue at
    the end, and no counter is decreased below zero on the way. -/
theorem visitOrder_topological (hr : Reachable h) (d : Direction) :
    (visitOrder h.nodes d).Perm (List.range h.nodes.length) ∧
    (∀ (before after : List Nat) (x : Nat) (n : Node),
      visitOrder h.nodes d = before ++ x :: after → h.nodes[x]? = some n →
        ∀ y ∈ d.steps n, y ∈ before) ∧
    (Visit.run h.nodes d h.nodes.length (Visit.start h.nodes d)).queue = [] ∧
    ∀ v w, Releases h.nodes d v w → ∃ left : Nat, v.pending[w]? = some ((left : Int) + 1) := by
  have hs := sound_of_reachable hr
  refine ⟨visitOrder_perm hs, ?_, queue_after_all hs, fun v w => pending_of_releases hs⟩
  intro before after x n e hn y hy
  exact visitOrder_behind hs e ((mem_steps hn).1 hy)

/-- Calls that declare heirs before what they inherit from, along two ways. -/
def inverted : List Call := [
  .declare "file" [],
  .declare "readable" [],
  .declare "writable" [],
  .declare "thing" [],
  .addParent "file" (.app ⟨"readable", []⟩),
  .addParent "file" (.app ⟨"writable", []⟩),
  .addParent "readable" (.app ⟨"thing", []⟩),
  .addParent "writable" (.app ⟨"thing", []⟩)]

/-- `file` comes last, behind both its parents. When the first of them is visited, the counter of
    `file` is not zero. -/
theorem inverted_topological :
    Reachable (inverted.foldl perform empty) ∧
    visitOrder (inverted.foldl perform empty).nodes .up = [3, 1, 2, 0] ∧
    [3, 1, 2, 0].Perm (List.range 4) ∧
    Releases (inverted.foldl perform empty).nodes .up ⟨[2, 0, 0, 0], [2], [3, 1]⟩ 0 ∧
    ∃ left : Nat, ([2, 0, 0, 0] : List Int)[0]? = some ((left : Int) + 1) := by
  have hr : Reachable (inverted.foldl perform empty) := ⟨inverted, rfl⟩
  have horder : visitOrder (inverted.foldl perform empty).nodes .up = [3, 1, 2, 0] := by decide
  have hfile : Releases (inverted.foldl perform empty).nodes .up ⟨[2, 0, 0, 0], [2], [3, 1]⟩ 0 :=
    ⟨1, _, 1, [2], [], [], rfl, by decide, by decide, by decide⟩
  obtain ⟨hperm, -, -, hcounters⟩ := visitOrder_topological hr .up
  rw [horder] at hperm
  exact ⟨hr, horder, hperm, hfile, hcounters _ _ hfile⟩

end Lineage.Hierarchy

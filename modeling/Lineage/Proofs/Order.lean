import Lineage.Proofs.Construction
import Mathlib.Data.Finset.Card
import Mathlib.Data.Finset.Filter
import Mathlib.Data.Finset.Range

/-!
# The order of visits

In a sound hierarchy the nodes are visited in an order in which each comes behind all nodes one
step away from it.

* `Sound.wellFounded_reaches`, `Sound.exists_first`: going on in one direction comes to an end;
* `Visiting`: what holds between two visits. A node's counter is the number of its steps that are
  not visited, and the nodes whose counter is zero are those in the queue and those visited;
* `visitOrder_perm`, `visitOrder_behind`: every node is visited once, behind its steps.
-/

namespace Lineage.Hierarchy

open Relation Nearest

variable {h : Hierarchy} {d : Direction}

/-! ## 1. Steps and where they lead -/

/-- One node is one step away from another. -/
def Step (h : Hierarchy) : Direction → Nat → Nat → Prop
  | .up => h.HasParent
  | .down => h.HasChild

/-- One node is reached from another in no step or more. -/
def Reaches (h : Hierarchy) : Direction → Nat → Nat → Prop
  | .up => h.HasAncestor
  | .down => h.HasDescendant

theorem mem_steps {i : Nat} {n : Node} (hn : h.nodes[i]? = some n) {y : Nat} :
    y ∈ d.steps n ↔ h.Step d i y := by
  cases d with
  | up => rw [Direction.steps, ← Roster.contains_iff, Step, HasParent, exists_node_iff hn]
  | down => rw [Direction.steps, Step, HasChild, exists_node_iff hn]

theorem Step.node {x y : Nat} (hxy : h.Step d x y) : ∃ n, h.nodes[x]? = some n := by
  cases d with
  | up => exact ⟨_, hxy.choose_spec.1⟩
  | down => exact ⟨_, hxy.choose_spec.1⟩

theorem reachedFrom_iff (hs : Sound h) {i : Nat} {n : Node} (hn : h.nodes[i]? = some n) {y : Nat} :
    d.reachedFrom n y = true ↔ h.Reaches d y i := by
  cases d with
  | up =>
      rw [Reaches, hs.ancestor_descendant, Direction.reachedFrom, List.contains_iff_mem,
        HasDescendant, exists_node_iff hn]
  | down =>
      rw [Reaches, ← hs.ancestor_descendant, Direction.reachedFrom, HasAncestor,
        exists_node_iff hn]

namespace Sound

variable (hs : Sound h)
include hs

theorem steps_nodup {n : Node} (hn : n ∈ h.nodes) : (d.steps n).Nodup := by
  cases d with
  | up => exact hs.parents_nodup hn
  | down => exact hs.children_nodup hn

/-- Directions mirror each other. -/
theorem step_flip {x y : Nat} : h.Step d.flip x y ↔ h.Step d y x := by
  cases d with
  | up => exact hs.parent_child.symm
  | down => exact hs.parent_child

theorem reaches_flip {x y : Nat} : h.Reaches d.flip x y ↔ h.Reaches d y x := by
  cases d with
  | up => exact hs.ancestor_descendant.symm
  | down => exact hs.ancestor_descendant

theorem reaches_refl {x : Nat} {n : Node} (hn : h.nodes[x]? = some n) : h.Reaches d x x := by
  cases d with
  | up => exact hs.hasAncestor_refl hn
  | down => exact hs.ancestor_descendant.1 (hs.hasAncestor_refl hn)

theorem reaches_trans {x y z : Nat} (hxy : h.Reaches d x y) (hyz : h.Reaches d y z) :
    h.Reaches d x z := by
  cases d with
  | up => exact hs.hasAncestor_trans hxy hyz
  | down =>
      rw [Reaches, ← hs.ancestor_descendant] at hxy hyz ⊢
      exact hs.hasAncestor_trans hyz hxy

theorem reaches_antisymm {x y : Nat} (hxy : h.Reaches d x y) (hyx : h.Reaches d y x) : x = y := by
  cases d with
  | up => exact hs.acyclic hxy hyx
  | down =>
      rw [Reaches, ← hs.ancestor_descendant] at hxy hyx
      exact hs.acyclic hyx hxy

theorem reaches_of_step {x y : Nat} (hxy : h.Step d x y) : h.Reaches d x y := by
  cases d with
  | up => exact hs.hasAncestor_of_parent hxy
  | down => exact hs.ancestor_descendant.1 (hs.hasAncestor_of_parent (hs.parent_child.2 hxy))

theorem node_of_reaches {x y : Nat} (hxy : h.Reaches d x y) : ∃ n, h.nodes[y]? = some n := by
  cases d with
  | up => exact hs.node_of_ancestor hxy
  | down =>
      obtain ⟨n, hn, -⟩ := hs.ancestor_descendant.2 hxy
      exact ⟨n, hn⟩

theorem node_of_reaches_left {x y : Nat} (hxy : h.Reaches d x y) :
    ∃ n, h.nodes[x]? = some n := by
  rw [← hs.reaches_flip] at hxy
  exact hs.node_of_reaches hxy

theorem lt_of_reaches {x y : Nat} (hxy : h.Reaches d x y) : y < h.nodes.length := by
  obtain ⟨n, hn⟩ := hs.node_of_reaches hxy
  exact (List.getElem?_eq_some_iff.1 hn).1

theorem ne_of_step {x y : Nat} (hxy : h.Step d x y) : y ≠ x := by
  cases d with
  | up => exact hs.parent_ne hxy
  | down => exact (hs.parent_ne (hs.parent_child.2 hxy)).symm

/-- Whatever is reached is the node itself or is reached through one of its steps. -/
theorem reaches_cases {x z : Nat} (hxz : h.Reaches d x z) :
    x = z ∨ ∃ y, h.Step d x y ∧ h.Reaches d y z := by
  cases d with
  | up =>
      obtain ⟨-, hp⟩ := hs.closure.1 hxz
      rcases hp.cases_head with rfl | ⟨y, hxy, hyz⟩
      · exact Or.inl rfl
      · obtain ⟨n, hn⟩ := hs.node_of_ancestor (hs.hasAncestor_of_parent hxy)
        exact Or.inr ⟨y, hxy, hs.closure.2 ⟨(List.getElem?_eq_some_iff.1 hn).1, hyz⟩⟩
  | down =>
      obtain ⟨hz, hp⟩ := hs.closure.1 (hs.ancestor_descendant.2 hxz)
      rcases hp.cases_tail with rfl | ⟨y, hzy, hyx⟩
      · exact Or.inl rfl
      · exact Or.inr ⟨y, hs.parent_child.1 hyx, hs.ancestor_descendant.1 (hs.closure.2 ⟨hz, hzy⟩)⟩

/-- **Going on in one direction comes to an end.** From a node that is passed fewer nodes can be
    reached. -/
theorem wellFounded_reaches :
    WellFounded fun y x => h.Reaches d x y ∧ y ≠ x := by
  classical
  let reached (x : Nat) : Finset Nat := (Finset.range h.nodes.length).filter (h.Reaches d x)
  have hmem {x z : Nat} : z ∈ reached x ↔ h.Reaches d x z := by
    rw [Finset.mem_filter, Finset.mem_range]
    exact and_iff_right_of_imp hs.lt_of_reaches
  refine Subrelation.wf ?_ (measure fun x => (reached x).card).wf
  rintro y x ⟨hxy, hne⟩
  refine Finset.card_lt_card (Finset.ssubset_iff_subset_ne.2 ⟨fun z hz => ?_, fun e => ?_⟩)
  · exact hmem.2 (hs.reaches_trans hxy (hmem.1 hz))
  · obtain ⟨n, hn⟩ := hs.node_of_reaches_left hxy
    have hx : x ∈ reached y := e ▸ hmem.2 (hs.reaches_refl hn)
    exact hne (hs.reaches_antisymm (hmem.1 hx) hxy)

/-- **Before every node of a kind there is a first one of the kind.** Going back comes to an end. -/
theorem exists_first {P : Nat → Prop} (hP : ∀ x, P x → x < h.nodes.length) {c : Nat} (hc : P c) :
    ∃ x, P x ∧ h.Reaches d x c ∧ ∀ y, P y → h.Reaches d y x → y = x := by
  induction c using (hs.wellFounded_reaches (d := d.flip)).induction with
  | _ c ih =>
      by_cases hmin : ∀ y, P y → h.Reaches d y c → y = c
      · exact ⟨c, hc, hs.reaches_refl (List.getElem?_eq_getElem (hP c hc)), hmin⟩
      · push Not at hmin
        obtain ⟨y, hy, hyc, hne⟩ := hmin
        obtain ⟨x, hx, hxy, hfirst⟩ := ih y ⟨hs.reaches_flip.2 hyc, hne⟩ hy
        exact ⟨x, hx, hs.reaches_trans hxy hyc, hfirst⟩

end Sound

/-! ## 2. Releasing the nodes that wait -/

section Release

variable (v : Visit) (ws : List Nat)

@[simp] theorem visited_release (w : Nat) : (v.release w).visited = v.visited := by
  unfold Visit.release
  dsimp only
  split <;> rfl

theorem pending_release (w x : Nat) : (v.release w).pending[x]? =
    if w = x then v.pending[x]?.map (· - 1) else v.pending[x]? := by
  have hset : (v.release w).pending = v.pending.set w (v.pending.getD w 0 - 1) := by
    unfold Visit.release
    dsimp only
    split <;> rfl
  rw [hset, List.getElem?_set]
  by_cases hw : w = x
  · subst hw
    rw [if_pos rfl, if_pos rfl]
    split
    · rename_i hlt
      simp [List.getD, List.getElem?_eq_getElem hlt]
    · rename_i hlt
      rw [List.getElem?_eq_none (Nat.le_of_not_lt hlt)]
      rfl
  · rw [if_neg hw, if_neg hw]

theorem queue_release (w : Nat) : (v.release w).queue =
    if v.pending.getD w 0 = 1 then v.queue ++ [w] else v.queue := by
  unfold Visit.release
  dsimp only
  by_cases hw : v.pending.getD w 0 = 1
  · rw [if_pos hw, if_pos (by omega)]
  · rw [if_neg hw, if_neg (by omega)]

theorem visited_foldl_release : (ws.foldl Visit.release v).visited = v.visited := by
  induction ws generalizing v with
  | nil => rfl
  | cons w ws ih => rw [List.foldl_cons, ih, visited_release]

/-- Every released node waits for one node less. -/
theorem pending_foldl_release (hws : ws.Nodup) (x : Nat) :
    (ws.foldl Visit.release v).pending[x]? =
      if x ∈ ws then v.pending[x]?.map (· - 1) else v.pending[x]? := by
  induction ws generalizing v with
  | nil => rfl
  | cons w ws ih =>
      obtain ⟨hw, hws⟩ := List.nodup_cons.1 hws
      rw [List.foldl_cons, ih _ hws, pending_release]
      by_cases hx : w = x
      · subst hx
        simp [hw]
      · simp [hx, Ne.symm hx]

/-- The released nodes that waited for one node only are ready. -/
theorem queue_foldl_release (hws : ws.Nodup) : (ws.foldl Visit.release v).queue =
    v.queue ++ ws.filter fun w => v.pending.getD w 0 = 1 := by
  induction ws generalizing v with
  | nil => simp
  | cons w ws ih =>
      obtain ⟨hw, hws⟩ := List.nodup_cons.1 hws
      have hsame : (ws.filter fun x => (v.release w).pending.getD x 0 = 1) =
          ws.filter fun x => v.pending.getD x 0 = 1 := by
        refine List.filter_congr fun x hx => ?_
        have hne : w ≠ x := fun e => hw (e ▸ hx)
        rw [List.getD, List.getD, pending_release, if_neg hne]
      rw [List.foldl_cons, ih _ hws, hsame, queue_release, List.filter_cons]
      by_cases h1 : v.pending.getD w 0 = 1
      · rw [if_pos h1, if_pos (decide_eq_true h1), List.append_assoc]
        rfl
      · rw [if_neg h1, if_neg (by simpa using h1)]

end Release

/-! ## 3. Between two visits -/

/-- The number of steps of a node that are not visited yet. -/
def waits (d : Direction) (visited : List Nat) (n : Node) : Nat :=
  (d.steps n).countP (· ∉ visited)

theorem waits_eq_zero {visited : List Nat} {n : Node} :
    waits d visited n = 0 ↔ ∀ y ∈ d.steps n, y ∈ visited := by
  simp [waits, List.countP_eq_zero]

/-- Visiting a node takes one off the nodes that wait for it. -/
theorem waits_append {visited : List Nat} {n : Node} (hn : (d.steps n).Nodup) {x : Nat}
    (hx : x ∉ visited) :
    waits d visited n = waits d (visited ++ [x]) n + if x ∈ d.steps n then 1 else 0 := by
  unfold waits
  generalize d.steps n = ys at hn
  induction ys with
  | nil => rfl
  | cons y ys ih =>
      obtain ⟨hy, hys⟩ := List.nodup_cons.1 hn
      rw [List.countP_cons, List.countP_cons, ih hys]
      by_cases hyx : y = x
      · subst hyx
        simp [hy, hx]
      · simp [hyx, Ne.symm hyx, Nat.add_right_comm]

/-- What holds between two visits. -/
structure Visiting (h : Hierarchy) (d : Direction) (v : Visit) : Prop where
  pending : ∀ {i : Nat} {n : Node}, h.nodes[i]? = some n →
    v.pending[i]? = some (waits d v.visited n : Int)
  ready : ∀ {i : Nat}, i ∈ v.visited ++ v.queue ↔
    ∃ n, h.nodes[i]? = some n ∧ waits d v.visited n = 0
  nodup : (v.visited ++ v.queue).Nodup
  behind : ∀ {before after : List Nat} {x y : Nat}, v.visited = before ++ x :: after →
    h.Step d x y → y ∈ before

section Visits

variable (hs : Sound h) {v : Visit}
include hs

theorem Sound.ids_eq : h.nodes.map Node.id = List.range h.nodes.length := by
  refine List.ext_getElem (by simp) fun i hi _ => ?_
  rw [List.getElem_map, List.getElem_range]
  exact hs.id_eq (List.getElem?_eq_getElem (by simpa using hi))

theorem visiting_start : Visiting h d (Visit.start h.nodes d) where
  pending := fun {i n} hn => by
    rw [Visit.start, List.getElem?_map, hn]
    simp [waits]
  ready := fun {i} => by
    simp only [Visit.start, List.nil_append, List.mem_map, List.mem_filter, waits_eq_zero]
    constructor
    · rintro ⟨n, ⟨hn, he⟩, rfl⟩
      exact ⟨n, hs.node_of_mem hn, by simp [List.isEmpty_iff.1 he]⟩
    · rintro ⟨n, hn, he⟩
      have he : d.steps n = [] :=
        List.eq_nil_iff_forall_not_mem.2 fun y hy => by simpa using he y hy
      exact ⟨n, ⟨List.mem_of_getElem? hn, by rw [he]; rfl⟩, hs.id_eq hn⟩
  nodup := by
    have hids : (h.nodes.map Node.id).Nodup := hs.ids_eq ▸ List.nodup_range
    exact hids.sublist (List.filter_sublist.map _)
  behind := fun {before after x y} e => by
    rw [Visit.start] at e
    simp at e

omit hs in
theorem step_eq {x : Nat} {rest : List Nat} {n : Node} (hq : v.queue = x :: rest)
    (hn : h.nodes[x]? = some n) :
    Visit.step h.nodes d v = (d.backSteps n).foldl Visit.release
      { v with queue := rest, visited := v.visited ++ [x] } := by
  rw [Visit.step, hq]
  simp only [hn, Option.map_some, Option.getD_some]

theorem mem_backSteps {x i : Nat} {n m : Node} (hn : h.nodes[x]? = some n)
    (hm : h.nodes[i]? = some m) : i ∈ d.backSteps n ↔ x ∈ d.steps m := by
  rw [Direction.backSteps, mem_steps hn, hs.step_flip, mem_steps hm]

namespace Visiting

variable (hv : Visiting h d v) {x : Nat} {rest : List Nat} (hq : v.queue = x :: rest)
include hv hq

omit hs in
/-- The node to be visited waits for nothing. -/
theorem next : ∃ n, h.nodes[x]? = some n ∧ waits d v.visited n = 0 :=
  hv.ready.1 (List.mem_append_right _ (hq ▸ List.mem_cons_self))

omit hs in
theorem next_not_mem : x ∉ v.visited := fun hx =>
  (List.nodup_append.1 hv.nodup).2.2 x hx x (hq ▸ List.mem_cons_self) rfl

omit hs in
theorem visited_step : (Visit.step h.nodes d v).visited = v.visited ++ [x] := by
  obtain ⟨n, hn, -⟩ := hv.next hq
  rw [step_eq hq hn, visited_foldl_release]

theorem waits_step {i : Nat} {m : Node} (hm : h.nodes[i]? = some m) :
    waits d v.visited m =
      waits d (Visit.step h.nodes d v).visited m + if x ∈ d.steps m then 1 else 0 := by
  rw [hv.visited_step hq]
  exact waits_append (hs.steps_nodup (List.mem_of_getElem? hm)) (hv.next_not_mem hq)

theorem pending_step {i : Nat} {m : Node} (hm : h.nodes[i]? = some m) :
    (Visit.step h.nodes d v).pending[i]? =
      some (waits d (Visit.step h.nodes d v).visited m : Int) := by
  obtain ⟨n, hn, -⟩ := hv.next hq
  have hw := hv.waits_step hs hq hm
  have hb := mem_backSteps (d := d) hs hn hm
  have hws : (d.backSteps n).Nodup := hs.steps_nodup (List.mem_of_getElem? hn)
  have hp : (Visit.step h.nodes d v).pending[i]? = if i ∈ d.backSteps n
      then some (waits d v.visited m - 1 : Int) else some (waits d v.visited m : Int) := by
    rw [step_eq hq hn, pending_foldl_release _ _ hws, hv.pending hm]
    rfl
  rw [hp, hw]
  by_cases hx : x ∈ d.steps m
  · rw [if_pos (hb.2 hx), if_pos hx]
    simp
  · rw [if_neg (mt hb.1 hx), if_neg hx]
    rfl

/-- Behind the old queue come the nodes that waited for this visit only. -/
theorem queue_step : ∃ freed : List Nat, freed.Nodup ∧
    (Visit.step h.nodes d v).queue = rest ++ freed ∧ ∀ {i : Nat}, i ∈ freed ↔
      ∃ m, h.nodes[i]? = some m ∧ x ∈ d.steps m ∧ waits d v.visited m = 1 := by
  obtain ⟨n, hn, -⟩ := hv.next hq
  have hws : (d.backSteps n).Nodup := hs.steps_nodup (List.mem_of_getElem? hn)
  have hcount {i : Nat} {m : Node} (hm : h.nodes[i]? = some m) :
      v.pending.getD i 0 = (waits d v.visited m : Int) := by
    rw [List.getD, hv.pending hm]
    rfl
  refine ⟨(d.backSteps n).filter fun w => v.pending.getD w 0 = 1, hws.filter _, ?_, fun {i} => ?_⟩
  · rw [step_eq hq hn, queue_foldl_release _ _ hws]
  · rw [List.mem_filter, decide_eq_true_iff]
    constructor
    · rintro ⟨hi, h1⟩
      rw [Direction.backSteps, mem_steps hn, hs.step_flip] at hi
      obtain ⟨m, hm⟩ := hi.node
      rw [hcount hm] at h1
      exact ⟨m, hm, (mem_steps hm).2 hi, by omega⟩
    · rintro ⟨m, hm, hxm, h1⟩
      exact ⟨(mem_backSteps hs hn hm).2 hxm, by rw [hcount hm, h1]; rfl⟩

omit hs in
theorem behind_step {before after : List Nat} {z y : Nat}
    (e : (Visit.step h.nodes d v).visited = before ++ z :: after) (hzy : h.Step d z y) :
    y ∈ before := by
  rw [hv.visited_step hq] at e
  rcases List.eq_nil_or_concat after with rfl | ⟨after, last, rfl⟩
  · obtain ⟨hb, e⟩ := List.append_inj' e rfl
    cases e
    obtain ⟨n, hn, hw⟩ := hv.next hq
    exact hb ▸ waits_eq_zero.1 hw y ((mem_steps hn).2 hzy)
  · rw [List.concat_eq_append, ← List.cons_append, ← List.append_assoc] at e
    exact hv.behind (List.append_inj' e rfl).1 hzy

/-- **A visit keeps the invariant.** -/
theorem step : Visiting h d (Visit.step h.nodes d v) := by
  obtain ⟨freed, hnodup, hqueue, hfreed⟩ := hv.queue_step hs hq
  have hwait {i : Nat} {m : Node} (hm : h.nodes[i]? = some m) := hv.waits_step hs hq hm
  have hall : (Visit.step h.nodes d v).visited ++ (Visit.step h.nodes d v).queue =
      (v.visited ++ v.queue) ++ freed := by
    rw [hv.visited_step hq, hqueue, hq]
    simp
  refine ⟨hv.pending_step hs hq, fun {i} => ?_, ?_, hv.behind_step hq⟩
  · rw [hall, List.mem_append, hv.ready, hfreed]
    constructor
    · rintro (⟨m, hm, h0⟩ | ⟨m, hm, hxm, h1⟩)
      · have := hwait hm
        exact ⟨m, hm, by omega⟩
      · have := hwait hm
        rw [if_pos hxm] at this
        exact ⟨m, hm, by omega⟩
    · rintro ⟨m, hm, h0⟩
      have := hwait hm
      by_cases hxm : x ∈ d.steps m
      · rw [if_pos hxm] at this
        exact Or.inr ⟨m, hm, hxm, by omega⟩
      · rw [if_neg hxm] at this
        exact Or.inl ⟨m, hm, by omega⟩
  · rw [hall]
    refine List.nodup_append.2 ⟨hv.nodup, hnodup, fun a ha b hb e => ?_⟩
    subst e
    obtain ⟨m, hm, -, h1⟩ := hfreed.1 hb
    obtain ⟨m', hm', h0⟩ := hv.ready.1 ha
    rw [hm] at hm'
    cases hm'
    omega

end Visiting

/-! ## 4. All nodes are visited -/

/-- With an empty queue everything is visited. Otherwise there would be a node that waits for
    another one that waits, and so on without end. -/
theorem Visiting.all_visited (hv : Visiting h d v) (hq : v.queue = []) {x : Nat} {n : Node}
    (hn : h.nodes[x]? = some n) : x ∈ v.visited := by
  induction x using (hs.wellFounded_reaches (d := d)).induction generalizing n with
  | _ x ih =>
      have h0 : waits d v.visited n = 0 := waits_eq_zero.2 fun y hy => by
        have hxy := (mem_steps hn).1 hy
        obtain ⟨m, hm⟩ := hs.node_of_reaches (hs.reaches_of_step hxy)
        exact ih y ⟨hs.reaches_of_step hxy, hs.ne_of_step hxy⟩ hm
      have := hv.ready.2 ⟨n, hn, h0⟩
      rwa [hq, List.append_nil] at this

theorem Visiting.queue_ne_nil (hv : Visiting h d v) (hlt : v.visited.length < h.nodes.length) :
    v.queue ≠ [] := by
  intro hq
  have hsub : List.range h.nodes.length ⊆ v.visited := by
    intro x hx
    have hx := List.mem_range.1 hx
    exact hv.all_visited hs hq (List.getElem?_eq_getElem hx)
  have := (List.subperm_of_subset List.nodup_range hsub).length_le
  rw [List.length_range] at this
  omega

/-- **As many visits as rounds**, as long as there are nodes. -/
theorem Visiting.run : ∀ (rounds : Nat) {v : Visit}, Visiting h d v →
    v.visited.length + rounds ≤ h.nodes.length → Visiting h d (Visit.run h.nodes d rounds v) ∧
      (Visit.run h.nodes d rounds v).visited.length = v.visited.length + rounds
  | 0, _, hv, _ => ⟨hv, rfl⟩
  | rounds + 1, v, hv, hle => by
      obtain ⟨x, rest, hq⟩ := List.exists_cons_of_ne_nil (hv.queue_ne_nil hs (by omega))
      have hvis : (Visit.step h.nodes d v).visited.length = v.visited.length + 1 := by
        rw [hv.visited_step hq, List.length_append]
        rfl
      obtain ⟨hr, hl⟩ := (hv.step hs hq).run rounds (by omega)
      rw [Visit.run]
      exact ⟨hr, by omega⟩

theorem visiting_visitOrder : ∃ v, Visiting h d v ∧ v.visited = visitOrder h.nodes d ∧
    v.visited.length = h.nodes.length := by
  obtain ⟨hv, hl⟩ := (visiting_start (d := d) hs).run hs h.nodes.length
    (by simp [Visit.start])
  exact ⟨_, hv, rfl, by simpa [Visit.start] using hl⟩

/-- **Every node is visited once.** -/
theorem visitOrder_perm : (visitOrder h.nodes d).Perm (List.range h.nodes.length) := by
  obtain ⟨v, hv, hvis, hl⟩ := visiting_visitOrder (d := d) hs
  rw [← hvis]
  have hsub : v.visited ⊆ List.range h.nodes.length := by
    intro x hx
    obtain ⟨n, hn, -⟩ := hv.ready.1 (List.mem_append_left _ hx)
    exact List.mem_range.2 (List.getElem?_eq_some_iff.1 hn).1
  refine (List.subperm_of_subset (List.nodup_append.1 hv.nodup).1 hsub).perm_of_length_le ?_
  rw [List.length_range, hl]

/-- **Each node is visited behind its steps.** -/
theorem visitOrder_behind {before after : List Nat} {x y : Nat}
    (e : visitOrder h.nodes d = before ++ x :: after) (hxy : h.Step d x y) : y ∈ before := by
  obtain ⟨v, hv, hvis, -⟩ := visiting_visitOrder (d := d) hs
  exact hv.behind (hvis.trans e) hxy

end Visits

end Lineage.Hierarchy

import Lineage.Proofs.Pair

/-!
# Contexts

A context is an instance with a hole, kept as the frames around the hole from the outside in. Along
the way to the hole the declared variances compose.

Subtyping does not compose variances: it exchanges its sides at every contravariant position, and
from the first invariant one on it merges. Both come to the same for ground instances. One frame
takes the question to the argument, at the composed variance (`decided_frame`), so a whole context
takes it to the hole.
-/

namespace Lineage

/-- An application without one of its arguments. -/
structure Frame where
  head : String
  before : List Ty
  after : List Ty
  deriving DecidableEq

/-- The application with the argument put in. -/
def Frame.fill (f : Frame) (t : Ty) : Ty := .app ⟨f.head, f.before ++ t :: f.after⟩

/-- The frames around a hole, from the outside in. -/
abbrev Context := List Frame

/-- The context with an instance put into the hole. -/
def Context.fill (K : Context) (t : Ty) : Ty := K.foldr Frame.fill t

theorem Frame.fill_inj {f : Frame} {x y : Ty} : f.fill x = f.fill y ↔ x = y := by
  simp [Frame.fill]

/-- One member decides a test of all members that the others pass. -/
theorem allM_eq_of_others {α : Type} {p : α → Option Bool} {xs ys : List α} {x : α}
    (hxs : ∀ y ∈ xs, p y = some true) (hys : ∀ y ∈ ys, p y = some true) :
    (xs ++ x :: ys).allM p = p x := by
  induction xs with
  | nil =>
      rw [List.nil_append, List.allM]
      cases hx : p x with
      | none => rfl
      | some b =>
          cases b with
          | false => rfl
          | true => exact allM_eq_true.2 hys
  | cons y xs ih =>
      rw [List.forall_mem_cons] at hxs
      rw [List.cons_append, List.allM, hxs.1]
      exact ih hxs.2

namespace Hierarchy

variable {h : Hierarchy}

/-! ## 1. Frames -/

/-- The variance declared for the hole. -/
def holeVariance (h : Hierarchy) (f : Frame) : Variance :=
  (h.find? f.head).elim .invariant (·.variance f.before.length)

/-- Whether a frame makes a ground instance of a ground argument. -/
def isGroundFrame (h : Hierarchy) (f : Frame) : Bool :=
  (h.find? f.head).any (·.arity == f.before.length + 1 + f.after.length) &&
    (f.before ++ f.after).all h.isGround

/-- The variance of the hole of a context, composed from the outside in. -/
def pathVariance (h : Hierarchy) (K : Context) : Variance :=
  K.foldl (fun v f => v.compose (h.holeVariance f)) .covariant

theorem isGroundFrame_iff {f : Frame} : h.isGroundFrame f = true ↔
    (∃ n, h.find? f.head = some n ∧ n.arity = f.before.length + 1 + f.after.length) ∧
      ∀ t ∈ f.before ++ f.after, h.Ground t := by
  simp only [isGroundFrame, Bool.and_eq_true, Option.any_eq_true, beq_iff_eq, List.all_eq_true,
    isGround_iff]

theorem ground_frame {f : Frame} (hf : h.isGroundFrame f = true) {t : Ty} (ht : h.Ground t) :
    h.Ground (f.fill t) := by
  obtain ⟨⟨n, hn, hl⟩, hothers⟩ := isGroundFrame_iff.1 hf
  refine over_app_iff.2 ⟨⟨n, hn, by simp [hl]; omega⟩, fun s hs => ?_⟩
  rcases List.mem_append.1 hs with hs | hs
  · exact hothers s (List.mem_append_left _ hs)
  · rcases List.mem_cons.1 hs with rfl | hs
    · exact ht
    · exact hothers s (List.mem_append_right _ hs)

theorem ground_context {K : Context} (hK : ∀ f ∈ K, h.isGroundFrame f = true) {t : Ty}
    (ht : h.Ground t) : h.Ground (K.fill t) := by
  induction K with
  | nil => exact ht
  | cons f K ih =>
      rw [List.forall_mem_cons] at hK
      exact ground_frame hK.1 (ih hK.2)

/-! ## 2. Questions at a place -/

/-- Whether two instances agree at a place of some variance is answered in some number of
    rounds. -/
def Decided (h : Hierarchy) (v : Variance) (x y : Ty) (answer : Bool) : Prop :=
  ∃ k, agreeAt (h.fulfills k) v x y = some answer

section Decided

variable {v : Variance} {x y : Ty} {answer : Bool}

/-- The answer stays from some round on. -/
theorem decided_iff_eventually : h.Decided v x y answer ↔
    ∀ᶠ m in Filter.atTop, agreeAt (h.fulfills m) v x y = some answer := by
  constructor
  · rintro ⟨k, hk⟩
    exact Filter.eventually_atTop.2
      ⟨k, fun m hm => agreeAt_keeps (h.fulfills_keeps hm) v x y hk⟩
  · intro he
    exact he.exists

theorem decided_invariant (hx : h.Ground x) (hy : h.Ground y) :
    h.Decided .invariant x y answer ↔ answer = decide (x = y) := by
  constructor
  · rintro ⟨k, hk⟩
    rw [agreeAt_invariant_ground hx hy] at hk
    exact (Option.some_inj.1 hk).symm
  · rintro rfl
    exact ⟨0, agreeAt_invariant_ground hx hy⟩

/-- Seen from the other side, the question is one at the opposite variance. -/
theorem decided_swap (hx : h.Sketch x) (hy : h.Sketch y) :
    h.Decided v y x answer ↔ h.Decided (Variance.contravariant.compose v) x y answer :=
  exists_congr fun k => by rw [agreeAt_swap hy hx]

end Decided

/-! ## 3. One frame -/

/-- Arguments that are the same but at one position agree if they do there. -/
theorem argsAgree_around {rec : Ty → Ty → Option Bool} {n : Node} {before after : List Ty}
    {x y : Ty} (hothers : ∀ t ∈ before ++ after, ∀ v, agreeAt rec v t t = some true) :
    argsAgree rec n (before ++ x :: after) (before ++ y :: after) =
      agreeAt rec (n.variance before.length) x y := by
  have hsame {ts : List Ty} (hts : ∀ t ∈ ts, ∀ v, agreeAt rec v t t = some true) {k : Nat} :
      ∀ e ∈ (ts.zip ts).zipIdx k, agreeAt rec (n.variance e.2) e.1.1 e.1.2 = some true := by
    intro e he
    have hmem := List.fst_mem_of_mem_zipIdx he
    rw [← List.map_id ts, List.zip_map'] at hmem
    obtain ⟨t, ht, heq⟩ := List.mem_map.1 hmem
    rw [← heq]
    exact hts t ht (n.variance e.2)
  rw [argsAgree, List.zip_append rfl, List.zipIdx_append, List.zip_cons_cons, List.zipIdx_cons,
    Nat.zero_add, List.length_zip, Nat.min_self]
  exact allM_eq_of_others (hsame fun t ht => hothers t (List.mem_append_left _ ht))
    (hsame fun t ht => hothers t (List.mem_append_right _ ht))

section Frame

variable (S : Sound h) {f : Frame} (hf : h.isGroundFrame f = true) {x y : Ty} {v : Variance}
  {answer : Bool}
include S

/-- From some round on, given ground instances agree with themselves at every place. -/
theorem eventually_agreeAt_self {ts : List Ty} (hts : ∀ t ∈ ts, h.Ground t) :
    ∀ᶠ m in Filter.atTop, ∀ t ∈ ts, ∀ v, agreeAt (h.fulfills m) v t t = some true := by
  refine eventually_forall_mem fun t ht => ?_
  filter_upwards [fulfills_refl S (hts t ht).toOver] with m hm v
  exact agreeAt_self hm v

include hf

/-- From some round on, the question about two fillings is the one about what they are filled
    with: at the other positions, both have the same argument. -/
theorem eventually_fulfills_frame : ∀ᶠ m in Filter.atTop,
    h.fulfills (m + 1) (f.fill x) (f.fill y) =
      agreeAt (h.fulfills m) (h.holeVariance f) x y := by
  obtain ⟨⟨n, hn, hl⟩, hothers⟩ := isGroundFrame_iff.1 hf
  have hlen : (f.before ++ x :: f.after).length = n.arity := by
    simp only [List.length_append, List.length_cons]
    omega
  have hraise := S.raise_self (a := ⟨f.head, f.before ++ x :: f.after⟩) hn hlen
  filter_upwards [eventually_agreeAt_self S hothers] with m hm
  simp only [fulfills, Frame.fill, fulfillsWith, appFulfillsWith, hn, hraise]
  rw [argsAgree_around hm, holeVariance, hn]
  rfl

theorem decided_covariant_frame : h.Decided .covariant (f.fill x) (f.fill y) answer ↔
    h.Decided (h.holeVariance f) x y answer := by
  rw [decided_iff_eventually, decided_iff_eventually]
  constructor
  · intro he
    filter_upwards [(Filter.tendsto_add_atTop_nat 1).eventually he,
      eventually_fulfills_frame S hf] with m hm heq
    exact heq.symm.trans hm
  · intro he
    refine eventually_of_succ ?_
    filter_upwards [he, eventually_fulfills_frame S hf] with m hm heq
    exact heq.trans hm

/-- **A frame takes the question to the argument**, at the variance of the place composed with the
    declared one. -/
theorem decided_frame (hx : h.Ground x) (hy : h.Ground y) :
    h.Decided v (f.fill x) (f.fill y) answer ↔
      h.Decided (v.compose (h.holeVariance f)) x y answer := by
  cases v with
  | covariant =>
      rw [Variance.compose_covariant]
      exact decided_covariant_frame S hf
  | contravariant =>
      -- the sides are exchanged around the frame and then again at the argument
      have hback : h.Decided .contravariant (f.fill x) (f.fill y) answer ↔
          h.Decided .covariant (f.fill y) (f.fill x) answer := Iff.rfl
      rw [hback, decided_covariant_frame S hf, decided_swap hx.toOver hy.toOver]
  | invariant =>
      show _ ↔ h.Decided .invariant x y answer
      rw [decided_invariant (ground_frame hf hx) (ground_frame hf hy), decided_invariant hx hy,
        decide_eq_decide.2 Frame.fill_inj]

end Frame

/-! ## 4. Whole contexts -/

/-- A context takes the question to the hole. -/
theorem decided_context (S : Sound h) {K : Context} (hK : ∀ f ∈ K, h.isGroundFrame f = true)
    {x y : Ty} (hx : h.Ground x) (hy : h.Ground y) {v : Variance} {answer : Bool} :
    h.Decided v (K.fill x) (K.fill y) answer ↔
      h.Decided (K.foldl (fun v f => v.compose (h.holeVariance f)) v) x y answer := by
  induction K generalizing v with
  | nil => exact Iff.rfl
  | cons f K ih =>
      rw [List.forall_mem_cons] at hK
      have hframe : h.Decided v (Context.fill (f :: K) x) (Context.fill (f :: K) y) answer ↔
          h.Decided (v.compose (h.holeVariance f)) (Context.fill K x) (Context.fill K y) answer :=
        decided_frame S hK.1 (ground_context hK.2 hx) (ground_context hK.2 hy)
      exact hframe.trans (ih hK.2)

/-- **Subtyping follows the composed variance of the path, at any depth.** Whether a context filled
    with one ground instance fulfills the context filled with another one is answered as the
    question about the two instances, asked in the same order where the variances compose to
    covariant and in the other order where they compose to contravariant. Where they compose to
    invariant, the answer is whether the instances are equal. The question about the contexts comes
    to an end exactly if the one about the instances does. -/
theorem typeFulfills_context (hr : Reachable h) {K : Context}
    (hK : ∀ f ∈ K, h.isGroundFrame f = true) {x y : Ty} (hx : h.isGround x = true)
    (hy : h.isGround y = true) {answer : Bool} :
    (∃ k, h.typeFulfills k (K.fill x) (K.fill y) = some answer) ↔
      (h.pathVariance K = .covariant ∧ ∃ k, h.typeFulfills k x y = some answer) ∨
      (h.pathVariance K = .contravariant ∧ ∃ k, h.typeFulfills k y x = some answer) ∨
      (h.pathVariance K = .invariant ∧ answer = decide (x = y)) := by
  have S := sound_of_reachable hr
  have gx := isGround_iff.1 hx
  have gy := isGround_iff.1 hy
  have hask {s t : Ty} (hs : h.Ground s) (ht : h.Ground t) :
      (∃ k, h.typeFulfills k s t = some answer) ↔ h.Decided .covariant s t answer := by
    simp only [typeFulfills_of_sketch (hs.toOver : h.Sketch s) (ht.toOver : h.Sketch t)]
    exact Iff.rfl
  rw [hask (ground_context hK gx) (ground_context hK gy), hask gx gy, hask gy gx,
    decided_context S hK gx gy]
  show h.Decided (h.pathVariance K) x y answer ↔ _
  cases h.pathVariance K with
  | covariant => simp
  | contravariant =>
      simp only [reduceCtorEq, false_and, true_and, false_or, or_false]
      exact Iff.rfl
  | invariant => simp [decided_invariant gx gy]

/-- A source of sinks. -/
def sinkSlot : Context := [⟨"source", [], []⟩, ⟨"sink", [], []⟩]

/-- A source of sinks of cells, labelled `int`. -/
def cellSlot : Context := sinkSlot ++ [⟨"cell", [], [bareType "int"]⟩]

/-- A source of sinks of `number` is one of sinks of `int`, and not the other way round. With cells
    in between it is not. -/
theorem channels_nested : channels.pathVariance sinkSlot = .contravariant ∧
    (∃ k, channels.typeFulfills k (sinkSlot.fill (bareType "number"))
      (sinkSlot.fill (bareType "int")) = some true) ∧
    (∃ k, channels.typeFulfills k (sinkSlot.fill (bareType "int"))
      (sinkSlot.fill (bareType "number")) = some false) ∧
    channels.pathVariance cellSlot = .invariant ∧
    ∃ k, channels.typeFulfills k (cellSlot.fill (bareType "number"))
      (cellSlot.fill (bareType "int")) = some false := by
  have hr : Reachable channels := ⟨_, rfl⟩
  have hsink : ∀ f ∈ sinkSlot, channels.isGroundFrame f = true := by decide
  have hcell : ∀ f ∈ cellSlot, channels.isGroundFrame f = true := by decide
  refine ⟨rfl, ?_, ?_, rfl, ?_⟩
  · exact (typeFulfills_context hr hsink rfl rfl).2 (Or.inr (Or.inl ⟨rfl, 2, rfl⟩))
  · exact (typeFulfills_context hr hsink rfl rfl).2 (Or.inr (Or.inl ⟨rfl, 2, rfl⟩))
  · exact (typeFulfills_context hr hcell rfl rfl).2 (Or.inr (Or.inr ⟨rfl, rfl⟩))

end Hierarchy

end Lineage

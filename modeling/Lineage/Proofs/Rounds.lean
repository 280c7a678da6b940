import Lineage.Hierarchy.Query
import Lineage.Proofs.Monadic

/-!
# More rounds keep an answer

A round asks the round before it, and looks at nothing else that could change. So an answer that was
found in some number of rounds is found in every larger number (`fulfills_keeps`,
`constraints_keeps`, `common_keeps`): the rounds decide whether there is an answer, not which one.

The order is that of results that are not there yet, `Keeps`. Each function of the search is
monotone in what it may ask.
-/

namespace Lineage

/-- The second result is the first one, if there was one. -/
def Keeps {α : Type} (x y : Option α) : Prop := ∀ ⦃a : α⦄, x = some a → y = some a

/-! ## 1. Runs -/

namespace Keeps

variable {α β : Type}

theorem refl (x : Option α) : Keeps x x := fun _ e => e

theorem none (y : Option α) : Keeps Option.none y := nofun

/-- Two steps in a row. -/
theorem bind {x y : Option α} {f g : α → Option β} (hx : Keeps x y)
    (hf : ∀ a, Keeps (f a) (g a)) : Keeps (x >>= f) (y >>= g) := by
  intro b e
  obtain ⟨a, ha, e⟩ := Option.bind_eq_some_iff.1 e
  exact Option.bind_eq_some_iff.2 ⟨a, hx ha, hf a e⟩

variable {f g : α → Option β} (hf : ∀ x, Keeps (f x) (g x))

include hf in
theorem mapM (xs : List α) : Keeps (xs.mapM f) (xs.mapM g) := by
  intro ys e
  exact mapM_eq_some.2 ((mapM_eq_some.1 e).imp fun x _ hx => hf x hx)

variable {p q : α → Option Bool} (hp : ∀ x, Keeps (p x) (q x))
include hp

theorem allM (xs : List α) : Keeps (xs.allM p) (xs.allM q) := by
  induction xs with
  | nil => exact refl _
  | cons x xs ih =>
      refine bind (hp x) fun b => ?_
      cases b with
      | false => exact refl _
      | true => exact ih

theorem anyM (xs : List α) : Keeps (xs.anyM p) (xs.anyM q) := by
  induction xs with
  | nil => exact refl _
  | cons x xs ih =>
      refine bind (hp x) fun b => ?_
      cases b with
      | false => exact ih
      | true => exact refl _

theorem keep (xs : List α) : Keeps (Nearest.keep p xs) (Nearest.keep q xs) := by
  induction xs with
  | nil => exact refl _
  | cons x xs ih => exact bind (hp x) fun _ => bind ih fun _ => refl _

end Keeps

namespace Keeps

variable {α β : Type}

theorem foldlM {f g : β → α → Option β} (hf : ∀ b x, Keeps (f b x) (g b x)) (xs : List α) (b : β) :
    Keeps (xs.foldlM f b) (xs.foldlM g b) := by
  induction xs generalizing b with
  | nil => exact refl _
  | cons x xs ih =>
      rw [List.foldlM_cons, List.foldlM_cons]
      exact bind (hf b x) ih

theorem choices {f g : α → Option (List β)} (hf : ∀ x, Keeps (f x) (g x)) (xs : List α) :
    Keeps (Nearest.choices f xs) (Nearest.choices g xs) := by
  induction xs with
  | nil => exact refl _
  | cons x xs ih =>
      refine bind (hf x) fun os => ?_
      cases os with
      | nil => exact refl _
      | cons o os => exact bind ih fun _ => refl _

theorem matchAll {f g : α → Option Nearest.Match} (hf : ∀ x, Keeps (f x) (g x)) (xs : List α) :
    Keeps (Nearest.matchAll f xs) (Nearest.matchAll g xs) := by
  induction xs with
  | nil => exact refl _
  | cons x xs ih =>
      refine bind (hf x) fun found => ?_
      cases found with
      | none => exact refl _
      | some cs => exact bind ih fun _ => refl _

end Keeps

namespace Hierarchy

/-! ## 2. Subtyping -/

section Fulfills

variable (h : Hierarchy) {r s : Ty → Ty → Option Bool} (hr : ∀ x y, Keeps (r x y) (s x y))
include hr

theorem agreeAt_keeps (v : Variance) (x y : Ty) : Keeps (agreeAt r v x y) (agreeAt s v x y) := by
  cases v with
  | covariant => exact hr x y
  | contravariant => exact hr y x
  | invariant => exact .refl _

theorem argsAgree_keeps (n : Node) (xs ys : List Ty) :
    Keeps (argsAgree r n xs ys) (argsAgree s n xs ys) :=
  .allM (fun _ => agreeAt_keeps hr _ _ _) _

theorem appFulfillsWith_keeps (a b : App Ty) :
    Keeps (h.appFulfillsWith r a b) (h.appFulfillsWith s a b) := by
  unfold appFulfillsWith
  cases h.find? b.head with
  | none => exact .refl _
  | some n =>
      dsimp only
      cases h.raise a n.id with
      | none => exact .refl _
      | some raised => exact argsAgree_keeps hr n _ _

theorem fulfillsWith_keeps (x y : Ty) : Keeps (h.fulfillsWith r x y) (h.fulfillsWith s x y) := by
  have hif (b : Bool) {p q p' q' : Option Bool} (hp : Keeps p p') (hq : Keeps q q') :
      Keeps (if b = true then p else q) (if b = true then p' else q') := by
    cases b with
    | false => exact hq
    | true => exact hp
  cases y with
  | var v =>
      rw [fulfillsWith, fulfillsWith]
      refine .bind (.allM (fun l => hr (.app l) x) v.lower) fun b => ?_
      exact hif b (.allM (fun u => hr x (.app u)) v.upper) (.refl _)
  | app b =>
      cases x with
      | app a => exact h.appFulfillsWith_keeps hr a b
      | var v =>
          rw [fulfillsWith, fulfillsWith, varFulfillsWith, varFulfillsWith]
          refine hif v.isBounded (.bind (.allM (fun l => h.appFulfillsWith_keeps hr l b) v.lower)
            fun _ => .refl _) (.refl _)

end Fulfills

/-- **An answer about subtyping stays in more rounds.** -/
theorem fulfills_keeps (h : Hierarchy) {k m : Nat} (hk : k ≤ m) (x y : Ty) :
    Keeps (h.fulfills k x y) (h.fulfills m x y) := by
  induction k generalizing m x y with
  | zero => exact .none _
  | succ k ih =>
      cases m with
      | zero => cases hk
      | succ m => exact h.fulfillsWith_keeps (ih (Nat.le_of_succ_le_succ hk)) x y

end Hierarchy

namespace Nearest

open Hierarchy

/-! ## 3. Matching -/

section Matching

variable (h : Hierarchy) {f g : Variance → Ty → Ty → Option Match}
  (hf : ∀ v x y, Keeps (f v x y) (g v x y))
include hf

theorem matchArgs_keeps (v : Variance) (n : Node) (ps xs : List Ty) :
    Keeps (matchArgs f v n ps xs) (matchArgs g v n ps xs) :=
  .matchAll (fun _ => hf _ _ _) _

theorem matchSame_keeps (v : Variance) (p a : App Ty) :
    Keeps (matchSame h f v p a) (matchSame h g v p a) := by
  unfold matchSame
  cases h.find? p.head with
  | none => exact .refl _
  | some n => exact matchArgs_keeps hf v n _ _

theorem matchApp_keeps (v : Variance) (p a : App Ty) :
    Keeps (matchApp h f v p a) (matchApp h g v p a) := by
  unfold matchApp
  cases v with
  | covariant =>
      dsimp only
      cases (h.find? a.head).bind (h.raise p ·.id) with
      | none => exact .refl _
      | some raised => exact matchSame_keeps h hf _ _ _
  | contravariant =>
      dsimp only
      cases (h.find? p.head).bind (h.raise a ·.id) with
      | none => exact .refl _
      | some raised => exact matchSame_keeps h hf _ _ _
  | invariant =>
      dsimp only
      split
      · exact matchSame_keeps h hf _ _ _
      · exact .refl _

theorem matchWith_keeps (v : Variance) (p x : Ty) :
    Keeps (matchWith h f v p x) (matchWith h g v p x) := by
  cases p with
  | var w => exact .refl _
  | app p =>
      cases x with
      | var w => exact .refl _
      | app a => exact matchApp_keeps h hf v p a

end Matching

/-- The constraints found stay in more rounds. -/
theorem constraints_keeps (h : Hierarchy) {k m : Nat} (hk : k ≤ m) (v : Variance) (p x : Ty) :
    Keeps (constraints h k v p x) (constraints h m v p x) := by
  induction k generalizing m v p x with
  | zero => exact .none _
  | succ k ih =>
      cases m with
      | zero => cases hk
      | succ m => exact matchWith_keeps h (ih (Nat.le_of_succ_le_succ hk)) v p x

/-! ## 4. Common relatives -/

/-- The second answers keep all that the first ones say. -/
structure Answers.Kept (q q' : Answers) : Prop where
  fulfills : ∀ x y, Keeps (q.fulfills x y) (q'.fulfills x y)
  constraints : ∀ v p x, Keeps (q.constraints v p x) (q'.constraints v p x)
  common : ∀ d ts, Keeps (q.common d ts) (q'.common d ts)

section Common

variable {h : Hierarchy} {tables : Tables} {q q' : Answers} (hq : q.Kept q')
include hq

theorem solutions_keeps (cs : List Constraint) : Keeps (solutions q cs) (solutions q' cs) := by
  have hlower (ls : List Ty) (z : Ty) :
      Keeps (ls.allM (q.fulfills · z)) (ls.allM (q'.fulfills · z)) :=
    .allM (fun l => hq.fulfills l z) ls
  unfold solutions
  dsimp only
  split
  · exact .refl _
  · split
    · split
      · exact .refl _
      · refine .keep (fun z => ?_) _
        refine .bind (.allM (fun u => hq.fulfills z u) _) fun b => ?_
        cases b with
        | false => exact .refl _
        | true => exact hlower _ z
    · split
      · exact hq.common _ _
      · exact .bind (hq.common _ _) fun found => .keep (hlower _) found

theorem lowerings_keeps (a : App Ty) (target : Node) :
    Keeps (lowerings h q a target) (lowerings h q' a target) := by
  unfold lowerings
  split
  · exact .refl _
  · split
    · exact .refl _
    · refine .bind (matchArgs_keeps hq.constraints _ _ _ _) fun found => ?_
      cases found with
      | none => exact .refl _
      | some cs => exact .bind (.choices (fun p => solutions_keeps hq _) _) fun _ => .refl _

theorem carry_keeps (d : Direction) (a : App Ty) (target : Node) :
    Keeps (carry h q d a target) (carry h q' d a target) := by
  cases d with
  | up => exact .refl _
  | down => exact lowerings_keeps hq a target

theorem combineAt_keeps (d : Direction) (v : Variance) (x y : Ty) :
    Keeps (combineAt q d v x y) (combineAt q' d v x y) := by
  cases v with
  | covariant => exact hq.common _ _
  | contravariant => exact hq.common _ _
  | invariant => exact .refl _

theorem combineArgs_keeps (d : Direction) (n : Node) (a b : App Ty) :
    Keeps (combineArgs q d n a b) (combineArgs q' d n a b) :=
  .bind (.choices (fun _ => combineAt_keeps hq _ _ _ _) _) fun _ => .refl _

theorem combineVia_keeps (d : Direction) (a b : App Ty) (n : Node) :
    Keeps (combineVia h q d a b n) (combineVia h q' d a b n) := by
  refine .bind (carry_keeps hq d a n) fun as => .bind (carry_keeps hq d b n) fun bs => ?_
  exact .bind (.mapM (fun _ => combineArgs_keeps hq d n _ _) _) fun _ => .refl _

theorem combineApps_keeps (d : Direction) (a b : App Ty) :
    Keeps (combineApps h tables q d a b) (combineApps h tables q' d a b) := by
  unfold combineApps
  split
  · exact .bind (.mapM (combineVia_keeps hq d a b) _) fun _ => .refl _
  · exact .refl _

theorem combineVarApp_keeps (d : Direction) (v : Var Ty) (a : App Ty) :
    Keeps (combineVarApp q d v a) (combineVarApp q' d v a) := by
  unfold combineVarApp
  split
  · exact .refl _
  · exact hq.common _ _

theorem combineBounds_keeps (d : Direction) (as bs : List (App Ty)) :
    Keeps (combineBounds q d as bs) (combineBounds q' d as bs) := by
  unfold combineBounds
  split
  · exact .refl _
  · split
    · exact .refl _
    · exact .bind (hq.common _ _) fun _ => .refl _

theorem combineVars_keeps (d : Direction) (v w : Var Ty) :
    Keeps (combineVars h q d v w) (combineVars h q' d v w) := by
  refine .bind (combineBounds_keeps hq _ _ _) fun lower => ?_
  cases lower with
  | none => exact .refl _
  | some lower =>
      refine .bind (combineBounds_keeps hq _ _ _) fun upper => ?_
      cases upper with
      | none => exact .refl _
      | some upper =>
          refine .bind (.allM (fun lo => .allM (fun up => ?_) upper) lower) fun _ => .refl _
          exact h.appFulfillsWith_keeps hq.fulfills lo up

theorem combine_keeps (d : Direction) (x y : Ty) :
    Keeps (combine h tables q d x y) (combine h tables q' d x y) := by
  cases x with
  | app a =>
      cases y with
      | app b => exact .bind (combineApps_keeps hq d a b) fun _ => .refl _
      | var w => exact combineVarApp_keeps hq d w a
  | var v =>
      cases y with
      | app b => exact combineVarApp_keeps hq d v b
      | var w => exact combineVars_keeps hq d v w

theorem strictlyFulfills_keeps (a b : App Ty) :
    Keeps (strictlyFulfills h q a b) (strictlyFulfills h q' a b) := by
  refine .bind (h.appFulfillsWith_keeps hq.fulfills a b) fun below => ?_
  cases below with
  | false => exact .refl _
  | true => exact .bind (h.appFulfillsWith_keeps hq.fulfills b a) fun _ => .refl _

theorem keepNearest_keeps (d : Direction) (results : List Ty) :
    Keeps (keepNearest h q d results) (keepNearest h q' d results) := by
  refine .keep (fun t => ?_) results
  cases t with
  | var v => exact .refl _
  | app x =>
      refine .bind (.anyM (fun y => ?_) _) fun _ => .refl _
      split
      · exact .refl _
      · cases d with
        | up => exact strictlyFulfills_keeps hq y x
        | down => exact strictlyFulfills_keeps hq x y

theorem commonWith_keeps (d : Direction) (ts : List Ty) :
    Keeps (commonWith h tables q d ts) (commonWith h tables q' d ts) := by
  cases ts with
  | nil => exact .refl _
  | cons t ts =>
      refine .foldlM (fun results operand => ?_) ts [t]
      exact .bind (.mapM (fun x => combine_keeps hq d x operand) results) fun _ =>
        keepNearest_keeps hq d _

end Common

/-- **What the search finds stays in more rounds.** -/
theorem common_keeps (h : Hierarchy) (tables : Tables) {k m : Nat} (hk : k ≤ m) (d : Direction)
    (ts : List Ty) : Keeps (common h tables k d ts) (common h tables m d ts) := by
  induction k generalizing m d ts with
  | zero => exact .none _
  | succ k ih =>
      cases m with
      | zero => cases hk
      | succ m =>
          have hle := Nat.le_of_succ_le_succ hk
          exact commonWith_keeps ⟨h.fulfills_keeps hle, constraints_keeps h hle, ih hle⟩ d ts

/-- What a round may ask, answered in the given number of rounds. -/
def answers (h : Hierarchy) (tables : Tables) (rounds : Nat) : Answers :=
  ⟨h.fulfills rounds, constraints h rounds, common h tables rounds⟩

theorem answers_kept (h : Hierarchy) (tables : Tables) {k m : Nat} (hk : k ≤ m) :
    (answers h tables k).Kept (answers h tables m) :=
  ⟨h.fulfills_keeps hk, constraints_keeps h hk, common_keeps h tables hk⟩

end Nearest

end Lineage

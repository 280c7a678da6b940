import Lineage.Hierarchy.Basic

/-!
# Matching a record against an instance

A heir's record of an ancestor is written in the heir's parameters. Matching it against an instance
of the ancestor gives constraints on the parameters: what each has to be equal to, below, or above.

Along the way the pattern and the value are raised to each other's type, so the matching is done in
rounds as subtyping is. The inner `none` says that no arguments can make the pattern fit.
-/

namespace Lineage

/-- A parameter has to stand in a relation to a value: below it, above it, or equal to it. -/
structure Constraint where
  param : String
  value : Ty
  relation : Variance
  deriving DecidableEq

namespace Nearest

/-- The constraints found, or `none` where the pattern cannot fit. -/
abbrev Match := Option (List Constraint)

/-- The constraints of several matches together, from left to right up to the first that fails. -/
def matchAll {α : Type} (f : α → Option Match) : List α → Option Match
  | [] => some (some [])
  | x :: xs => do
      match ← f x with
      | none => return none
      | some found => return (← matchAll f xs).map (found ++ ·)

/-- Match the arguments of two applications of one type. -/
def matchArgs (rec : Variance → Ty → Ty → Option Match) (relation : Variance) (n : Node)
    (patterns values : List Ty) : Option Match :=
  matchAll (fun ((p, v), i) => rec (relation.compose (n.variance i)) p v)
    (patterns.zip values).zipIdx

/-- Match two applications whose heads are the same type. -/
def matchSame (h : Hierarchy) (rec : Variance → Ty → Ty → Option Match) (relation : Variance)
    (pattern value : App Ty) : Option Match :=
  match h.find? pattern.head with
  | none => some none
  | some n => matchArgs rec relation n pattern.args value.args

/-- Match two applications after raising the lower one to the type of the other. -/
def matchApp (h : Hierarchy) (rec : Variance → Ty → Ty → Option Match) (relation : Variance)
    (pattern value : App Ty) : Option Match :=
  match relation with
  | .covariant =>
      match (h.find? value.head).bind (h.raise pattern ·.id) with
      | none => some none
      | some raised => matchSame h rec relation raised value
  | .contravariant =>
      match (h.find? pattern.head).bind (h.raise value ·.id) with
      | none => some none
      | some raised => matchSame h rec relation pattern raised
  | .invariant =>
      if pattern.head = value.head then matchSame h rec relation pattern value else some none

/-- One round of matching. A named variable of the pattern is constrained; `_` and a variable as
    the value leave everything open. -/
def matchWith (h : Hierarchy) (rec : Variance → Ty → Ty → Option Match) (relation : Variance) :
    Ty → Ty → Option Match
  | .var v, value => some (some (if v.isAnonymous then [] else [⟨v.name, value, relation⟩]))
  | .app _, .var _ => some (some [])
  | .app p, .app v => matchApp h rec relation p v

/-- The constraints under which the pattern stands in a relation to the value, found in at most
    `rounds` rounds. -/
def constraints (h : Hierarchy) : (rounds : Nat) → Variance → Ty → Ty → Option Match
  | 0, _, _, _ => none
  | rounds + 1, relation, pattern, value =>
      matchWith h (constraints h rounds) relation pattern value

end Nearest

end Lineage

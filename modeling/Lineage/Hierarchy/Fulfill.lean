import Lineage.Hierarchy.Normal
import Lineage.Ty.Merge

/-!
# Subtyping

`fulfills` says whether an instance can stand where another one is expected. Both are normal.

* An expected variable is fulfilled by everything between its bounds.
* A variable without bounds fulfills every application. Other variables fulfill an application if
  their lower bounds do, and if some type descends from it and from all their upper bounds.
* An application fulfills another one if it can be raised to it and the arguments agree as the
  variances of the expected type demand.

Raising can enlarge an instance, and contravariant positions exchange the sides, so the rules need
not come to an end on every hierarchy. The question is answered in rounds: `none` says that the
rounds given did not suffice.
-/

namespace Lineage.Hierarchy

/-! ## 1. One round

`rec` answers the questions about smaller instances. -/

/-- Whether two arguments agree at a position of some variance. -/
def agreeAt (rec : Ty → Ty → Option Bool) (v : Variance) (found expected : Ty) : Option Bool :=
  match v with
  | .covariant => rec found expected
  | .contravariant => rec expected found
  | .invariant => some (found.merge expected).isSome

/-- Whether arguments agree position by position under the variances of a node. -/
def argsAgree (rec : Ty → Ty → Option Bool) (n : Node) (found expected : List Ty) : Option Bool :=
  (found.zip expected).zipIdx.allM fun ((x, y), i) => agreeAt rec (n.variance i) x y

/-- Whether an application fulfills another one. -/
def appFulfillsWith (h : Hierarchy) (rec : Ty → Ty → Option Bool) (a b : App Ty) : Option Bool :=
  match h.find? b.head with
  | none => some false
  | some n =>
      match h.raise a n.id with
      | none => some false
      | some raised => argsAgree rec n raised.args b.args

/-- Whether some type descends from all of the given ones. -/
def shareDescendant (h : Hierarchy) (apps : List (App Ty)) : Bool :=
  match apps.mapM fun a => h.find? a.head with
  | none => false
  | some [] => false
  | some (n :: ns) => n.descendants.any fun id => ns.all (·.descendants.contains id)

/-- Whether a variable fulfills an application. -/
def varFulfillsWith (h : Hierarchy) (rec : Ty → Ty → Option Bool) (v : Var Ty) (b : App Ty) :
    Option Bool :=
  if v.isBounded then do
    if ← v.lower.allM (h.appFulfillsWith rec · b) then
      return v.upper.isEmpty || h.shareDescendant (v.upper ++ [b])
    else
      return false
  else
    some true

/-- Whether an instance lies between the bounds of a variable. -/
def betweenBounds (rec : Ty → Ty → Option Bool) (t : Ty) (v : Var Ty) : Option Bool := do
  if ← v.lower.allM fun lower => rec (.app lower) t then
    v.upper.allM fun upper => rec t (.app upper)
  else
    return false

/-- One round of `fulfills`. -/
def fulfillsWith (h : Hierarchy) (rec : Ty → Ty → Option Bool) : Ty → Ty → Option Bool
  | t, .var v => betweenBounds rec t v
  | .var v, .app b => h.varFulfillsWith rec v b
  | .app a, .app b => h.appFulfillsWith rec a b

/-! ## 2. Rounds -/

/-- Whether an instance fulfills another one, answered in at most `rounds` rounds. -/
def fulfills (h : Hierarchy) : (rounds : Nat) → Ty → Ty → Option Bool
  | 0, _, _ => none
  | rounds + 1, a, b => h.fulfillsWith (h.fulfills rounds) a b

/-- Whether an application fulfills another one. -/
def appFulfills (h : Hierarchy) (rounds : Nat) (a b : App Ty) : Option Bool :=
  h.appFulfillsWith (h.fulfills rounds) a b

/-! ## 3. Valid instances -/

/-- An answer, an error, or `none` if the rounds did not suffice. -/
abbrev Query (α : Type) := ExceptT Error Option α

/-- Every lower bound of a variable has to fulfill every upper bound. -/
def checkRange (h : Hierarchy) (rounds : Nat) (v : Var Ty) : Query Unit :=
  v.lower.forM fun lower => v.upper.forM fun upper => do
    if ← (h.appFulfills rounds lower upper : Option Bool) then
      return ()
    else
      throw (.incompatible (.emptyRange lower v upper))

mutual
/-- Every variable in an instance, nested ones included, has to have a range. -/
def checkRanges (h : Hierarchy) (rounds : Nat) : Ty → Query Unit
  | .app a => h.checkRangesApp rounds a
  | .var ⟨name, lower, upper⟩ => do
      h.checkRange rounds ⟨name, lower, upper⟩
      h.checkRangesApps rounds lower
      h.checkRangesApps rounds upper
/-- `checkRanges` on the arguments of an application. -/
def checkRangesApp (h : Hierarchy) (rounds : Nat) : App Ty → Query Unit
  | ⟨_, args⟩ => h.checkRangesAll rounds args
/-- `checkRanges` on every instance of a list. -/
def checkRangesAll (h : Hierarchy) (rounds : Nat) : List Ty → Query Unit
  | [] => return ()
  | t :: ts => do
      h.checkRanges rounds t
      h.checkRangesAll rounds ts
/-- `checkRangesApp` on every application of a list. -/
def checkRangesApps (h : Hierarchy) (rounds : Nat) : List (App Ty) → Query Unit
  | [] => return ()
  | a :: as => do
      h.checkRangesApp rounds a
      h.checkRangesApps rounds as
end

/-- The normal form of an instance whose variables have ranges. -/
def validate (h : Hierarchy) (rounds : Nat) (t : Ty) : Query Ty := do
  let t ← (liftExcept (h.normalize t) : Query Ty)
  h.checkRanges rounds t
  return t

end Lineage.Hierarchy

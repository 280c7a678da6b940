import Lineage.Nearest.Common

/-!
# Questions to a hierarchy

The three questions: whether an instance fits the declared types, whether one instance fulfills
another, and which are the nearest common relatives of a list of instances. Each takes the number
of rounds it may use, and answers `none` if they do not suffice.
-/

namespace Lineage.Hierarchy

/-- Rounds that suffice for every question that comes to an end on a hierarchy of ordinary size. A
    chain of declarations that double each other takes twice as many with every link. -/
def ampleRounds : Nat := 1000000

/-- Whether an instance fits: its names are declared, its arguments are as many as declared, and
    its variables have ranges. -/
def isCompatible (h : Hierarchy) (rounds : Nat) (t : Ty) : Option Bool := do
  match ← (h.validate rounds t).run with
  | .ok _ => return true
  | .error _ => return false

/-- Whether `provided` can stand where `expected` is expected. Instances that do not fit fulfill
    nothing and are fulfilled by nothing. -/
def typeFulfills (h : Hierarchy) (rounds : Nat) (provided expected : Ty) : Option Bool := do
  match ← (h.validate rounds provided).run, ← (h.validate rounds expected).run with
  | .ok p, .ok e => h.fulfills rounds p e
  | _, _ => return false

/-- The operand of a question in some direction. Going up only the lower bounds of a variable
    matter, so its range is not checked. -/
def operand (h : Hierarchy) (rounds : Nat) (d : Direction) (t : Ty) : Query Ty :=
  match d with
  | .up => liftExcept (h.normalize t)
  | .down => h.validate rounds t

/-- The nearest common relatives of a list of instances. -/
def nearestCommon (h : Hierarchy) (rounds : Nat) (d : Direction) (operands : List Ty) :
    Query (List Ty) := do
  match h.tables with
  | none => throw .notFinalized
  | some tables => do
      let operands ← operands.mapM (h.operand rounds d)
      (Nearest.common h tables rounds d operands : Option (List Ty))

end Lineage.Hierarchy

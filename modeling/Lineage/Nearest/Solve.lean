import Lineage.Hierarchy.Fulfill
import Lineage.Nearest.Constraint

/-!
# Carrying an instance to a relative

Going up, an application is carried to an ancestor by raising it. Going down, the descendant's
record of the type is matched against the application, and the constraints are solved for the
descendant's parameters. There may be several most general solutions, or none.

The questions about smaller instances that come up on the way are answered by an earlier round.
-/

namespace Lineage.Nearest

/-- What a round may ask about smaller instances. -/
structure Answers where
  fulfills : Ty → Ty → Option Bool
  constraints : Variance → Ty → Ty → Option Match
  common : Direction → List Ty → Option (List Ty)

/-! ## 1. Lists -/

/-- The members that pass a test. -/
def keep {α : Type} (p : α → Option Bool) : List α → Option (List α)
  | [] => some []
  | x :: xs => do
      let passes ← p x
      let rest ← keep p xs
      return if passes then x :: rest else rest

/-- Every way to choose one of the options of each position, earlier positions varying slowest. A
    position without options leaves no way, and the positions behind it are not looked at. -/
def choices {α β : Type} (options : α → Option (List β)) : List α → Option (List (List β))
  | [] => some [[]]
  | x :: xs => do
      match ← options x with
      | [] => return []
      | o :: os =>
          let rests ← choices options xs
          return (o :: os).flatMap fun b => rests.map (b :: ·)

/-! ## 2. Going down -/

/-- The values of the constraints of some relation. -/
def valuesOf (relation : Variance) (cs : List Constraint) : List Ty :=
  (cs.filter (·.relation = relation)).map Constraint.value

/-- Whether a value is below all of `uppers` and above all of `lowers`. -/
def fits (q : Answers) (uppers lowers : List Ty) (value : Ty) : Option Bool := do
  if ← uppers.allM (q.fulfills value ·) then
    lowers.allM (q.fulfills · value)
  else
    return false

/-- The most general values that satisfy all constraints on one parameter. Constraints by variables
    without bounds say nothing. -/
def solutions (q : Answers) (cs : List Constraint) : Option (List Ty) :=
  let cs := cs.filter (!·.value.isFree)
  let uppers := valuesOf .covariant cs
  let lowers := valuesOf .contravariant cs
  if cs.isEmpty then
    some [.anonymous]
  else
    match valuesOf .invariant cs with
    | exact :: exacts =>
        match exacts.foldlM Ty.merge exact with
        | none => some []
        | some value => keep (fits q uppers lowers) [value]
    | [] =>
        if uppers.isEmpty then
          q.common .up lowers
        else do
          let found ← q.common .down uppers
          keep (fun value => lowers.allM (q.fulfills · value)) found

/-- The most general instances of a descendant that fulfill an application. -/
def lowerings (h : Hierarchy) (q : Answers) (a : App Ty) (target : Node) :
    Option (List (App Ty)) :=
  match h.find? a.head with
  | none => some []
  | some source =>
      match target.ancestors.get? source.id with
      | none => some []
      | some record => do
          match ← matchArgs q.constraints .covariant source record.args a.args with
          | none => return []
          | some cs =>
              let options (p : Param) := solutions q (cs.filter (·.param = p.name))
              let found ← choices options target.params
              return found.map (⟨target.name, ·⟩)

/-- An application carried over to a type that lies in some direction. -/
def carry (h : Hierarchy) (q : Answers) (d : Direction) (a : App Ty) (target : Node) :
    Option (List (App Ty)) :=
  match d with
  | .up => some (h.raise a target.id).toList
  | .down => lowerings h q a target

end Lineage.Nearest

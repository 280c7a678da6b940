import Lineage.Hierarchy.Basic

/-!
# Normal instances

An instance is normal when every name in it is declared and stands with the declared number of
arguments. A name without arguments abbreviates the application to `_` at every position;
`Hierarchy.normalize` writes the abbreviation out and refuses what does not fit. The first misfit
from left to right is reported, lower bounds before upper bounds.
-/

namespace Lineage.Hierarchy

mutual
/-- The instance with abbreviations written out. -/
def normalize (h : Hierarchy) : Ty → Except Error Ty
  | .app a => do return .app (← h.normalizeApp a)
  | .var ⟨name, lower, upper⟩ => do
      let lower ← h.normalizeApps lower
      let upper ← h.normalizeApps upper
      return .var ⟨name, lower, upper⟩
/-- The application with abbreviations written out. -/
def normalizeApp (h : Hierarchy) : App Ty → Except Error (App Ty)
  | ⟨head, args⟩ =>
      match h.find? head with
      | none => .error (.incompatible (.unregistered head))
      | some n =>
          if args.isEmpty then
            .ok ⟨head, List.replicate n.arity .anonymous⟩
          else if args.length = n.arity then do
            return ⟨head, ← h.normalizeAll args⟩
          else
            .error (.incompatible (.wrongArity ⟨head, args⟩ n.arity))
/-- `normalize` on every instance of a list. -/
def normalizeAll (h : Hierarchy) : List Ty → Except Error (List Ty)
  | [] => .ok []
  | t :: ts => do
      let t ← h.normalize t
      let ts ← h.normalizeAll ts
      return t :: ts
/-- `normalizeApp` on every application of a list. -/
def normalizeApps (h : Hierarchy) : List (App Ty) → Except Error (List (App Ty))
  | [] => .ok []
  | a :: as => do
      let a ← h.normalizeApp a
      let as ← h.normalizeApps as
      return a :: as
end

end Lineage.Hierarchy

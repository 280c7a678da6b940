import Lineage.Diagnostic
import Lineage.Ty.Text

/-!
# What a hierarchy refuses

`Misfit` says why an instance does not fit the declared types; `Error` is everything that a
hierarchy can answer instead of a result.
-/

namespace Lineage

/-- Why an instance does not fit the declared types. -/
inductive Misfit where
  /-- A parent is a variable. -/
  | parentIsVariable (child : String) (parent : Ty)
  /-- No type has that name. -/
  | unregistered (name : String)
  /-- The number of arguments is not the declared one. -/
  | wrongArity (found : App Ty) (declared : Nat)
  /-- A lower bound of a variable does not fulfill an upper bound. -/
  | emptyRange (lower : App Ty) (range : Var Ty) (upper : App Ty)
  /-- A parent mentions a variable with bounds. -/
  | boundedInParent (child : String) (found : Var Ty)
  /-- A parent mentions a variable that is no parameter of the child. -/
  | foreignVariable (child : String) (name : String)
  deriving DecidableEq

/-- The words for a misfit. -/
def Misfit.message : Misfit → String
  | parentIsVariable child parent =>
      s!"parent of `{child}` must be an explicit type, found `{parent.text}`"
  | unregistered name => s!"`{name}` is not a registered type"
  | wrongArity found declared =>
      s!"`{found.text}` has {found.args.length} parameters but `{found.head}` declares {declared}"
  | emptyRange lower range upper =>
      s!"lower bound `{lower.text}` of `{range.text}` does not fulfill upper bound `{upper.text}`"
  | boundedInParent child found =>
      s!"parent of `{child}` cannot contain the bounded generic `{found.text}`"
  | foreignVariable child name => s!"`{name}` is not a parameter of `{child}`"

/-- Why a hierarchy refuses. -/
inductive Error where
  /-- An instance does not fit the declared types. -/
  | incompatible (why : Misfit)
  /-- A question that needs a finalized hierarchy. -/
  | notFinalized
  /-- A change to a finalized hierarchy. -/
  | alreadyFinalized
  /-- A second declaration of a name. -/
  | duplicateType (name : String)
  /-- Two parameters of one name. -/
  | duplicateParam (type : String) (param : String)
  /-- A parent is given to a type that is not declared. -/
  | undefinedType (name : String)
  /-- The new parent descends from the child. -/
  | cyclicParent (child : String) (parent : String)
  /-- A type would inherit one ancestor under two instantiations. -/
  | conflict (type : String) (existing : App Ty) (incoming : App Ty)
  /-- A text is no type expression. -/
  | unreadable (report : Report)
  deriving DecidableEq

/-- The words for an error. -/
def Error.message : Error → String
  | incompatible why => s!"incompatible type: {why.message}"
  | notFinalized => "type hierarchy is not finalized"
  | alreadyFinalized => "type hierarchy is already finalized"
  | duplicateType name => s!"type `{name}` is already defined"
  | duplicateParam type param => s!"type `{type}` declares parameter `{param}` more than once"
  | undefinedType name => s!"type `{name}` is not defined"
  | cyclicParent child parent =>
      s!"`{parent}` cannot be a parent of `{child}`: `{child}` is already one of its ancestors"
  | conflict type existing incoming =>
      s!"type `{type}` already inherits `{existing.text}` and cannot also inherit `{incoming.text}`"
  | unreadable report => report.message

end Lineage

import Lineage.Json.Writer
import Lineage.Ty.Basic

/-!
# Type instances as JSON values

An instance is an object whose member `kind` tells applications and variables apart:

* an application has a `name` and `params`;
* a variable has a `name`, `lower_bounds` and `upper_bounds`. Bounds are applications without
  `kind`.

Lists without elements are left out.
-/

namespace Lineage

/-- A string as a value. -/
def Json.Value.str (s : String) : Json.Value := .scalar (.str s)

/-- The member of a list, left out if the list has no elements. -/
def Json.listMember (name : String) : List Json.Value → List (String × Json.Value)
  | [] => []
  | v :: vs => [(name, .list (v :: vs))]

mutual
/-- An instance as a value. -/
def Ty.toValue : Ty → Json.Value
  | .app a => .object (("kind", .str "explicit") :: a.members)
  | .var v => .object (("kind", .str "generic") :: v.members)
termination_by structural t => t
/-- The members of a variable: its name and, if there are any, its bounds. -/
def Var.members : Var Ty → List (String × Json.Value)
  | ⟨name, lower, upper⟩ => ("name", .str name) ::
      (Json.listMember "lower_bounds" (App.toValues lower) ++
        Json.listMember "upper_bounds" (App.toValues upper))
termination_by structural v => v
/-- The members of an application. -/
def App.members : App Ty → List (String × Json.Value)
  | ⟨head, args⟩ => ("name", .str head) :: Json.listMember "params" (Ty.toValues args)
termination_by structural a => a
/-- Instances as values. -/
def Ty.toValues : List Ty → List Json.Value
  | [] => []
  | t :: ts => t.toValue :: Ty.toValues ts
termination_by structural ts => ts
/-- Applications as values without `kind`. -/
def App.toValues : List (App Ty) → List Json.Value
  | [] => []
  | a :: as => .object a.members :: App.toValues as
termination_by structural as => as
end

/-- An application as a value without `kind`. -/
def App.toValue (a : App Ty) : Json.Value := .object a.members

/-- A variable as a value without `kind`. -/
def Var.toValue (v : Var Ty) : Json.Value := .object v.members

end Lineage

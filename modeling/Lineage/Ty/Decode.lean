import Lineage.Json.Value
import Lineage.Ty.Basic

/-!
# Type instances from JSON values

The member `kind` may stand anywhere among the members of an instance, and tells what the others
mean. An instance may also be written as a list of its fields in order, `kind` first. Unknown
members are passed over, and a known one may come only once.
-/

namespace Lineage

/-! ## 1. Kinds -/

/-- What the member `kind` says. -/
inductive Ty.Kind where
  | app
  | var
  deriving DecidableEq

namespace Ty.Kind

/-- The names of the kinds. -/
def names : List (String × Ty.Kind) := [("explicit", app), ("generic", var)]

/-- The kind that a value names, or numbers. -/
def ofValue : Json.Value → Except Json.Problem Ty.Kind
  | .scalar (.str s) =>
      match names.lookup s with
      | some k => .ok k
      | none => .error (.unknownVariant s (names.map Prod.fst))
  | .scalar (.nat n) =>
      match names[n]? with
      | some (_, k) => .ok k
      | none => .error (.invalidValue (.scalar (.nat n)) "variant index 0 <= i < 2")
  | v => .error (.invalidType v.found "variant identifier")

/-- The kind among the members of an object, if one was not met before. -/
def ofMembers : Option Ty.Kind → List (String × Json.Value) → Except Json.Problem Ty.Kind
  | none, [] => .error (.missingField "kind")
  | some k, [] => .ok k
  | found, (name, v) :: rest =>
      if name = "kind" then
        match found with
        | some _ => .error (.duplicateField "kind")
        | none => do ofMembers (some (← ofValue v)) rest
      else ofMembers found rest

end Ty.Kind

/-! ## 2. Instances -/

/-- The string that a value is. -/
def Json.Value.asString : Json.Value → Except Json.Problem String
  | .scalar (.str s) => .ok s
  | v => .error (.invalidType v.found "a string")

/-- A field that may come once. -/
def Json.once {α : Type} (name : String) : Option α → Except Json.Problem Unit
  | some _ => .error (.duplicateField name)
  | none => .ok ()

/-- A field that has to come. -/
def Json.demand {α : Type} (name : String) : Option α → Except Json.Problem α
  | some x => .ok x
  | none => .error (.missingField name)

/-- A record of `count` fields takes no more elements than that. -/
def Json.noMore (count : Nat) (rest : List Json.Value) : Except Json.Problem Unit :=
  if rest.isEmpty then .ok ()
  else .error (.invalidLength (count + rest.length) s!"{count} elements in sequence")

mutual
/-- An instance from a value. -/
def Ty.ofValue : Json.Value → Except Json.Problem Ty
  | .object members => do
      match ← Ty.Kind.ofMembers none members with
      | .app => return .app (← App.ofMembers none none members)
      | .var => return .var (← Var.ofMembers none none none members)
  | .list [] => .error (.missingField "kind")
  | .list (k :: vs) => do
      match ← Ty.Kind.ofValue k with
      | .app => return .app (← App.ofElements vs)
      | .var => return .var (← Var.ofElements vs)
  | v => .error (.invalidType v.found "internally tagged enum TypeInstance")
/-- A list of instances from a value. -/
def Ty.listOfValue : Json.Value → Except Json.Problem (List Ty)
  | .list vs => Ty.ofValues vs
  | v => .error (.invalidType v.found "a sequence")
/-- Instances from values. -/
def Ty.ofValues : List Json.Value → Except Json.Problem (List Ty)
  | [] => .ok []
  | v :: vs => do return (← Ty.ofValue v) :: (← Ty.ofValues vs)
/-- An application from a value. -/
def App.ofValue : Json.Value → Except Json.Problem (App Ty)
  | .object members => App.ofMembers none none members
  | .list vs => App.ofElements vs
  | v => .error (.invalidType v.found "struct ExplicitInstance")
/-- An application from the members of an object, given the fields met before. -/
def App.ofMembers (name : Option String) (params : Option (List Ty)) :
    List (String × Json.Value) → Except Json.Problem (App Ty)
  | [] => do return ⟨← Json.demand "name" name, params.getD []⟩
  | (field, v) :: rest => do
      if field = "name" then
        Json.once "name" name
        App.ofMembers (some (← v.asString)) params rest
      else if field = "params" then
        Json.once "params" params
        App.ofMembers name (some (← Ty.listOfValue v)) rest
      else App.ofMembers name params rest
/-- An application from its fields in order. -/
def App.ofElements : List Json.Value → Except Json.Problem (App Ty)
  | [] => .error (.invalidLength 0 "struct ExplicitInstance with 2 elements")
  | [name] => do return ⟨← name.asString, []⟩
  | name :: params :: rest => do
      let head ← name.asString
      let args ← Ty.listOfValue params
      Json.noMore 2 rest
      return ⟨head, args⟩
/-- A list of applications from a value. -/
def App.listOfValue : Json.Value → Except Json.Problem (List (App Ty))
  | .list vs => App.ofValues vs
  | v => .error (.invalidType v.found "a sequence")
/-- Applications from values. -/
def App.ofValues : List Json.Value → Except Json.Problem (List (App Ty))
  | [] => .ok []
  | v :: vs => do return (← App.ofValue v) :: (← App.ofValues vs)
/-- A variable from the members of an object, given the fields met before. -/
def Var.ofMembers (name : Option String) (lower upper : Option (List (App Ty))) :
    List (String × Json.Value) → Except Json.Problem (Var Ty)
  | [] => do return ⟨← Json.demand "name" name, lower.getD [], upper.getD []⟩
  | (field, v) :: rest => do
      if field = "name" then
        Json.once "name" name
        Var.ofMembers (some (← v.asString)) lower upper rest
      else if field = "lower_bounds" then
        Json.once "lower_bounds" lower
        Var.ofMembers name (some (← App.listOfValue v)) upper rest
      else if field = "upper_bounds" then
        Json.once "upper_bounds" upper
        Var.ofMembers name lower (some (← App.listOfValue v)) rest
      else Var.ofMembers name lower upper rest
/-- A variable from its fields in order. -/
def Var.ofElements : List Json.Value → Except Json.Problem (Var Ty)
  | [] => .error (.invalidLength 0 "struct GenericInstance with 3 elements")
  | [name] => do return ⟨← name.asString, [], []⟩
  | [name, lower] => do return ⟨← name.asString, ← App.listOfValue lower, []⟩
  | name :: lower :: upper :: rest => do
      let label ← name.asString
      let lower ← App.listOfValue lower
      let upper ← App.listOfValue upper
      Json.noMore 3 rest
      return ⟨label, lower, upper⟩
end

/-- An application or a variable from a value without `kind`. -/
def Ty.ofBody : Ty.Kind → Json.Value → Except Json.Problem Ty
  | .app, v => do return .app (← App.ofValue v)
  | .var, .object members => do return .var (← Var.ofMembers none none none members)
  | .var, .list vs => do return .var (← Var.ofElements vs)
  | .var, v => .error (.invalidType v.found "struct GenericInstance")

end Lineage

import Lineage.Json.Record
import Lineage.Ty.Decode

/-!
# Type instances from JSON texts

An instance is read in two steps, because only with the member `kind` the others make sense: the
whole value is read and `kind` taken out of it, then the instance is made from the value. What is
wrong in the second step has no place of its own.

Applications and variables that come without `kind` are ordinary records.
-/

namespace Lineage

open Json (Scan Cursor)

/-- The members of an instance, at most `n` of them, with `kind` taken out. -/
def Ty.scanMembers (depth : Nat) : (n : Nat) → (first : Bool) → Option Ty.Kind → Cursor →
    Scan ((Ty.Kind × List (String × Json.Value)) × Cursor)
  | 0, _, _, c => .error (c.faultLater (.missingField "kind"))
  | n + 1, first, kind, c => do
      match ← Json.nextKey first c with
      | (none, c) =>
          match kind with
          | some k => .ok ((k, []), c)
          | none => .error (c.faultLater (.missingField "kind"))
      | (some name, c) =>
          if name = "kind" then
            if kind.isSome then .error (c.faultLater (.duplicateField "kind"))
            else
              let c ← Json.colon c
              let (k, c) ← Json.choice Ty.Kind.names c
              Ty.scanMembers depth n false (some k) c
          else
            let c ← Json.colon c
            let (v, c) ← Json.value depth c
            let ((k, members), c) ← Ty.scanMembers depth n false kind c
            .ok ((k, (name, v) :: members), c)

/-- The elements of an instance that is written as a list: `kind` is the first of them. -/
def Ty.scanElements (depth : Nat) (c : Cursor) :
    Scan ((Ty.Kind × List Json.Value) × Cursor) := do
  let (more, c) ← Json.nextElement true c
  if more then
    let (k, c) ← Json.choice Ty.Kind.names c
    let (vs, c) ← Json.elements (Json.value depth) false c
    .ok ((k, vs), c)
  else .error (c.faultLater (.missingField "kind"))

/-- The kind of an instance and the value of its other members. -/
def Ty.scanBody (depth : Nat) (c : Cursor) : Scan ((Ty.Kind × Json.Value) × Cursor) :=
  let c := c.trim
  match c.rest with
  | [] => .error (c.faultNext (.unfinished .value))
  | '[' :: _ => do
      let ((k, vs), c) ← Json.deeper depth c fun depth c =>
        Json.enclosed Json.closeList (Ty.scanElements depth c)
      .ok ((k, .list vs), c)
  | '{' :: _ => do
      let ((k, members), c) ← Json.deeper depth c fun depth c =>
        Json.enclosed Json.closeObject
          (Ty.scanMembers depth (c.rest.length + 1) true none c)
      .ok ((k, .object members), c)
  | _ => .error (Json.mismatch "internally tagged enum TypeInstance" c)

/-- An instance. -/
def Ty.scan (depth : Nat) (c : Cursor) : Scan (Ty × Cursor) := do
  let ((k, body), c) ← Ty.scanBody depth c
  match Ty.ofBody k body with
  | .ok t => .ok (t, c)
  | .error p => .error (c.faultLater p)

/-- Applications as records. -/
def App.record : Json.Record (App Ty) where
  title := "struct ExplicitInstance"
  blank := ⟨"", []⟩
  fields :=
    [.of "name" true Json.string fun a head => { a with head },
     .of "params" false (Json.listOf Ty.scan) fun a args => { a with args }]

/-- Variables as records. -/
def Var.record : Json.Record (Var Ty) where
  title := "struct GenericInstance"
  blank := ⟨"", [], []⟩
  fields :=
    [.of "name" true Json.string fun v name => { v with name },
     .of "lower_bounds" false (Json.listOf App.record.read) fun v lower => { v with lower },
     .of "upper_bounds" false (Json.listOf App.record.read) fun v upper => { v with upper }]

/-- The instance that a text holds. -/
def Ty.ofJson (text : String) : Except Json.Refusal Ty := Json.document Ty.scan text

/-- The instances that a text holds in a list. -/
def Ty.listOfJson (text : String) : Except Json.Refusal (List Ty) :=
  Json.document (Json.listOf Ty.scan) text

/-- The application that a text holds. -/
def App.ofJson (text : String) : Except Json.Refusal (App Ty) := Json.document App.record.read text

/-- The variable that a text holds. -/
def Var.ofJson (text : String) : Except Json.Refusal (Var Ty) := Json.document Var.record.read text

end Lineage

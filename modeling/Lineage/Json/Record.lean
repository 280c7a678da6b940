import Lineage.Json.Skip

/-!
# Typed data in JSON texts

Data of a known shape are read straight from the text, so that the first problem met decides,
whether it is one of the text or one of the data.

A record is written as an object, or as a list of its fields in order. Unknown members of an object
are passed over, and a known one may come only once. Fields that are not required may be missing.
-/

namespace Lineage.Json

/-- The problem that something else stands at a place. -/
def mismatch (expected : String) (c : Cursor) : Fault :=
  match c.rest with
  | '[' :: _ => c.fault (.invalidType .list expected)
  | '{' :: _ => c.fault (.invalidType .object expected)
  | _ =>
      match scalar c with
      | .ok (s, c) => c.fault (.invalidType (.scalar s) expected)
      | .error f => f

/-- A string. -/
def stringWith (expected : String) (c : Cursor) : Scan (String × Cursor) :=
  let c := c.trim
  match c.rest with
  | [] => .error (c.faultNext (.unfinished .value))
  | '"' :: _ => stringBody (c.advance 1)
  | _ => .error (mismatch expected c)

/-- A string among data. -/
def string (_ : Nat) (c : Cursor) : Scan (String × Cursor) := stringWith "a string" c

/-- A list whose elements are read by `item`. -/
def listOf {α : Type} (item : Nat → Cursor → Scan (α × Cursor)) (depth : Nat) (c : Cursor) :
    Scan (List α × Cursor) :=
  let c := c.trim
  match c.rest with
  | [] => .error (c.faultNext (.unfinished .value))
  | '[' :: _ => deeper depth c fun depth c => enclosed closeList (elements (item depth) true c)
  | _ => .error (mismatch "a sequence" c)

/-- One of some names, by what it stands for. -/
def choice {α : Type} (names : List (String × α)) (c : Cursor) : Scan (α × Cursor) := do
  let (name, c) ← stringWith "variant identifier" c
  match names.lookup name with
  | some x => .ok (x, c)
  | none => .error (c.fault (.unknownVariant name (names.map Prod.fst)))

/-- The word `null` as data. -/
def unit (c : Cursor) : Scan Cursor :=
  let c := c.trim
  match c.rest with
  | [] => .error (c.faultNext (.unfinished .value))
  | 'n' :: rest => word "ull".toList (c.offset + 1) rest
  | _ => .error (mismatch "unit" c)

/-- The name within an object that stands for one of some names. -/
def choiceKey {α : Type} (names : List (String × α)) (c : Cursor) : Scan (α × Cursor) :=
  let c := c.trim
  match c.rest with
  | [] => .error (c.faultNext (.unfinished .object))
  | '"' :: _ => choice names c
  | '}' :: _ => .error (c.faultNext .expectedValue)
  | _ => .error (c.faultNext .keyNotString)

/-- One of some names, written as a string or as an object that gives it the value `null`. -/
def enumeration {α : Type} (names : List (String × α)) (depth : Nat) (c : Cursor) :
    Scan (α × Cursor) :=
  let c := c.trim
  match c.rest with
  | [] => .error (c.faultNext (.unfinished .value))
  | '"' :: _ => choice names c
  | '{' :: _ =>
      deeper depth c fun _ c => do
        let (x, c) ← choiceKey names c
        let c ← colon c
        let c ← unit c
        let c := c.trim
        match c.rest with
        | [] => .error (c.fault (.unfinished .object))
        | '}' :: _ => .ok (x, c.advance 1)
        | _ => .error (c.fault .expectedValue)
  | _ => .error (c.faultNext .expectedValue)

/-- A field of a record: its name, whether it has to be there, and how it is read into the
    record. -/
structure Field (α : Type) where
  name : String
  required : Bool
  read : (depth : Nat) → α → Cursor → Scan (α × Cursor)

/-- The field of a name whose content is read by `read` and put into the record by `set`. -/
def Field.of {α β : Type} (name : String) (required : Bool)
    (read : Nat → Cursor → Scan (β × Cursor)) (set : α → β → α) : Field α where
  name := name
  required := required
  read := fun depth x c => do
    let (y, c) ← read depth c
    .ok (set x y, c)

/-- A shape of data: how messages call it, the data without any field, and the fields. -/
structure Record (α : Type) where
  title : String
  blank : α
  fields : List (Field α)

namespace Record

variable {α : Type}

/-- The members of a record, at most `n` of them. `seen` are the names read before. -/
def membersUpTo (r : Record α) (depth : Nat) :
    (n : Nat) → (first : Bool) → (seen : List String) → α → Cursor → Scan (α × Cursor)
  | 0, _, _, x, c => .ok (x, c)
  | n + 1, first, seen, x, c => do
      match ← nextKey first c with
      | (none, c) =>
          match r.fields.find? fun f => f.required && !seen.contains f.name with
          | some f => .error (c.faultLater (.missingField f.name))
          | none => .ok (x, c)
      | (some name, c) =>
          match r.fields.find? (·.name == name) with
          | none =>
              let c ← colon c
              let c ← skipValue c
              r.membersUpTo depth n false seen x c
          | some f =>
              if seen.contains name then .error (c.faultLater (.duplicateField name))
              else
                let c ← colon c
                let (x, c) ← f.read depth x c
                r.membersUpTo depth n false (name :: seen) x c

/-- The fields of a record in order, from the field `index` on. -/
def inOrder (r : Record α) (depth : Nat) :
    (index : Nat) → List (Field α) → (first : Bool) → α → Cursor → Scan (α × Cursor)
  | _, [], _, x, c => .ok (x, c)
  | index, f :: fs, first, x, c => do
      let (more, c) ← nextElement first c
      if more then
        let (x, c) ← f.read depth x c
        r.inOrder depth (index + 1) fs false x c
      else if f.required then
        .error (c.faultLater
          (.invalidLength index s!"{r.title} with {r.fields.length} elements"))
      else
        r.inOrder depth (index + 1) fs first x c

/-- A record. -/
def read (r : Record α) (depth : Nat) (c : Cursor) : Scan (α × Cursor) :=
  let c := c.trim
  match c.rest with
  | [] => .error (c.faultNext (.unfinished .value))
  | '[' :: _ =>
      deeper depth c fun depth c =>
        enclosed closeList (r.inOrder depth 0 r.fields true r.blank c)
  | '{' :: _ =>
      deeper depth c fun depth c =>
        enclosed closeObject (r.membersUpTo depth (c.rest.length + 1) true [] r.blank c)
  | _ => .error (mismatch r.title c)

end Record

end Lineage.Json

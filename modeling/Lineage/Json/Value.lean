import Lineage.Json.Scalar

/-!
# JSON values

Lists and objects are read element by element. A problem that arises in a list or object, but has
no place of its own, gets the place where the list or object ends or should end.

Lists and objects nest at most `maxDepth` deep. Readers take the number of levels that may still be
opened.
-/

namespace Lineage.Json

/-- A JSON value. The members of an object stand in the order of the text, repeated names
    included. -/
inductive Value where
  | scalar (s : Scalar)
  | list (vs : List Value)
  | object (fields : List (String × Value))

instance : Inhabited Value := ⟨.scalar .null⟩

/-- How messages refer to a value. -/
def Value.found : Value → Found
  | scalar s => .scalar s
  | list _ => .list
  | object _ => .object

/-- How many levels of lists and objects may be nested. -/
def maxDepth : Nat := 127

/-! ## 1. Elements and members -/

/-- Whether another element of a list follows, and the place where it starts. -/
def nextElement (first : Bool) (c : Cursor) : Scan (Bool × Cursor) :=
  let c := c.trim
  match c.rest with
  | [] => .error (c.faultNext (.unfinished .list))
  | x :: _ =>
      if x = ']' then .ok (false, c)
      else if first then .ok (true, c)
      else if x = ',' then
        let c := (c.advance 1).trim
        match c.rest with
        | [] => .error (c.faultNext (.unfinished .value))
        | y :: _ => if y = ']' then .error (c.faultNext .trailingComma) else .ok (true, c)
      else .error (c.faultNext .expectedListEnd)

/-- The key at a quote. -/
def key (c : Cursor) : Scan (Option String × Cursor) := do
  let (name, c) ← stringBody (c.advance 1)
  .ok (some name, c)

/-- The key of the next member of an object, if there is one. -/
def nextKey (first : Bool) (c : Cursor) : Scan (Option String × Cursor) :=
  let c := c.trim
  match c.rest with
  | [] => .error (c.faultNext (.unfinished .object))
  | x :: _ =>
      if x = '}' then .ok (none, c)
      else if first then
        if x = '"' then key c else .error (c.faultNext .keyNotString)
      else if x = ',' then
        let c := (c.advance 1).trim
        match c.rest with
        | [] => .error (c.faultNext (.unfinished .value))
        | y :: _ =>
            if y = '"' then key c
            else if y = '}' then .error (c.faultNext .trailingComma)
            else .error (c.faultNext .keyNotString)
      else .error (c.faultNext .expectedObjectEnd)

/-- The colon behind a key. -/
def colon (c : Cursor) : Scan Cursor :=
  let c := c.trim
  match c.rest with
  | [] => .error (c.faultNext (.unfinished .object))
  | x :: _ => if x = ':' then .ok (c.advance 1) else .error (c.faultNext .expectedColon)

/-- The elements of a list, at most `n` of them. -/
def elementsUpTo {α : Type} (item : Cursor → Scan (α × Cursor)) :
    (n : Nat) → (first : Bool) → Cursor → Scan (List α × Cursor)
  | 0, _, c => .ok ([], c)
  | n + 1, first, c => do
      let (more, c) ← nextElement first c
      if more then
        let (x, c) ← item c
        let (xs, c) ← elementsUpTo item n false c
        .ok (x :: xs, c)
      else
        .ok ([], c)

/-- The elements of a list. Each takes a character, so their number is bounded by that of the
    characters left. -/
def elements {α : Type} (item : Cursor → Scan (α × Cursor)) (first : Bool) (c : Cursor) :
    Scan (List α × Cursor) :=
  elementsUpTo item (c.rest.length + 1) first c

/-- The members of an object, at most `n` of them. -/
def membersUpTo {α : Type} (item : Cursor → Scan (α × Cursor)) :
    (n : Nat) → (first : Bool) → Cursor → Scan (List (String × α) × Cursor)
  | 0, _, c => .ok ([], c)
  | n + 1, first, c => do
      match ← nextKey first c with
      | (none, c) => .ok ([], c)
      | (some name, c) =>
          let c ← colon c
          let (x, c) ← item c
          let (xs, c) ← membersUpTo item n false c
          .ok ((name, x) :: xs, c)

/-- The members of an object. -/
def members {α : Type} (item : Cursor → Scan (α × Cursor)) (c : Cursor) :
    Scan (List (String × α) × Cursor) :=
  membersUpTo item (c.rest.length + 1) true c

/-! ## 2. Closing -/

/-- The end of a list: the place reached, and the problem if it does not end there. -/
def closeList (c : Cursor) : Cursor × Option Fault :=
  let c := c.trim
  match c.rest with
  | [] => (c, some (c.faultNext (.unfinished .list)))
  | x :: _ =>
      if x = ']' then (c.advance 1, none)
      else if x = ',' then
        let c := (c.advance 1).trim
        (c, some (c.faultNext
          (if c.rest.head? = some ']' then .trailingComma else .trailingCharacters)))
      else (c, some (c.faultNext .trailingCharacters))

/-- The end of an object: the place reached, and the problem if it does not end there. -/
def closeObject (c : Cursor) : Cursor × Option Fault :=
  let c := c.trim
  match c.rest with
  | [] => (c, some (c.faultNext (.unfinished .object)))
  | x :: _ =>
      if x = '}' then (c.advance 1, none)
      else if x = ',' then (c, some (c.faultNext .trailingComma))
      else (c, some (c.faultNext .trailingCharacters))

/-- What was read inside a list or object, with its end. A problem without a place gets the place
    that the end reaches. -/
def enclosed {α : Type} (close : Cursor → Cursor × Option Fault) (inside : Scan (α × Cursor)) :
    Scan (α × Cursor) :=
  match inside with
  | .ok (x, c) =>
      match close c with
      | (c, none) => .ok (x, c)
      | (_, some f) => .error f
  | .error f =>
      match f.place with
      | .settled _ => .error f
      | .unsettled c => .error ⟨f.problem, .settled (close c).1.offset⟩

/-- Go one level deeper, behind an opening bracket. -/
def deeper {α : Type} (depth : Nat) (c : Cursor) (inside : Nat → Cursor → Scan (α × Cursor)) :
    Scan (α × Cursor) :=
  match depth with
  | 0 => .error (c.faultNext .tooDeep)
  | depth + 1 => inside depth (c.advance 1)

/-! ## 3. Values -/

/-- A value whose elements are read by `inner`; there is no `inner` at the deepest level. -/
def valueWith (inner : Option (Cursor → Scan (Value × Cursor))) (c : Cursor) :
    Scan (Value × Cursor) :=
  let c := c.trim
  match c.rest, inner with
  | [], _ => .error (c.faultNext (.unfinished .value))
  | '[' :: _, none => .error (c.faultNext .tooDeep)
  | '{' :: _, none => .error (c.faultNext .tooDeep)
  | '[' :: _, some item => do
      let (vs, c) ← enclosed closeList (elements item true (c.advance 1))
      .ok (.list vs, c)
  | '{' :: _, some item => do
      let (fields, c) ← enclosed closeObject (members item (c.advance 1))
      .ok (.object fields, c)
  | _, _ => do
      let (s, c) ← scalar c
      .ok (.scalar s, c)

/-- Any value that nests at most `depth` levels. -/
def value : (depth : Nat) → Cursor → Scan (Value × Cursor)
  | 0, c => valueWith none c
  | depth + 1, c => valueWith (some (value depth)) c

/-! ## 4. Texts -/

/-- What a text holds, with nothing but blanks behind it. -/
def document {α : Type} (read : Nat → Cursor → Scan (α × Cursor)) (text : String) :
    Except Refusal α :=
  match read maxDepth (.start text) with
  | .error f => .error (f.refusal text)
  | .ok (x, c) =>
      let c := c.trim
      if c.rest.isEmpty then .ok x else .error ((c.faultNext .trailingCharacters).refusal text)

end Lineage.Json

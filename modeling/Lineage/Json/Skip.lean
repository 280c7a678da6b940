import Lineage.Json.Value

/-!
# JSON values that are passed over

A value that does not matter is not kept. Its levels are kept in a list, so it may nest at any
depth.
-/

namespace Lineage.Json

/-- What is being passed over: a list or an object. -/
inductive Frame where
  | list
  | object
  deriving DecidableEq

/-- The bracket that closes a frame. -/
def Frame.closing : Frame → Char
  | list => ']'
  | object => '}'

/-- The problem with a text that ends in a frame. -/
def Frame.unfinished : Frame → Problem
  | list => .unfinished .list
  | object => .unfinished .object

/-- The problem with a frame that goes on without a comma. -/
def Frame.expectedEnd : Frame → Problem
  | list => .expectedListEnd
  | object => .expectedObjectEnd

/-- What comes next: a value, or more of the innermost frame, perhaps the first of it. -/
inductive Mode where
  | value
  | more (first : Bool)
  deriving DecidableEq

/-- The place where the value of the next element or member starts. -/
def skipToItem (f : Frame) (c : Cursor) : Scan Cursor :=
  match f with
  | .list => .ok c
  | .object =>
      let c := c.trim
      match c.rest with
      | [] => .error (c.faultNext (.unfinished .object))
      | x :: _ =>
          if x = '"' then do
            let c ← skipString (c.advance 1)
            colon c
          else .error (c.faultNext .keyNotString)

/-- What comes behind a value, if anything does. -/
def behindValue (frames : List Frame) : Option (Mode × List Frame) :=
  if frames.isEmpty then none else some (.more false, frames)

/-- One step of passing over. -/
def skipStep (mode : Mode) (frames : List Frame) (c : Cursor) :
    Scan (Option (Mode × List Frame) × Cursor) :=
  let c := c.trim
  match mode, frames with
  | .more first, f :: outer =>
      match c.rest with
      | [] => .error (c.faultNext f.unfinished)
      | x :: _ =>
          if x = ',' ∧ !first then do
            let c ← skipToItem f (c.advance 1)
            .ok (some (.value, f :: outer), c)
          else if x = f.closing then .ok (behindValue outer, c.advance 1)
          else if first then do
            let c ← skipToItem f c
            .ok (some (.value, f :: outer), c)
          else .error (c.faultNext f.expectedEnd)
  | _, _ =>
      match c.rest with
      | [] => .error (c.faultNext (.unfinished .value))
      | '[' :: _ => .ok (some (.more true, .list :: frames), c.advance 1)
      | '{' :: _ => .ok (some (.more true, .object :: frames), c.advance 1)
      | _ => do
          let c ← skipScalar c
          .ok (behindValue frames, c)

/-- At most `n` steps of passing over. -/
def skipUpTo : (n : Nat) → Mode → List Frame → Cursor → Scan Cursor
  | 0, _, _, c => .ok c
  | n + 1, mode, frames, c => do
      match ← skipStep mode frames c with
      | (none, c) => .ok c
      | (some (mode, frames), c) => skipUpTo n mode frames c

/-- The place behind a value. Of two steps in a row one takes a character. -/
def skipValue (c : Cursor) : Scan Cursor := skipUpTo (2 * c.rest.length + 2) .value [] c

end Lineage.Json

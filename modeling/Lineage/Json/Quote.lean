import Lineage.Json.Cursor
import Lineage.Text.Bytes

/-!
# Strings in JSON texts

A string stands between double quotes. A backslash starts an escape: a letter, or `u` and four
digits to base sixteen. Characters beyond the first 65536 are escaped by a pair of surrogates.

A string whose content does not matter is passed over by `skipString`, which does not ask for
surrogates to come in pairs.
-/

namespace Lineage.Json

/-- The value of a digit to base sixteen. -/
def hexValue? (c : Char) : Option Nat :=
  if '0' ≤ c ∧ c ≤ '9' then some (c.toNat - '0'.toNat)
  else if 'a' ≤ c ∧ c ≤ 'f' then some (c.toNat - 'a'.toNat + 10)
  else if 'A' ≤ c ∧ c ≤ 'F' then some (c.toNat - 'A'.toNat + 10)
  else none

/-- The number four digits to base sixteen stand for. -/
def hexQuad? : List Char → Option Nat
  | a :: b :: c :: d :: _ => do
      let a ← hexValue? a
      let b ← hexValue? b
      let c ← hexValue? c
      let d ← hexValue? d
      return ((a * 16 + b) * 16 + c) * 16 + d
  | _ => none

/-- The four digits of an escape. They are taken as bytes, whatever they are. -/
def hexEscape (c : Cursor) : Scan (Nat × Cursor) :=
  match hexQuad? c.rest with
  | some n => .ok (n, c.advance 4)
  | none =>
      let left := Text.byteLength c.rest
      if 4 ≤ left then .error ⟨.invalidEscape, .settled (c.offset + 4)⟩
      else .error ⟨.unfinished .string, .settled (c.offset + left)⟩

/-- The character that has to come next inside an escape; another one is looked at and refused. -/
def expectInEscape (wanted : Char) (c : Cursor) : Scan Cursor :=
  match c.rest with
  | [] => .error (c.fault (.unfinished .string))
  | x :: _ =>
      if x = wanted then .ok (c.advance 1) else .error ⟨.halfSurrogate, .settled (c.offset + 1)⟩

/-- The character of an escape by number. A number in the upper range of surrogates needs a second
    escape with one in the lower range. -/
def unicodeEscape (c : Cursor) : Scan (Char × Cursor) := do
  let (n, c) ← hexEscape c
  if 0xDC00 ≤ n ∧ n ≤ 0xDFFF then
    .error (c.fault .loneSurrogate)
  else if 0xD800 ≤ n ∧ n ≤ 0xDBFF then do
    let c ← expectInEscape '\\' c
    let c ← expectInEscape 'u' c
    let (m, c) ← hexEscape c
    if 0xDC00 ≤ m ∧ m ≤ 0xDFFF then
      .ok (Char.ofNat ((n - 0xD800) * 0x400 + (m - 0xDC00) + 0x10000), c)
    else
      .error (c.fault .loneSurrogate)
  else
    .ok (Char.ofNat n, c)

/-- The character that a letter behind a backslash stands for. -/
def simpleEscape? : Char → Option Char
  | '"' => some '"'
  | '\\' => some '\\'
  | '/' => some '/'
  | 'b' => some '\x08'
  | 'f' => some '\x0c'
  | 'n' => some '\n'
  | 'r' => some '\r'
  | 't' => some '\t'
  | _ => none

/-- What stands behind a backslash. -/
def escape (c : Cursor) : Scan (Char × Cursor) :=
  match c.rest with
  | [] => .error (c.fault (.unfinished .string))
  | x :: _ =>
      if x = 'u' then unicodeEscape (c.advance 1)
      else
        match simpleEscape? x with
        | some y => .ok (y, c.advance 1)
        | none => .error ⟨.invalidEscape, .settled (c.offset + 1)⟩

/-- Whether a character may not stand in a string as it is. -/
def isControl (c : Char) : Bool := c.toNat < 0x20

/-- The characters of a string behind its opening quote, at most `n` of them. -/
def stringUpTo : (n : Nat) → Cursor → Scan (List Char × Cursor)
  | 0, c => .error (c.fault (.unfinished .string))
  | n + 1, c =>
      match c.rest with
      | [] => .error (c.fault (.unfinished .string))
      | x :: rest =>
          if x = '"' then
            .ok ([], c.advance 1)
          else if x = '\\' then do
            let (y, c) ← escape (c.advance 1)
            let (ys, c) ← stringUpTo n c
            .ok (y :: ys, c)
          else if isControl x then
            .error ⟨.controlCharacter, .settled (c.offset + 1)⟩
          else do
            let (ys, c) ← stringUpTo n ⟨c.offset + x.utf8Size, rest⟩
            .ok (x :: ys, c)

/-- A string behind its opening quote. -/
def stringBody (c : Cursor) : Scan (String × Cursor) := do
  let (cs, c) ← stringUpTo (c.rest.length + 1) c
  .ok (String.ofList cs, c)

/-- The place behind an escape that is passed over. -/
def skipEscape (c : Cursor) : Scan Cursor :=
  match c.rest with
  | [] => .error (c.fault (.unfinished .string))
  | x :: _ =>
      if x = 'u' then do
        let (_, c) ← hexEscape (c.advance 1)
        .ok c
      else if (simpleEscape? x).isSome then .ok (c.advance 1)
      else .error ⟨.invalidEscape, .settled (c.offset + 1)⟩

/-- The place behind a string that is passed over, in at most `n` steps. -/
def skipStringUpTo : (n : Nat) → Cursor → Scan Cursor
  | 0, c => .error (c.fault (.unfinished .string))
  | n + 1, c =>
      match c.rest with
      | [] => .error (c.fault (.unfinished .string))
      | x :: rest =>
          if x = '"' then .ok (c.advance 1)
          else if x = '\\' then do
            let c ← skipEscape (c.advance 1)
            skipStringUpTo n c
          else if isControl x then .error (c.fault .controlCharacter)
          else skipStringUpTo n ⟨c.offset + x.utf8Size, rest⟩

/-- The place behind a string, from behind its opening quote. -/
def skipString (c : Cursor) : Scan Cursor := skipStringUpTo (c.rest.length + 1) c

end Lineage.Json

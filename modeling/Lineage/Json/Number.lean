import Lineage.Json.Cursor
import Lineage.Text.Shortest

/-!
# Numbers in JSON texts

Digits are gathered while the number fits 64 bits. Digits beyond that only shift the decimal point,
so a number that large becomes a floating-point number. A number whose value does not matter is
passed over by `skipNumber`.
-/

namespace Lineage.Json

/-- The greatest number of 64 bits. -/
def maxWord : Nat := 0xffffffffffffffff

/-- The amount of the least whole number of 64 bits that have a sign. -/
def minWord : Nat := 0x8000000000000000

/-- The greatest exponent that is told apart. -/
def maxExponent : Nat := 0x7fffffff

/-- The value of a decimal digit. -/
def digitValue (c : Char) : Nat := c.toNat - '0'.toNat

/-- The digits at a place. -/
def digitsAt (c : Cursor) : List Char := c.rest.takeWhile Char.isDigit

/-- The number of the leading digits that fits 64 bits, and the digits left over. -/
def gather : (significand : Nat) → List Char → Nat × List Char
  | significand, [] => (significand, [])
  | significand, d :: ds =>
      if significand * 10 + digitValue d ≤ maxWord then gather (significand * 10 + digitValue d) ds
      else (significand, d :: ds)

/-- `significand * 10 ^ exponent` as a floating-point number, by one multiplication or division
    with a power of ten; `none` if it is too large. -/
def assemble : (fuel : Nat) → Float → Int → Option Float
  | 0, f, _ => some f
  | fuel + 1, f, exponent =>
      if exponent.natAbs ≤ 308 then
        let power := Float.ofScientific 1 false exponent.natAbs
        if 0 ≤ exponent then
          let product := f * power
          if product.isInf then none else some product
        else
          some (f / power)
      else if f == 0.0 then some f
      else if 0 ≤ exponent then none
      else assemble fuel (f / 1e308) (exponent + 308)

/-- A floating-point number from its parts. -/
def floatFrom (positive : Bool) (significand : Nat) (exponent : Int) (c : Cursor) :
    Scan (Scalar × Cursor) :=
  match assemble 8 (UInt64.ofNat significand).toFloat exponent with
  | none => .error (c.fault .numberOutOfRange)
  | some f => .ok (.float (Text.floatText (if positive then f else -f)), c)

/-- The exponent that digits stand for, and the digits left over when it gets too large. -/
def gatherExponent : (exponent : Nat) → List Char → Nat × List Char
  | exponent, [] => (exponent, [])
  | exponent, d :: ds =>
      if exponent * 10 + digitValue d ≤ maxExponent then
        gatherExponent (exponent * 10 + digitValue d) ds
      else (exponent, d :: ds)

/-- The exponent behind its mark. -/
def exponentPart (positive : Bool) (significand : Nat) (shift : Int) (c : Cursor) :
    Scan (Scalar × Cursor) :=
  let (down, c) :=
    match c.rest with
    | '+' :: _ => (false, c.advance 1)
    | '-' :: _ => (true, c.advance 1)
    | _ => (false, c)
  match c.rest with
  | [] => .error (c.fault (.unfinished .value))
  | x :: _ =>
      if !x.isDigit then .error ⟨.invalidNumber, .settled (c.offset + 1)⟩
      else
        let digits := digitsAt c
        let behind := c.advance digits.length
        match gatherExponent 0 digits with
        | (_, extra :: extras) =>
            if significand ≠ 0 ∧ !down then
              .error ⟨.numberOutOfRange,
                .settled (c.offset + (digits.length - (extra :: extras).length) + 1)⟩
            else
              .ok (.float (Text.floatText (if positive then 0.0 else -0.0)), behind)
        | (exponent, []) =>
            floatFrom positive significand (if down then shift - exponent else shift + exponent)
              behind

/-- What may follow the digits of a floating-point number. -/
def afterDigits (positive : Bool) (significand : Nat) (shift : Int) (c : Cursor) :
    Scan (Scalar × Cursor) :=
  match c.rest with
  | 'e' :: _ => exponentPart positive significand shift (c.advance 1)
  | 'E' :: _ => exponentPart positive significand shift (c.advance 1)
  | _ => floatFrom positive significand shift c

/-- The digits behind a decimal point. -/
def fractionPart (positive : Bool) (significand : Nat) (shift : Int) (c : Cursor) :
    Scan (Scalar × Cursor) :=
  match digitsAt c with
  | [] =>
      .error (c.faultNext (if c.rest.isEmpty then .unfinished .value else .invalidNumber))
  | digits =>
      let (significand, left) := gather significand digits
      let used := digits.length - left.length
      afterDigits positive significand (shift - used) (c.advance digits.length)

/-- A whole number, if nothing else follows. A negative one that is out of range, or zero, becomes
    a floating-point number. -/
def wholeOrMore (positive : Bool) (significand : Nat) (c : Cursor) : Scan (Scalar × Cursor) :=
  match c.rest with
  | '.' :: _ => fractionPart positive significand 0 (c.advance 1)
  | 'e' :: _ => exponentPart positive significand 0 (c.advance 1)
  | 'E' :: _ => exponentPart positive significand 0 (c.advance 1)
  | _ =>
      if positive then .ok (.nat significand, c)
      else if 0 < significand ∧ significand ≤ minWord then .ok (.negative (-significand), c)
      else .ok (.float (Text.floatText (-(UInt64.ofNat significand).toFloat)), c)

/-- What follows whole digits that exceed 64 bits by `shift` digits. -/
def longOrMore (positive : Bool) (significand shift : Nat) (c : Cursor) : Scan (Scalar × Cursor) :=
  match c.rest with
  | '.' :: _ => fractionPart positive significand shift (c.advance 1)
  | _ => afterDigits positive significand shift c

/-- A number behind its sign. -/
def number (positive : Bool) (c : Cursor) : Scan (Scalar × Cursor) :=
  match c.rest with
  | [] => .error (c.fault (.unfinished .value))
  | '0' :: rest =>
      match rest with
      | [] => wholeOrMore positive 0 (c.advance 1)
      | d :: _ =>
          if d.isDigit then .error ((c.advance 1).faultNext .invalidNumber)
          else wholeOrMore positive 0 (c.advance 1)
  | x :: _ =>
      if !x.isDigit then .error ⟨.invalidNumber, .settled (c.offset + 1)⟩
      else
        let digits := digitsAt c
        let behind := c.advance digits.length
        match gather 0 digits with
        | (significand, []) => wholeOrMore positive significand behind
        | (significand, extra) => longOrMore positive significand extra.length behind

/-- The place behind an exponent that is passed over, from behind its mark. -/
def skipExponent (c : Cursor) : Scan Cursor :=
  let c :=
    match c.rest with
    | '+' :: _ => c.advance 1
    | '-' :: _ => c.advance 1
    | _ => c
  match digitsAt c with
  | [] => .error (c.faultNext .invalidNumber)
  | digits => .ok (c.advance digits.length)

/-- The place behind what follows the digits of a number that is passed over. -/
def skipAfterDigits (c : Cursor) : Scan Cursor :=
  match c.rest with
  | 'e' :: _ => skipExponent (c.advance 1)
  | 'E' :: _ => skipExponent (c.advance 1)
  | _ => .ok c

/-- The place behind a number that is passed over, from behind its sign. -/
def skipNumber (c : Cursor) : Scan Cursor := do
  let whole ←
    match digitsAt c with
    | [] => .error (c.faultNext .invalidNumber)
    | '0' :: _ :: _ => .error ((c.advance 1).faultNext .invalidNumber)
    | digits => .ok (c.advance digits.length)
  match whole.rest with
  | '.' :: _ =>
      match digitsAt (whole.advance 1) with
      | [] => .error ((whole.advance 1).faultNext .invalidNumber)
      | digits => skipAfterDigits (whole.advance (digits.length + 1))
  | _ => skipAfterDigits whole

end Lineage.Json

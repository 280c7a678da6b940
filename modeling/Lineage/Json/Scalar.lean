import Lineage.Json.Number
import Lineage.Json.Quote

/-!
# Scalars in JSON texts

The values that are neither lists nor objects: `null`, truth values, numbers and strings.
-/

namespace Lineage.Json

/-- A value that is no list and no object. -/
def scalar (c : Cursor) : Scan (Scalar × Cursor) :=
  match c.rest with
  | 'n' :: rest => do return (.null, ← word "ull".toList (c.offset + 1) rest)
  | 't' :: rest => do return (.bool true, ← word "rue".toList (c.offset + 1) rest)
  | 'f' :: rest => do return (.bool false, ← word "alse".toList (c.offset + 1) rest)
  | '-' :: _ => number false (c.advance 1)
  | '"' :: _ => do
      let (s, c) ← stringBody (c.advance 1)
      return (.str s, c)
  | x :: _ => if x.isDigit then number true c else .error (c.faultNext .expectedValue)
  | [] => .error (c.faultNext .expectedValue)

/-- The place behind a scalar that is passed over. -/
def skipScalar (c : Cursor) : Scan Cursor :=
  match c.rest with
  | 'n' :: rest => word "ull".toList (c.offset + 1) rest
  | 't' :: rest => word "rue".toList (c.offset + 1) rest
  | 'f' :: rest => word "alse".toList (c.offset + 1) rest
  | '-' :: _ => skipNumber (c.advance 1)
  | '"' :: _ => skipString (c.advance 1)
  | x :: _ => if x.isDigit then skipNumber c else .error (c.faultNext .expectedValue)
  | [] => .error (c.faultNext .expectedValue)

end Lineage.Json

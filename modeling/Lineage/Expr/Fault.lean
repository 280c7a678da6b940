import Lineage.Diagnostic
import Lineage.Expr.Token

/-!
# What can be wrong with a type expression

A text is rejected for one reason, at one place.
-/

namespace Lineage.Expr

/-- How messages refer to a token that may be missing. -/
def describeFound : Option Kind → String
  | none => "end of input"
  | some kind => kind.describe

/-- The reasons for rejecting a text. -/
inductive Cause where
  /-- The text ends where a type should stand. -/
  | missingType
  /-- Something else stands where a type should stand. -/
  | notAType (found : Kind)
  /-- Characters that belong to no token stand where a type should stand. -/
  | garbage (characters : String)
  /-- A bracket is not closed where it should be. -/
  | unclosed (found : Option Kind) (opened : Span)
  /-- The brackets nest beyond the limit. -/
  | tooDeep
  /-- The text goes on behind a complete type. -/
  | trailing (found : Kind)
  /-- There are several types where one should stand. -/
  | severalTypes
  /-- An application stands before a bound operator. -/
  | headNotVariable (operator : Kind)
  /-- An application stands between two bound operators. -/
  | middleNotVariable
  /-- Several items stand between two bound operators. -/
  | severalMiddles
  deriving DecidableEq

/-- The words for a reason. -/
def Cause.message : Cause → String
  | missingType => "expected a type"
  | notAType found => s!"expected a type, found {found.describe}"
  | garbage characters => s!"unexpected characters `{characters}`"
  | unclosed found _ => s!"expected `]`, found {describeFound found}"
  | tooDeep => "type expression nested too deeply"
  | trailing found => s!"unexpected {found.describe} after type"
  | severalTypes => "expected a single type"
  | headNotVariable operator => s!"expected a generic identifier before {operator.describe}"
  | middleNotVariable => "expected a generic identifier"
  | severalMiddles => "expected a single generic identifier"

/-- The remark that goes with a reason: where the unclosed bracket was opened. -/
def Cause.note : Cause → Option Note
  | unclosed _ opened => some ⟨opened, "`[` opened here"⟩
  | _ => none

/-- A reason for rejecting a text, and the range it is found at. -/
structure Fault where
  span : Span
  cause : Cause
  deriving DecidableEq

/-- The fault as a diagnostic. -/
def Fault.diagnostic (f : Fault) : Diagnostic := ⟨f.span, f.cause.message, f.cause.note⟩

/-- The report that rejects a text for a fault. -/
def Fault.report (source : String) (f : Fault) : Report := ⟨source, [f.diagnostic]⟩

end Lineage.Expr

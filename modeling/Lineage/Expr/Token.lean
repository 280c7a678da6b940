/-!
# Classes of tokens

The pieces of a type expression belong to classes:

* a *variable name* is a single letter;
* a *type name* is a letter followed by at least one letter, digit or underscore;
* the rest are brackets, the comma, `<:`, `>:` and blanks.

Letters and digits are those of ASCII. Where pieces of several lengths belong to classes, the
longest one is meant. Characters at which no class matches are garbage.
-/

namespace Lineage.Expr

/-! ## 1. Classes -/

/-- The classes of lexemes. -/
inductive Kind where
  | openBracket
  | closeBracket
  | comma
  | subtype
  | supertype
  | varName
  | typeName
  | blank
  | garbage
  deriving DecidableEq

/-- How messages refer to a class. -/
def Kind.describe : Kind → String
  | openBracket => "`[`"
  | closeBracket => "`]`"
  | comma => "`,`"
  | subtype => "`<:`"
  | supertype => "`>:`"
  | varName => "generic identifier"
  | typeName => "type name"
  | blank => "whitespace"
  | garbage => "invalid characters"

/-- Whether the lexeme carries no meaning. -/
def Kind.isTrivia (k : Kind) : Bool := k == blank

/-- The letters a name starts with. -/
def isLetter (c : Char) : Bool := c.isAlpha

/-- The characters a type name goes on with. -/
def isWordChar (c : Char) : Bool := c.isAlphanum || c == '_'

/-- Space, tab, carriage return and line feed. -/
def isBlank (c : Char) : Bool := c == ' ' || c == '\t' || c == '\r' || c == '\n'

/-! ## 2. Matching -/

/-- The class of the longest match at the start of a text, and its number of characters. -/
def longestMatch : List Char → Option (Kind × Nat)
  | [] => none
  | '[' :: _ => some (.openBracket, 1)
  | ']' :: _ => some (.closeBracket, 1)
  | ',' :: _ => some (.comma, 1)
  | '<' :: ':' :: _ => some (.subtype, 2)
  | '>' :: ':' :: _ => some (.supertype, 2)
  | c :: cs =>
      if isLetter c then
        match (cs.takeWhile isWordChar).length with
        | 0 => some (.varName, 1)
        | n + 1 => some (.typeName, n + 2)
      else if isBlank c then
        some (.blank, (cs.takeWhile isBlank).length + 1)
      else
        none

end Lineage.Expr

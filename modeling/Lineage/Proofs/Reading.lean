import Lineage.Expr.Parser
import Lineage.Proofs.Lexing

/-!
# Reading from lists of tokens

The reader of this module takes tokens from the front of a list and gives back those that are left
over. It stops at the first fault, and it always comes to an answer. A walk with a cursor along the
pieces of a text comes to the same one (`Lineage.Proofs.Cursor`).
-/

namespace Lineage.Expr

/-- A reader of tokens: what was read and the tokens left over, or a fault. -/
abbrev Reader (α : Type) := List Token → Except Fault (α × List Token)

/-! ## 1. Atoms

`inner` reads what stands between brackets, and `stop` is the place where the text ends. -/

/-- The range of the next token, or the empty one at the end of the text. -/
def nextSpan (stop : Nat) : List Token → Span
  | [] => .empty stop
  | t :: _ => t.span

/-- The closing bracket of an application whose arguments have been read. -/
def closing (stop : Nat) (name opened : Token) (args : List Ty) : Reader Item
  | [] => .error ⟨.empty stop, .unclosed none opened.span⟩
  | t :: rest =>
      if t.kind = .closeBracket then
        .ok (⟨.app ⟨name.text, args⟩, ⟨name.start, t.stop⟩⟩, rest)
      else
        .error ⟨t.span, .unclosed (some t.kind) opened.span⟩

/-- What follows a type name: its arguments in brackets, if there are any. -/
def application (stop : Nat) (inner : Reader (List Ty)) (name : Token) : Reader Item
  | [] => .ok (⟨.app ⟨name.text, []⟩, name.span⟩, [])
  | t :: rest =>
      if t.kind = .openBracket then do
        let (args, rest) ← inner rest
        closing stop name t args rest
      else
        .ok (⟨.app ⟨name.text, []⟩, name.span⟩, t :: rest)

/-- A variable or an application. -/
def atom (stop : Nat) (inner : Reader (List Ty)) : Reader Item
  | [] => .error ⟨.empty stop, .missingType⟩
  | t :: rest =>
      match t.kind with
      | .varName => .ok (⟨.var (.free t.text), t.span⟩, rest)
      | .typeName => application stop inner t rest
      | .garbage => .error ⟨t.span, .garbage t.text⟩
      | other => .error ⟨t.span, .notAType other⟩

/-- The atoms behind commas, at most `n` of them. -/
def moreAtoms (stop : Nat) (inner : Reader (List Ty)) : Nat → Reader (List Item)
  | 0, rest => .ok ([], rest)
  | _ + 1, [] => .ok ([], [])
  | n + 1, t :: rest =>
      if t.kind = .comma then do
        let (item, rest) ← atom stop inner rest
        let (items, rest) ← moreAtoms stop inner n rest
        .ok (item :: items, rest)
      else
        .ok ([], t :: rest)

/-- Atoms with commas between them: a first one and the others. Each takes a token, so their number
    is bounded by that of the tokens. -/
def atoms (stop : Nat) (inner : Reader (List Ty)) : Reader (Item × List Item) := fun tokens => do
  let (item, rest) ← atom stop inner tokens
  let (items, rest) ← moreAtoms stop inner rest.length rest
  .ok ((item, items), rest)

/-! ## 2. Lists of types -/

/-- What follows a first list of atoms and `<:`. -/
def boundedAbove (stop : Nat) (inner : Reader (List Ty)) (place : Place) (operator : Token)
    (first : Item) (items : List Item) : Reader (List Ty) := fun tokens => do
  let ((second, seconds), rest) ← atoms stop inner tokens
  let single : Except Fault (List Ty × List Token) := do
    let (front, name) ← head place operator.kind first items
    .ok (types front ++ [.var (.bounded name [] (types (second :: seconds)))], rest)
  match rest with
  | [] => single
  | t :: rest' =>
      if t.kind = .subtype then do
        let name ← middle second seconds
        let ((upper, uppers), rest) ← atoms stop inner rest'
        .ok ([.var (.bounded name (types (first :: items)) (types (upper :: uppers)))], rest)
      else
        single

/-- What follows a first list of atoms and `>:`. -/
def boundedBelow (stop : Nat) (inner : Reader (List Ty)) (place : Place) (operator : Token)
    (first : Item) (items : List Item) : Reader (List Ty) := fun tokens => do
  let (front, name) ← head place operator.kind first items
  let ((lower, lowers), rest) ← atoms stop inner tokens
  .ok (types front ++ [.var (.bounded name (types (lower :: lowers)) [])], rest)

/-- The types that stand at a place. -/
def typeList (stop : Nat) (inner : Reader (List Ty)) (place : Place) : Reader (List Ty) :=
  fun tokens => do
    let ((first, items), rest) ← atoms stop inner tokens
    let plain : Except Fault (List Ty × List Token) := do
      let tys ← unbounded place first items
      .ok (tys, rest)
    match rest with
    | [] => plain
    | t :: rest' =>
        match t.kind with
        | .supertype => boundedBelow stop inner place t first items rest'
        | .subtype => boundedAbove stop inner place t first items rest'
        | _ => plain

/-- The arguments between brackets, while `depth` more levels of brackets may be opened. -/
def arguments (stop : Nat) : (depth : Nat) → Reader (List Ty)
  | 0, tokens => .error ⟨nextSpan stop tokens, .tooDeep⟩
  | depth + 1, tokens => typeList stop (arguments stop depth) .brackets tokens

/-- One type and nothing behind it. -/
def single (stop : Nat) (tokens : List Token) : Except Fault Ty := do
  let (tys, rest) ← typeList stop (arguments stop maxDepth) .whole tokens
  match rest with
  | t :: _ => .error ⟨t.span, .trailing t.kind⟩
  | [] =>
      match tys with
      | [ty] => .ok ty
      | _ => .error ⟨.empty stop, .severalTypes⟩

end Lineage.Expr

namespace Lineage

/-- The instance a text stands for, or the fault it is rejected for. -/
def Ty.read (text : String) : Except Expr.Fault Ty :=
  Expr.single (Text.byteLength text.toList) (Expr.meaningful text)

/-- The instance a text stands for, or the report that rejects it. -/
def Ty.parse (text : String) : Except Report Ty := (Ty.read text).mapError (·.report text)

end Lineage

import Lineage.Expr.Fault
import Lineage.Expr.Lexer
import Lineage.Ty.Basic

/-!
# Reading type expressions

    type   ::=  atom  |  VAR `>:` atoms  |  VAR `<:` atoms  |  atoms `<:` VAR `<:` atoms
    atoms  ::=  atom (`,` atom)*
    atom   ::=  VAR  |  NAME  |  NAME `[` arguments `]`

Every production starts with a list of atoms, and what follows the list decides how its members are
read. Between brackets the members in front of a bounded variable are arguments of their own, and
the list of bounds reaches to the closing bracket. Variables in a list of bounds are dropped.

A cursor walks along the pieces of a text. It counts the pieces taken and the brackets open, and
faults are added to a list while it goes. A walk is done, or given up after its first fault, or it
gets stuck: there is nothing to take behind the last piece, and the source has no text at a range
whose ends do not lie between characters. Brackets nest `maxDepth` deep at most.
-/

namespace Lineage.Expr

/-- The deepest nesting of brackets that is read. -/
def maxDepth : Nat := 64

/-- An atom and the range it covers. -/
structure Item where
  ty : Ty
  span : Span

/-- Where a list of types stands: as the whole text, or between brackets. -/
inductive Place where
  | whole
  | brackets
  deriving DecidableEq

/-! ## 1. Checks of items -/

/-- The types of items. -/
def types (items : List Item) : List Ty := items.map Item.ty

/-- The variable that heads a list of bounds: the last item before the operator. As the whole text
    it has to be the only one. Gives the items before it and its name. -/
def head (place : Place) (operator : Kind) (first : Item) (items : List Item) :
    Except Fault (List Item × String) :=
  let last := (first :: items).getLast (List.cons_ne_nil _ _)
  let front := (first :: items).dropLast
  match last.ty with
  | .app _ => .error ⟨last.span, .headNotVariable operator⟩
  | .var v =>
      match place, front with
      | .whole, extra :: _ => .error ⟨extra.span, .severalTypes⟩
      | _, _ => .ok (front, v.name)

/-- The variable between two bound operators: the only item there. -/
def middle (first : Item) : List Item → Except Fault String
  | extra :: _ => .error ⟨extra.span, .severalMiddles⟩
  | [] =>
      match first.ty with
      | .var v => .ok v.name
      | .app _ => .error ⟨first.span, .middleNotVariable⟩

/-- Atoms that no operator follows: as the whole text, only one. -/
def unbounded (place : Place) (first : Item) (items : List Item) : Except Fault (List Ty) :=
  match place, items with
  | .whole, extra :: _ => .error ⟨extra.span, .severalTypes⟩
  | _, _ => .ok (types (first :: items))

/-! ## 2. Walks -/

/-- What a walk goes along: a source, the place where it ends, and its pieces that carry meaning. -/
structure Course where
  source : List Char
  stop : Nat
  pieces : List Piece

/-- Where a walk stands. -/
structure Cursor where
  taken : Nat
  depth : Nat
  faults : List Fault

/-- How a walk ends. -/
inductive Walked (α : Type) where
  /-- It goes on from here. -/
  | done (result : α) (c : Cursor)
  /-- It is given up; the reason is among the faults. -/
  | abandoned (c : Cursor)
  /-- It asked for what is not there, or did not come to an end. -/
  | stuck

/-- A reading of pieces with a cursor. -/
structure Walk (α : Type) where
  run : Cursor → Walked α

/-- A walk that goes on with another one. -/
def Walked.andThen {α β : Type} : Walked α → (α → Walk β) → Walked β
  | .done a c, f => (f a).run c
  | .abandoned c, _ => .abandoned c
  | .stuck, _ => .stuck

namespace Walk

instance : Monad Walk where
  pure a := ⟨fun c => .done a c⟩
  bind w f := ⟨fun c => (w.run c).andThen f⟩

/-- Go on with what has to be there. -/
def demand {α : Type} : Option α → Walk α
  | some a => pure a
  | none => ⟨fun _ => .stuck⟩

/-- The next piece, if there is one. -/
def next (s : Course) : Walk (Option Piece) := ⟨fun c => .done s.pieces[c.taken]? c⟩

/-- Take the next piece. There has to be one. -/
def bump (s : Course) : Walk Piece := do
  let p ← demand (← next s)
  ⟨fun c => .done p { c with taken := c.taken + 1 }⟩

/-- The text at a range of the source. -/
def textAt (s : Course) (span : Span) : Walk String :=
  demand ((Text.slice s.source span.start span.stop).map String.ofList)

/-- Add a fault and give up. -/
def reject {α : Type} (f : Fault) : Walk α where
  run c := .abandoned { c with faults := c.faults ++ [f] }

/-- Give up at the fault of a check, or go on with its result. -/
def check {α : Type} : Except Fault α → Walk α
  | .ok a => pure a
  | .error f => reject f

/-- The range of the next piece, or the empty one at the end of the text. -/
def nextSpan (s : Course) : Walk Span := do
  let p ← next s
  return (p.map Piece.span).getD (.empty s.stop)

/-- Count a bracket that is opened. -/
def enter (s : Course) : Walk Unit := do
  let depth ← ⟨fun c => .done (c.depth + 1) { c with depth := c.depth + 1 }⟩
  if maxDepth < depth then
    reject ⟨← nextSpan s, .tooDeep⟩

/-- Count a bracket that is closed. -/
def leave : Walk Unit := ⟨fun c => .done () { c with depth := c.depth - 1 }⟩

/-! ## 3. The grammar

`inner` reads what stands between brackets. -/

section Grammar

variable (s : Course) (inner : Walk (List Ty))

/-- What stands between brackets. -/
def bracketed : Walk (List Ty) := do
  enter s
  let args ← inner
  leave
  return args

/-- A type name and its arguments in brackets, if there are any. -/
def application : Walk Item := do
  let name ← bump s
  let found ← next s
  if found.map Piece.kind = some .openBracket then
    let opened ← bump s
    let args ← bracketed s inner
    let found ← next s
    if found.map Piece.kind = some .closeBracket then
      let closed ← bump s
      let span ← demand (between name.span.start closed.span.stop)
      return ⟨.app ⟨← textAt s name.span, args⟩, span⟩
    else
      reject ⟨← nextSpan s, .unclosed (found.map Piece.kind) opened.span⟩
  else
    return ⟨.app ⟨← textAt s name.span, []⟩, name.span⟩

/-- A variable or an application. -/
def atom : Walk Item := do
  match ← next s with
  | none => reject ⟨.empty s.stop, .missingType⟩
  | some p =>
      match p.kind with
      | .varName => do
          let p ← bump s
          return ⟨.var (.free (← textAt s p.span)), p.span⟩
      | .typeName => application s inner
      | .garbage => reject ⟨p.span, .garbage (← textAt s p.span)⟩
      | other => reject ⟨p.span, .notAType other⟩

/-- The atoms behind commas. Fewer of them than `n` can be there. -/
def moreAtoms : (n : Nat) → Walk (List Item)
  | 0 => ⟨fun _ => .stuck⟩
  | n + 1 => do
      let found ← next s
      if found.map Piece.kind = some .comma then
        let _ ← bump s
        let item ← atom s inner
        let items ← moreAtoms n
        return item :: items
      else
        return []

/-- Atoms with commas between them. -/
def atoms : Walk (Item × List Item) := do
  let item ← atom s inner
  let items ← moreAtoms s inner (s.pieces.length + 1)
  return (item, items)

/-- `<:` and what follows it behind a first list of atoms. -/
def boundedAbove (place : Place) (first : Item) (items : List Item) : Walk (List Ty) := do
  let operator ← bump s
  let (second, seconds) ← atoms s inner
  let found ← next s
  if found.map Piece.kind = some .subtype then
    let _ ← bump s
    let name ← check (middle second seconds)
    let (upper, uppers) ← atoms s inner
    return [.var (.bounded name (types (first :: items)) (types (upper :: uppers)))]
  else
    let (front, name) ← check (head place operator.kind first items)
    return types front ++ [.var (.bounded name [] (types (second :: seconds)))]

/-- `>:` and what follows it behind a first list of atoms. -/
def boundedBelow (place : Place) (first : Item) (items : List Item) : Walk (List Ty) := do
  let operator ← bump s
  let (front, name) ← check (head place operator.kind first items)
  let (lower, lowers) ← atoms s inner
  return types front ++ [.var (.bounded name (types (lower :: lowers)) [])]

/-- The types that stand at a place. -/
def typeList (place : Place) : Walk (List Ty) := do
  let (first, items) ← atoms s inner
  let found ← next s
  match found.map Piece.kind with
  | some .supertype => boundedBelow s inner place first items
  | some .subtype => boundedAbove s inner place first items
  | _ => check (unbounded place first items)

/-- The types between brackets. Fewer brackets than `levels` can be opened inside. -/
def arguments : (levels : Nat) → Walk (List Ty)
  | 0 => ⟨fun _ => .stuck⟩
  | levels + 1 => typeList s (arguments levels) .brackets

/-- One type and nothing behind it. -/
def single : Walk Ty := do
  let tys ← typeList s (arguments s maxDepth) .whole
  match ← next s with
  | some p => reject ⟨p.span, .trailing p.kind⟩
  | none =>
      match tys with
      | [ty] => return ty
      | _ => reject ⟨.empty s.stop, .severalTypes⟩

end Grammar

end Walk

/-- What the walk along the pieces of a text comes to: an instance, or all the faults that were
    found. There is no answer if the walk gets stuck. -/
def walkAlong (text : String) (stop : Nat) (pieces : List Piece) : Option (Except Report Ty) :=
  match (Walk.single ⟨text.toList, stop, pieces.filter (!·.kind.isTrivia)⟩).run ⟨0, 0, []⟩ with
  | .done ty c =>
      some (if c.faults.isEmpty then .ok ty else .error ⟨text, c.faults.map Fault.diagnostic⟩)
  | .abandoned c => some (.error ⟨text, c.faults.map Fault.diagnostic⟩)
  | .stuck => none

end Lineage.Expr

namespace Lineage

/-- The instance a text stands for, or the report that rejects it. There is neither if the lexer
    stops or the walk gets stuck. -/
def Ty.ofText (text : String) : Option (Except Report Ty) :=
  (Expr.lex text).bind
    (Expr.walkAlong text (Expr.narrow (Text.byteLength text.toList)))

end Lineage

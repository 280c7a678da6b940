import Lineage.Diagnostic
import Lineage.Expr.Token
import Lineage.Text.Bytes

/-!
# The lexer

A text is cut into pieces from left to right: at each place the longest piece that belongs to a
class is taken. Where no class matches, one character is passed over. The place of the first such
character is remembered, and the garbage from there on is cut off as one piece when something
matches again or the text ends.

Pieces have no text of their own but a range of the source. The ends of a range are kept in 32 bits,
so that places from 4 GiB on start again at 0. No range may end before it starts: a piece that would
have such a range stops the lexer, and there is no result.
-/

namespace Lineage.Expr

open Lineage.Text

/-! ## 1. Pieces -/

/-- A piece of a text: its class and its range. -/
structure Piece where
  kind : Kind
  span : Span
  deriving DecidableEq

/-- A place as it is kept in 32 bits. -/
def narrow (place : Nat) : Nat := place % UInt32.size

/-- The range between two places, which has to start before it ends. -/
def between (start stop : Nat) : Option Span :=
  if start ≤ stop then some ⟨start, stop⟩ else none

/-- The range of a piece between two places of the source. -/
def range (start stop : Nat) : Option Span := between (narrow start) (narrow stop)

/-! ## 2. Cutting -/

/-- Where the lexer stands: what is left of the text, the place where it starts, the place where
    garbage has started that is not cut off yet, and the pieces found. -/
structure Lexer where
  rest : List Char
  place : Nat
  pending : Option Nat
  pieces : List Piece

namespace Lexer

/-- Add a piece between two places. -/
def push (l : Lexer) (kind : Kind) (start stop : Nat) : Option Lexer :=
  (range start stop).map fun span => { l with pieces := l.pieces ++ [⟨kind, span⟩] }

/-- Cut off the garbage that ends here. -/
def flush (l : Lexer) : Option Lexer :=
  match l.pending with
  | none => some l
  | some start => { l with pending := none }.push .garbage start l.place

/-- Take what matches before `rest`, or pass over the character `c`. -/
def turn (l : Lexer) (c : Char) (rest : List Char) : Option Lexer :=
  match longestMatch (c :: rest) with
  | some (kind, size) => do
      let stop := l.place + byteLength ((c :: rest).take size)
      let l ← (← l.flush).push kind l.place stop
      return { l with rest := (c :: rest).drop size, place := stop }
  | none =>
      some { l with rest, place := l.place + c.utf8Size, pending := l.pending.or (some l.place) }

/-- The pieces after at most `n` more turns. -/
def run : Nat → Lexer → Option (List Piece)
  | 0, l => l.flush.map Lexer.pieces
  | n + 1, l =>
      match l.rest with
      | [] => l.flush.map Lexer.pieces
      | c :: rest => (l.turn c rest).bind (run n)

end Lexer

/-- The pieces of a text, blanks included. Each turn takes a character, so there are no more turns
    than characters. -/
def lex (text : String) : Option (List Piece) :=
  Lexer.run text.toList.length ⟨text.toList, 0, none, []⟩

end Lineage.Expr

import Lineage.Proofs.Lexing

/-!
# The lexer finds the tokens

The lexer passes over garbage character by character and cuts it off only when something matches
again. So where garbage is pending, the turns up to the next match cut off one piece
(`run_pending`), and from a place where none is pending on, the turns cut off what the lexemes say
(`run_eq`). The pieces of a text are its tokens with their places kept in 32 bits (`lex_eq`), and
there is no result if one of these ranges would end before it starts.
-/

namespace Lineage.Expr

open Lineage.Text

variable {c : Char} {cs : List Char} {k : Kind} {n size place start : Nat} {pieces : List Piece}

/-- A token without its text, its places kept in 32 bits. -/
def Token.narrowed (t : Token) : Option Piece := (range t.start t.stop).map (⟨t.kind, ·⟩)

theorem narrowed_lexeme (k : Kind) (start : Nat) (s : List Char) :
    (⟨k, start, String.ofList s⟩ : Token).narrowed =
      (range start (start + byteLength s)).map (⟨k, ·⟩) := by
  rw [Token.narrowed, Token.stop, String.toList_ofList]

/-- The pieces of the tokens of a text that is laid out from a place on. -/
def narrowedFrom (start : Nat) (cs : List Char) : Option (List Piece) :=
  (Expr.place start (lexemes cs)).mapM Token.narrowed

theorem narrowedFrom_cons (e : firstLexeme (c :: cs) = (k, size)) :
    narrowedFrom start (c :: cs) =
      (range start (start + byteLength ((c :: cs).take size))).bind fun span =>
        (narrowedFrom (start + byteLength ((c :: cs).take size)) ((c :: cs).drop size)).map
          (⟨k, span⟩ :: ·) := by
  rw [narrowedFrom, lexemes_cons, e, Expr.place, List.mapM_cons, narrowed_lexeme]
  cases range start (start + byteLength ((c :: cs).take size)) with
  | none => rfl
  | some span =>
      rw [narrowedFrom]
      cases (Expr.place _ (lexemes ((c :: cs).drop size))).mapM Token.narrowed <;> rfl

namespace Lexer

/-! ## 1. Pending garbage -/

/-- Where something matches, or at the end, pending garbage is cut off before anything else. -/
theorem run_flush (h : cs = [] ∨ (longestMatch cs).isSome = true) :
    run n ⟨cs, place, some start, pieces⟩ =
      (range start place).bind fun span =>
        run n ⟨cs, place, none, pieces ++ [⟨.garbage, span⟩]⟩ := by
  have hflush : flush ⟨cs, place, some start, pieces⟩ = (range start place).map fun span =>
      ⟨cs, place, none, pieces ++ [⟨.garbage, span⟩]⟩ := rfl
  cases n with
  | zero =>
      rw [run, hflush]
      cases range start place <;> rfl
  | succ n =>
      cases cs with
      | nil =>
          rw [run, hflush]
          cases range start place <;> rfl
      | cons c cs =>
          obtain ⟨r, hr⟩ := Option.isSome_iff_exists.1 (h.resolve_left (List.cons_ne_nil c cs))
          obtain ⟨k, size⟩ := r
          simp only [run, turn, hr, hflush]
          cases range start place <;> rfl

/-- **The turns up to the next match cut off one piece of garbage.** -/
theorem run_pending (place start : Nat) (pieces : List Piece) (hn : cs.length ≤ n) :
    ∃ m, (cs.drop (garbageRun cs)).length ≤ m ∧ run n ⟨cs, place, some start, pieces⟩ =
      (range start (place + byteLength (cs.take (garbageRun cs)))).bind fun span =>
        run m ⟨cs.drop (garbageRun cs), place + byteLength (cs.take (garbageRun cs)), none,
          pieces ++ [⟨.garbage, span⟩]⟩ := by
  induction cs generalizing n place with
  | nil => exact ⟨n, Nat.zero_le n, run_flush (.inl rfl)⟩
  | cons c cs ih =>
      by_cases h : (longestMatch (c :: cs)).isSome = true
      · rw [garbageRun_of_isSome h]
        exact ⟨n, hn, run_flush (.inr h)⟩
      · obtain ⟨n, rfl⟩ := Nat.exists_eq_add_of_le' (Nat.lt_of_lt_of_le (Nat.succ_pos _) hn)
        obtain ⟨m, hm, e⟩ := ih (place + c.utf8Size) (Nat.le_of_succ_le_succ hn)
        have hnone : longestMatch (c :: cs) = none := by simpa using h
        refine ⟨m, ?_, ?_⟩
        · rwa [garbageRun, if_neg h, List.drop_succ_cons]
        · rw [garbageRun, if_neg h, List.take_succ_cons, List.drop_succ_cons, byteLength,
            ← Nat.add_assoc, ← e]
          simp only [run, turn, hnone]
          rfl

/-! ## 2. All turns -/

/-- **From a place without pending garbage on, the pieces are those of the lexemes.** -/
theorem run_eq (hn : cs.length ≤ n) :
    run n ⟨cs, place, none, pieces⟩ = (narrowedFrom place cs).map (pieces ++ ·) := by
  induction h : cs.length using Nat.strongRecOn generalizing cs n place pieces with
  | _ length ih =>
      cases cs with
      | nil => cases n <;> simp [run, flush, narrowedFrom, lexemes, lexemesUpTo, Expr.place]
      | cons c cs =>
          have hpos := pos_firstLexeme c cs
          have hdrop (size : Nat) (hs : 0 < size) : ((c :: cs).drop size).length < length := by
            rw [List.length_drop]
            rw [List.length_cons] at h ⊢
            omega
          obtain ⟨n, rfl⟩ := Nat.exists_eq_add_of_le' (Nat.lt_of_lt_of_le (Nat.succ_pos _) hn)
          cases hm : longestMatch (c :: cs) with
          | some r =>
              obtain ⟨k, size⟩ := r
              have hlt := hdrop size (pos_of_longestMatch hm)
              have hle : ((c :: cs).drop size).length ≤ n := by omega
              rw [narrowedFrom_cons (firstLexeme_of_match hm)]
              simp only [run, turn, hm, flush, push]
              cases range place (place + byteLength ((c :: cs).take size)) with
              | none => rfl
              | some span =>
                  refine (ih _ hlt hle rfl).trans ?_
                  rw [Option.bind_some, Option.map_map]
                  simp [Function.comp_def]
          | none =>
              -- the first character starts a run of garbage that ends where it would end anyway
              have hfirst := firstLexeme_of_none hm
              have hrun : garbageRun (c :: cs) = garbageRun cs + 1 := by
                rw [garbageRun, if_neg (by simp [hm])]
              rw [hrun] at hfirst
              have hlt := hdrop (garbageRun cs + 1) (Nat.succ_pos _)
              obtain ⟨m, hle, e⟩ := run_pending (place + c.utf8Size) place pieces
                (Nat.le_of_succ_le_succ hn)
              rw [narrowedFrom_cons hfirst, List.take_succ_cons, List.drop_succ_cons, byteLength,
                ← Nat.add_assoc]
              rw [List.drop_succ_cons] at hlt
              simp only [run, turn, hm]
              refine e.trans ?_
              cases range place (place + c.utf8Size + byteLength (cs.take (garbageRun cs))) with
              | none => rfl
              | some span =>
                  rw [Option.bind_some, ih _ hlt hle rfl, Option.bind_some, Option.map_map]
                  simp [Function.comp_def]

end Lexer

/-- **The lexer finds the tokens of a text**, their places kept in 32 bits. -/
theorem lex_eq (text : String) : lex text = (tokens text).mapM Token.narrowed := by
  rw [lex, Lexer.run_eq (Nat.le_refl _)]
  exact congrFun Option.map_id _

end Lineage.Expr

import Lineage.Expr.Lexer

/-!
# How texts fall into tokens

The lexemes of a text are found from left to right: at each place the longest piece that belongs to
a class is one, and so is a run of characters at which no class matches. Laid out one behind the
other they are the tokens of the text, with their own text and the place where it stands.

What the reader of type expressions is given are the tokens of a text that carry meaning
(`tokensFrom`). They are found piece by piece: a mark is one token wherever it stands, blanks are
none, and a name is one token if no character that a name goes on with follows
(`exists_typeName`). Every token is spelled as its class demands (`spells_of_mem`).
-/

namespace Lineage.Expr

/-! ## 1. Lexemes and tokens -/

/-- The number of characters before the next place at which some class matches. -/
def garbageRun : List Char → Nat
  | [] => 0
  | c :: cs => if (longestMatch (c :: cs)).isSome then 0 else garbageRun cs + 1

/-- The class of the first lexeme of a text and its number of characters. -/
def firstLexeme (cs : List Char) : Kind × Nat :=
  (longestMatch cs).getD (.garbage, garbageRun cs)

/-- At most `n` lexemes from the start of a text. -/
def lexemesUpTo : Nat → List Char → List (Kind × List Char)
  | 0, _ => []
  | _ + 1, [] => []
  | n + 1, c :: cs =>
      let (kind, size) := firstLexeme (c :: cs)
      (kind, (c :: cs).take size) :: lexemesUpTo n ((c :: cs).drop size)

/-- The lexemes of a text. None is empty, so there are no more of them than characters. -/
def lexemes (cs : List Char) : List (Kind × List Char) := lexemesUpTo cs.length cs

/-- A lexeme at its place. -/
structure Token where
  kind : Kind
  start : Nat
  text : String
  deriving DecidableEq

/-- The place just behind a token. -/
def Token.stop (t : Token) : Nat := t.start + Text.byteLength t.text.toList

/-- The range of a token. -/
def Token.span (t : Token) : Span := ⟨t.start, t.stop⟩

/-- A token without its text. -/
def Token.piece (t : Token) : Piece := ⟨t.kind, t.span⟩

/-- Lexemes laid out one behind the other from a place on. -/
def place : Nat → List (Kind × List Char) → List Token
  | _, [] => []
  | start, (kind, cs) :: rest =>
      ⟨kind, start, String.ofList cs⟩ :: place (start + Text.byteLength cs) rest

/-- The tokens of a text, blanks included. -/
def tokens (text : String) : List Token := place 0 (lexemes text.toList)

/-- The tokens of a text that carry meaning. -/
def meaningful (text : String) : List Token := (tokens text).filter (!·.kind.isTrivia)

variable {c : Char} {cs rest s : List Char} {k : Kind} {n start : Nat}

/-! ## 2. Spelling -/

/-- One letter. -/
def isVarName : List Char → Bool
  | [c] => isLetter c
  | _ => false

/-- A letter, and at least one more character that a name goes on with. -/
def isTypeName : List Char → Bool
  | c :: d :: cs => isLetter c && (d :: cs).all isWordChar
  | _ => false

theorem isWordChar_of_isLetter (hc : isLetter c = true) : isWordChar c = true := by
  simp [isWordChar, Char.isAlphanum, show c.isAlpha = true from hc]

theorem isVarName_iff : isVarName s = true ↔ ∃ c, s = [c] ∧ isLetter c = true := by
  cases s with
  | nil => simp [isVarName]
  | cons c cs => cases cs <;> simp [isVarName]

theorem isTypeName_iff : isTypeName s = true ↔ ∃ c d ds, s = c :: d :: ds ∧ isLetter c = true ∧
    ∀ x ∈ d :: ds, isWordChar x = true := by
  constructor
  · intro hs
    cases s with
    | nil => cases hs
    | cons c cs =>
        cases cs with
        | nil => cases hs
        | cons d ds =>
            rw [isTypeName, Bool.and_eq_true, List.all_eq_true] at hs
            exact ⟨c, d, ds, rfl, hs⟩
  · intro hs
    obtain ⟨c, d, ds, rfl, hs⟩ := hs
    rw [isTypeName, Bool.and_eq_true, List.all_eq_true]
    exact hs

theorem isWordChar_of_isVarName (hs : isVarName s = true) : ∀ x ∈ s, isWordChar x = true := by
  obtain ⟨c, rfl, hc⟩ := isVarName_iff.1 hs
  exact List.forall_mem_singleton.2 (isWordChar_of_isLetter hc)

theorem isWordChar_of_isTypeName (hs : isTypeName s = true) : ∀ x ∈ s, isWordChar x = true := by
  obtain ⟨c, d, ds, rfl, hc, hds⟩ := isTypeName_iff.1 hs
  exact List.forall_mem_cons.2 ⟨isWordChar_of_isLetter hc, hds⟩

/-- Whether a piece of text belongs to a class. Garbage is what belongs to none. -/
def Kind.spells : Kind → List Char → Bool
  | .openBracket, s => s == ['[']
  | .closeBracket, s => s == [']']
  | .comma, s => s == [',']
  | .subtype, s => s == ['<', ':']
  | .supertype, s => s == ['>', ':']
  | .varName, s => isVarName s
  | .typeName, s => isTypeName s
  | .blank, s => !s.isEmpty && s.all isBlank
  | .garbage, _ => false

theorem Kind.spells_nil : k.spells [] = false := by
  cases k <;> rfl

/-- A letter starts a name, and what the name goes on with tells its class. -/
theorem longestMatch_letter (hc : isLetter c = true) (cs : List Char) :
    longestMatch (c :: cs) = some (if cs.takeWhile isWordChar = [] then (.varName, 1)
      else (.typeName, (cs.takeWhile isWordChar).length + 1)) := by
  unfold longestMatch
  split
  case h_7 heq =>
    cases heq
    rw [if_pos hc]
    cases cs.takeWhile isWordChar with
    | nil => rfl
    | cons d ds => rfl
  all_goals cases ‹_ :: _ = _›
  all_goals exact absurd hc (by decide)

theorem isLetter_of_isBlank (hc : isBlank c = true) : isLetter c = false := by
  simp only [isBlank, Bool.or_eq_true, beq_iff_eq] at hc
  obtain ((rfl | rfl) | rfl) | rfl := hc <;> decide

theorem longestMatch_blank (hc : isBlank c = true) (cs : List Char) :
    longestMatch (c :: cs) = some (.blank, (cs.takeWhile isBlank).length + 1) := by
  unfold longestMatch
  split
  case h_7 heq =>
    cases heq
    rw [if_neg (by simp [isLetter_of_isBlank hc]), if_pos hc]
  all_goals cases ‹_ :: _ = _›
  all_goals exact absurd hc (by decide)

/-- What is matched belongs to the class. -/
theorem spells_of_longestMatch (e : longestMatch cs = some (k, n)) :
    k.spells (cs.take n) = true := by
  unfold longestMatch at e
  split at e
  case h_7 c cs _ _ _ _ _ =>
    split at e
    case isTrue hc =>
      split at e
      case h_1 =>
        cases e
        simpa [Kind.spells, isVarName] using hc
      case h_2 m hm =>
        cases e
        have hword := List.all_takeWhile (p := isWordChar) (l := cs)
        have htake : cs.take (m + 1) = cs.takeWhile isWordChar := by
          rw [List.prefix_iff_eq_take.1 (List.takeWhile_prefix isWordChar), hm]
        rw [List.take_succ_cons, htake]
        obtain ⟨d, ds, hds⟩ := List.exists_cons_of_length_eq_add_one hm
        rw [hds] at hword ⊢
        simp only [Kind.spells, isTypeName, hc, Bool.true_and]
        exact hword
    case isFalse hc =>
      split at e
      case isTrue hb =>
        cases e
        rw [List.take_succ_cons, ← List.prefix_iff_eq_take.1 (List.takeWhile_prefix _)]
        simp [Kind.spells, hb]
      case isFalse => cases e
  case h_1 => cases e
  all_goals
    cases e
    rfl

theorem pos_of_longestMatch (e : longestMatch cs = some (k, n)) : 0 < n := by
  refine Nat.pos_of_ne_zero fun hn => ?_
  have hspells := spells_of_longestMatch e
  rw [hn, List.take_zero, Kind.spells_nil] at hspells
  cases hspells

/-! ## 3. Lexeme by lexeme -/

theorem firstLexeme_of_match (e : longestMatch cs = some (k, n)) : firstLexeme cs = (k, n) := by
  rw [firstLexeme, e, Option.getD_some]

theorem firstLexeme_of_none (e : longestMatch cs = none) :
    firstLexeme cs = (.garbage, garbageRun cs) := by
  rw [firstLexeme, e, Option.getD_none]

theorem garbageRun_of_isSome (h : (longestMatch cs).isSome = true) : garbageRun cs = 0 := by
  cases cs with
  | nil => rfl
  | cons c cs => rw [garbageRun, if_pos h]

/-- No lexeme is empty. -/
theorem pos_firstLexeme (c : Char) (cs : List Char) : 0 < (firstLexeme (c :: cs)).2 := by
  cases hm : longestMatch (c :: cs) with
  | some r =>
      rw [firstLexeme_of_match hm]
      exact pos_of_longestMatch hm
  | none =>
      rw [firstLexeme_of_none hm]
      simp [garbageRun, hm]

theorem lexemesUpTo_succ : lexemesUpTo (n + 1) (c :: cs) =
    ((firstLexeme (c :: cs)).1, (c :: cs).take (firstLexeme (c :: cs)).2) ::
      lexemesUpTo n ((c :: cs).drop (firstLexeme (c :: cs)).2) :=
  rfl

/-- As many lexemes as there are characters are all of them. -/
theorem lexemesUpTo_eq (hn : cs.length ≤ n) : lexemesUpTo n cs = lexemes cs := by
  suffices h : ∀ m, cs.length ≤ m → lexemesUpTo n cs = lexemesUpTo m cs from h _ (Nat.le_refl _)
  induction n generalizing cs with
  | zero =>
      rw [List.eq_nil_of_length_eq_zero (Nat.le_zero.1 hn)]
      intro m _
      cases m <;> rfl
  | succ n ih =>
      intro m hm
      cases cs with
      | nil => cases m <;> rfl
      | cons c cs =>
          have hpos := pos_firstLexeme c cs
          obtain ⟨m, rfl⟩ := Nat.exists_eq_add_of_le' (Nat.lt_of_lt_of_le (Nat.succ_pos _) hm)
          rw [List.length_cons] at hn hm
          rw [lexemesUpTo_succ, lexemesUpTo_succ, ih (by simp; omega) m (by simp; omega)]

/-- The first lexeme, and those of the rest. -/
theorem lexemes_cons : lexemes (c :: cs) =
    ((firstLexeme (c :: cs)).1, (c :: cs).take (firstLexeme (c :: cs)).2) ::
      lexemes ((c :: cs).drop (firstLexeme (c :: cs)).2) := by
  have hpos := pos_firstLexeme c cs
  rw [lexemes, List.length_cons, lexemesUpTo_succ, lexemesUpTo_eq (by simp; omega)]

/-- A piece that is matched as a whole is the first lexeme. -/
theorem lexemes_append (e : longestMatch (s ++ rest) = some (k, s.length)) :
    lexemes (s ++ rest) = (k, s) :: lexemes rest := by
  cases s with
  | nil => cases pos_of_longestMatch e
  | cons c s =>
      have htake : (c :: (s ++ rest)).take (c :: s).length = c :: s := List.take_left
      have hdrop : (c :: (s ++ rest)).drop (c :: s).length = rest := List.drop_left
      rw [List.cons_append] at e ⊢
      rw [lexemes_cons, firstLexeme_of_match e, htake, hdrop]

/-! ## 4. Tokens with a meaning -/

/-- The tokens with a meaning of a text that is laid out from a place on. -/
def tokensFrom (start : Nat) (cs : List Char) : List Token :=
  (place start (lexemes cs)).filter (!·.kind.isTrivia)

theorem meaningful_eq (text : String) : meaningful text = tokensFrom 0 text.toList := rfl

theorem tokensFrom_nil : tokensFrom start [] = [] := rfl

/-- A piece that is matched as a whole is one token, if it has a meaning. -/
theorem tokensFrom_append (e : longestMatch (s ++ rest) = some (k, s.length)) :
    tokensFrom start (s ++ rest) =
      (if k.isTrivia then [] else [⟨k, start, String.ofList s⟩]) ++
        tokensFrom (start + Text.byteLength s) rest := by
  rw [tokensFrom, lexemes_append e, place, List.filter_cons, tokensFrom]
  cases k.isTrivia <;> rfl

theorem exists_token (hk : k.isTrivia = false) (e : longestMatch (s ++ rest) = some (k, s.length))
    (start : Nat) : ∃ t next, t.kind = k ∧ t.text = String.ofList s ∧
      tokensFrom start (s ++ rest) = t :: tokensFrom next rest :=
  ⟨⟨k, start, String.ofList s⟩, _, rfl, rfl, by rw [tokensFrom_append e, hk]; rfl⟩

/-! ### Blanks -/

/-- The blanks at the start of a text are skipped. -/
theorem tokensFrom_dropWhile (start : Nat) (cs : List Char) : tokensFrom start cs =
    tokensFrom (start + Text.byteLength (cs.takeWhile isBlank)) (cs.dropWhile isBlank) := by
  cases cs with
  | nil => rfl
  | cons c cs =>
      by_cases hc : isBlank c = true
      · -- the run of blanks is one lexeme, and it has no meaning
        have hsplit : c :: cs = (c :: cs.takeWhile isBlank) ++ cs.dropWhile isBlank := by
          rw [List.cons_append, List.takeWhile_append_dropWhile]
        have hmatch := longestMatch_blank hc cs
        rw [List.takeWhile_cons_of_pos hc, List.dropWhile_cons_of_pos hc]
        rw [hsplit] at hmatch
        rw [hsplit]
        exact tokensFrom_append hmatch
      · rw [List.takeWhile_cons_of_neg hc, List.dropWhile_cons_of_neg hc]
        rfl

theorem tokensFrom_blank (hc : isBlank c = true) :
    tokensFrom start (c :: rest) = tokensFrom (start + c.utf8Size) rest := by
  rw [tokensFrom_dropWhile start, tokensFrom_dropWhile (start + c.utf8Size),
    List.takeWhile_cons_of_pos hc, List.dropWhile_cons_of_pos hc, Text.byteLength, Nat.add_assoc]

/-! ### Names -/

/-- A text with which no name goes on. -/
def Detached (rest : List Char) : Prop := rest.takeWhile isWordChar = []

theorem exists_typeName (hs : isTypeName s = true) (hr : Detached rest) (start : Nat) :
    ∃ t next, t.kind = .typeName ∧ t.text = String.ofList s ∧
      tokensFrom start (s ++ rest) = t :: tokensFrom next rest := by
  obtain ⟨c, d, ds, rfl, hc, hword⟩ := isTypeName_iff.1 hs
  unfold Detached at hr
  have htake : (d :: ds ++ rest).takeWhile isWordChar = d :: ds := by
    rw [List.takeWhile_append_of_pos hword, hr, List.append_nil]
  refine exists_token rfl ?_ start
  rw [List.cons_append, longestMatch_letter hc, htake, if_neg (List.cons_ne_nil d ds)]
  rfl

theorem exists_varName (hs : isVarName s = true) (hr : Detached rest) (start : Nat) :
    ∃ t next, t.kind = .varName ∧ t.text = String.ofList s ∧
      tokensFrom start (s ++ rest) = t :: tokensFrom next rest := by
  obtain ⟨c, rfl, hc⟩ := isVarName_iff.1 hs
  unfold Detached at hr
  refine exists_token rfl ?_ start
  rw [List.singleton_append, longestMatch_letter hc, if_pos hr]
  rfl

/-! ### Spelling -/

theorem spells_of_mem_lexemesUpTo {l : Kind × List Char} (hl : l ∈ lexemesUpTo n cs) :
    l.1 = .garbage ∨ l.1.spells l.2 = true := by
  induction n generalizing cs with
  | zero => cases hl
  | succ n ih =>
      cases cs with
      | nil => cases hl
      | cons c cs =>
          rw [lexemesUpTo_succ, List.mem_cons] at hl
          cases hl with
          | inr hl => exact ih hl
          | inl hl =>
              subst hl
              cases hm : longestMatch (c :: cs) with
              | none => exact .inl (by simp [firstLexeme, hm])
              | some r =>
                  rw [firstLexeme_of_match hm]
                  exact .inr (spells_of_longestMatch hm)

theorem mem_of_mem_place {ls : List (Kind × List Char)} {t : Token} (ht : t ∈ place start ls) :
    (t.kind, t.text.toList) ∈ ls := by
  induction ls generalizing start with
  | nil => cases ht
  | cons l ls ih =>
      obtain ⟨k, s⟩ := l
      rw [place, List.mem_cons] at ht
      cases ht with
      | inl ht =>
          subst ht
          simp
      | inr ht => exact List.mem_cons_of_mem _ (ih ht)

/-- **Every token is spelled as its class demands**, garbage apart. -/
theorem spells_of_mem {t : Token} (ht : t ∈ tokensFrom start cs) :
    t.kind = .garbage ∨ t.kind.spells t.text.toList = true :=
  spells_of_mem_lexemesUpTo (mem_of_mem_place (List.mem_filter.1 ht).1)

end Lineage.Expr

import Lineage.Proofs.Monadic
import Lineage.Proofs.Scanning
import Mathlib.Data.List.Chain
import Mathlib.Data.List.TakeWhile

/-!
# Lossless cutting

The tokens of a text are a partition of it into longest matches. What this demands of a list of
tokens (`Partition`) is said without the way they are found:

* the tokens stand one behind the other from the start of the text to its end, none is empty, and
  each is what is written at its place;
* a token of a class is the longest piece at its place that belongs to any class;
* at no character of garbage does a class match, and neither garbage nor blanks stand side by side.

One list of tokens meets these demands, and it is the one that is found. A match is as long as any
piece of any class (`exists_longestMatch`), and no piece belongs to two classes
(`Kind.eq_of_spells`), so each lexeme is settled by the text from its place on
(`firstLexeme_of_wellCut`). The pieces that the lexer finds are these tokens as long as no place
needs more than 32 bits (`lex_of_short`).
-/

namespace Lineage.Text

variable {cs before before' after after' : List Char}

/-- The places before, between and behind the characters of a text. -/
def IsBoundary (cs : List Char) (place : Nat) : Prop :=
  ∃ before after, cs = before ++ after ∧ byteLength before = place

theorem byteLength_pos (h : cs ≠ []) : 0 < byteLength cs := by
  cases cs with
  | nil => exact absurd rfl h
  | cons c cs => exact Nat.add_pos_left c.utf8Size_pos _

/-- At a place a text falls into two parts in one way. -/
theorem append_inj_of_byteLength (e : before ++ after = before' ++ after')
    (h : byteLength before = byteLength before') : before = before' ∧ after = after' := by
  induction before generalizing before' with
  | nil =>
      cases before' with
      | nil => exact ⟨rfl, e⟩
      | cons c cs => exact absurd h (Nat.ne_of_lt (byteLength_pos (List.cons_ne_nil c cs)))
  | cons c cs ih =>
      cases before' with
      | nil => exact absurd h (Nat.ne_of_gt (byteLength_pos (List.cons_ne_nil c cs)))
      | cons d ds =>
          obtain ⟨rfl, e'⟩ := List.cons.inj e
          obtain ⟨rfl, rfl⟩ := ih e' (Nat.add_left_cancel h)
          exact ⟨rfl, rfl⟩

end Lineage.Text

namespace Lineage.Expr

open Lineage.Text

variable {c : Char} {cs s p after : List Char} {k k' : Kind} {n start stop : Nat}
  {ls : List (Kind × List Char)} {ts : List Token}

/-! ## 1. What is demanded -/

/-- How a piece of a text may be cut off before the rest of it. -/
structure WellCut (k : Kind) (s after : List Char) : Prop where
  /-- A piece of a class is as long as any piece of any class at its place. -/
  longest : k ≠ .garbage → k.spells s = true ∧
    ∀ (k' : Kind) (p : List Char), k'.spells p = true → p <+: s ++ after → p.length ≤ s.length
  /-- No class matches at any character of garbage. -/
  unmatched : k = .garbage → ∀ b, b <:+ s → b ≠ [] →
    ∀ (k' : Kind) (p : List Char), p <+: b ++ after → k'.spells p = false

/-- Tokens one behind the other from one place to another. -/
def Contiguous : Nat → List Token → Nat → Prop
  | start, [], stop => start = stop
  | start, t :: ts, stop => t.start = start ∧ Contiguous t.stop ts stop

/-- The token is written at its place in the text, and it is cut off there as it should be. -/
def Token.CutFrom (cs : List Char) (t : Token) : Prop :=
  ∃ before after, cs = before ++ (t.text.toList ++ after) ∧ byteLength before = t.start ∧
    WellCut t.kind t.text.toList after

/-- Tokens that may stand side by side. -/
def Apart (k k' : Kind) : Prop := ¬ (k = .garbage ∧ k' = .garbage) ∧ ¬ (k = .blank ∧ k' = .blank)

/-- A text cut into longest matches, nothing left out. -/
structure Partition (text : String) (ts : List Token) : Prop where
  contiguous : Contiguous 0 ts (byteLength text.toList)
  nonempty : ∀ t ∈ ts, t.start < t.stop
  boundaries : ∀ t ∈ ts, IsBoundary text.toList t.start ∧ IsBoundary text.toList t.stop
  cut : ∀ t ∈ ts, t.CutFrom text.toList
  apart : ts.IsChain fun t u => Apart t.kind u.kind

/-! ## 2. Matches -/

theorem spells_blank_iff : Kind.blank.spells s = true ↔ s ≠ [] ∧ ∀ c ∈ s, isBlank c = true := by
  rw [Kind.spells, Bool.and_eq_true, List.all_eq_true, Bool.not_eq_true', List.isEmpty_eq_false_iff]

/-- No match is shorter than a piece of a class at the same place. -/
theorem exists_longestMatch (hs : k.spells s = true) (after : List Char) :
    ∃ k' n, longestMatch (s ++ after) = some (k', n) ∧ s.length ≤ n := by
  cases k with
  | openBracket | closeBracket | comma | subtype | supertype =>
      rw [Kind.spells, beq_iff_eq] at hs
      subst hs
      exact ⟨_, _, rfl, Nat.le_refl _⟩
  | varName =>
      obtain ⟨c, rfl, hc⟩ := isVarName_iff.1 hs
      rw [List.singleton_append, longestMatch_letter hc]
      split <;> exact ⟨_, _, rfl, by simp⟩
  | typeName =>
      obtain ⟨c, d, ds, rfl, hc, hword⟩ := isTypeName_iff.1 hs
      have htake : (d :: ds ++ after).takeWhile isWordChar =
          d :: ds ++ after.takeWhile isWordChar := List.takeWhile_append_of_pos hword
      rw [List.cons_append, longestMatch_letter hc, htake, if_neg (by simp)]
      exact ⟨_, _, rfl, by simp⟩
  | blank =>
      obtain ⟨hne, hblank⟩ := spells_blank_iff.1 hs
      obtain ⟨c, s, rfl⟩ := List.exists_cons_of_ne_nil hne
      obtain ⟨hc, hblank⟩ := List.forall_mem_cons.1 hblank
      rw [List.cons_append, longestMatch_blank hc, List.takeWhile_append_of_pos hblank]
      exact ⟨_, _, rfl, by simp⟩
  | garbage => cases hs

theorem le_length_of_longestMatch (e : longestMatch cs = some (k, n)) : n ≤ cs.length := by
  unfold longestMatch at e
  split at e
  case h_7 c cs _ _ _ _ _ =>
    have hword := (List.takeWhile_prefix isWordChar (l := cs)).length_le
    have hblank := (List.takeWhile_prefix isBlank (l := cs)).length_le
    split at e
    · split at e
      · cases e
        simp
      · cases e
        rw [List.length_cons]
        omega
    · split at e
      · cases e
        rw [List.length_cons]
        omega
      · cases e
  case h_1 => cases e
  all_goals
    cases e
    simp

/-- A match is as long as any piece of any class. -/
theorem length_le_of_longestMatch (e : longestMatch cs = some (k, n)) (hp : k'.spells p = true)
    (hstart : p <+: cs) : p.length ≤ n := by
  obtain ⟨after, rfl⟩ := hstart
  obtain ⟨k'', m, e', hle⟩ := exists_longestMatch hp after
  rw [e] at e'
  cases e'
  exact hle

theorem longestMatch_eq_none_iff :
    longestMatch cs = none ↔ ∀ (k : Kind) (p : List Char), p <+: cs → k.spells p = false := by
  constructor
  · intro e k p hp
    refine Bool.eq_false_iff.2 fun hs => ?_
    obtain ⟨after, rfl⟩ := hp
    obtain ⟨k', n, e', -⟩ := exists_longestMatch hs after
    rw [e] at e'
    cases e'
  · intro h
    cases e : longestMatch cs with
    | none => rfl
    | some r =>
        have hs := spells_of_longestMatch e
        rw [h _ _ (List.take_prefix _ _)] at hs
        cases hs

theorem isSome_longestMatch (hs : k.spells p = true) (hp : p <+: cs) :
    (longestMatch cs).isSome = true := by
  obtain ⟨after, rfl⟩ := hp
  obtain ⟨k', n, e, -⟩ := exists_longestMatch hs after
  rw [e]
  rfl

/-- The class that a piece belongs to is the class that is matched first. -/
theorem eq_of_spells_longestMatch (hs : k.spells s = true) :
    longestMatch s = some (k, s.length) := by
  cases k with
  | openBracket | closeBracket | comma | subtype | supertype =>
      rw [Kind.spells, beq_iff_eq] at hs
      subst hs
      rfl
  | varName =>
      obtain ⟨c, rfl, hc⟩ := isVarName_iff.1 hs
      exact longestMatch_letter hc []
  | typeName =>
      obtain ⟨c, d, ds, rfl, hc, hword⟩ := isTypeName_iff.1 hs
      rw [longestMatch_letter hc, List.takeWhile_eq_self_iff.2 hword, if_neg (List.cons_ne_nil _ _)]
      rfl
  | blank =>
      obtain ⟨hne, hblank⟩ := spells_blank_iff.1 hs
      obtain ⟨c, s, rfl⟩ := List.exists_cons_of_ne_nil hne
      obtain ⟨hc, hblank⟩ := List.forall_mem_cons.1 hblank
      rw [longestMatch_blank hc, List.takeWhile_eq_self_iff.2 hblank]
      rfl
  | garbage => cases hs

/-- **No piece belongs to two classes.** -/
theorem Kind.eq_of_spells (hs : k.spells s = true) (hs' : k'.spells s = true) : k = k' := by
  have e := (eq_of_spells_longestMatch hs).symm.trans (eq_of_spells_longestMatch hs')
  cases e
  rfl

/-! ## 3. Lexemes -/

/-- A run of garbage takes every character at which nothing matches, up to a match. -/
theorem garbageRun_append (hs : ∀ b, b <:+ s → b ≠ [] → longestMatch (b ++ after) = none)
    (ha : after = [] ∨ (longestMatch after).isSome = true) :
    garbageRun (s ++ after) = s.length := by
  induction s with
  | nil =>
      obtain rfl | ha := ha
      · rfl
      · exact garbageRun_of_isSome ha
  | cons c s ih =>
      have hc : longestMatch (c :: s ++ after) = none :=
        hs _ (List.suffix_refl _) (List.cons_ne_nil c s)
      rw [List.cons_append] at hc
      rw [List.cons_append, garbageRun, if_neg (by simp [hc]),
        ih fun b hb => hs b (hb.trans (List.suffix_cons c s))]
      rfl

/-- Nothing matches inside a run of garbage, and something does behind it. -/
theorem garbageRun_spec (cs : List Char) :
    (∀ b, b <:+ cs.take (garbageRun cs) → b ≠ [] →
      longestMatch (b ++ cs.drop (garbageRun cs)) = none) ∧
    (cs.drop (garbageRun cs) = [] ∨ (longestMatch (cs.drop (garbageRun cs))).isSome = true) := by
  induction cs with
  | nil => exact ⟨fun b hb hne => absurd (List.suffix_nil.1 hb) hne, .inl rfl⟩
  | cons c cs ih =>
      by_cases hc : (longestMatch (c :: cs)).isSome = true
      · rw [garbageRun_of_isSome hc]
        exact ⟨fun b hb hne => absurd (List.suffix_nil.1 hb) hne, .inr hc⟩
      · rw [garbageRun, if_neg hc, List.take_succ_cons, List.drop_succ_cons]
        refine ⟨fun b hb hne => ?_, ih.2⟩
        obtain rfl | hb := List.suffix_cons_iff.1 hb
        · rw [List.cons_append, List.take_append_drop]
          simpa using hc
        · exact ih.1 b hb hne

/-- **The first lexeme of a text is well cut**, and garbage ends where something matches. -/
theorem wellCut_firstLexeme (cs : List Char) :
    WellCut (firstLexeme cs).1 (cs.take (firstLexeme cs).2) (cs.drop (firstLexeme cs).2) ∧
    ((firstLexeme cs).1 = .garbage → cs.drop (firstLexeme cs).2 = [] ∨
      (longestMatch (cs.drop (firstLexeme cs).2)).isSome = true) := by
  cases e : longestMatch cs with
  | none =>
      rw [firstLexeme_of_none e]
      obtain ⟨hnone, hnext⟩ := garbageRun_spec cs
      exact ⟨⟨fun h => absurd rfl h, fun _ b hb hne => longestMatch_eq_none_iff.1 (hnone b hb hne)⟩,
        fun _ => hnext⟩
  | some r =>
      obtain ⟨k, n⟩ := r
      have hs := spells_of_longestMatch e
      have hk : k ≠ .garbage := by
        rintro rfl
        cases hs
      rw [firstLexeme_of_match e]
      refine ⟨⟨fun _ => ⟨hs, fun k' p hp hstart => ?_⟩, fun h => absurd h hk⟩,
        fun h => absurd h hk⟩
      rw [List.take_append_drop] at hstart
      rw [List.length_take_of_le (le_length_of_longestMatch e)]
      exact length_le_of_longestMatch e hp hstart

/-- **A piece that is well cut is the first lexeme**, if garbage goes on to the next match. -/
theorem firstLexeme_of_wellCut (hcut : WellCut k s after) (hne : s ≠ [])
    (hnext : k = .garbage → after = [] ∨ (longestMatch after).isSome = true) :
    firstLexeme (s ++ after) = (k, s.length) := by
  by_cases hk : k = .garbage
  · subst hk
    have hnone (b : List Char) (hb : b <:+ s) (hb' : b ≠ []) : longestMatch (b ++ after) = none :=
      longestMatch_eq_none_iff.2 (hcut.unmatched rfl b hb hb')
    rw [firstLexeme_of_none (hnone s (List.suffix_refl s) hne), garbageRun_append hnone (hnext rfl)]
  · obtain ⟨hs, hlongest⟩ := hcut.longest hk
    obtain ⟨k', n, e, hle⟩ := exists_longestMatch hs after
    have hs' := spells_of_longestMatch e
    -- the match is a piece of a class itself, so it is not longer either
    have hge := hlongest k' _ hs' (List.take_prefix n _)
    rw [List.length_take_of_le (le_length_of_longestMatch e)] at hge
    have hlen : n = s.length := Nat.le_antisymm hge hle
    subst hlen
    rw [List.take_left] at hs'
    rw [firstLexeme_of_match e, Kind.eq_of_spells hs hs']

/-! ## 4. Cuttings -/

/-- The text that lexemes make up. -/
def joined (ls : List (Kind × List Char)) : List Char := ls.flatMap Prod.snd

/-- Lexemes that are well cut from the text they make up, with no garbage side by side. -/
def Cutting : List (Kind × List Char) → Prop
  | [] => True
  | (k, s) :: ls => s ≠ [] ∧ WellCut k s (joined ls) ∧
      (k = .garbage → ∀ l ∈ ls.head?, l.1 ≠ .garbage) ∧ Cutting ls

theorem joined_cons (k : Kind) (s : List Char) (ls : List (Kind × List Char)) :
    joined ((k, s) :: ls) = s ++ joined ls := by
  rw [joined, List.flatMap_cons, joined]

theorem head_lexemes (cs : List Char) : ∀ l ∈ (lexemes cs).head?, l.1 = (firstLexeme cs).1 := by
  cases cs with
  | nil =>
      intro l hl
      cases hl
  | cons c cs =>
      rw [lexemes_cons]
      intro l hl
      cases hl
      rfl

/-- **The lexemes of a text are a cutting of it.** -/
theorem cutting_lexemes (cs : List Char) : joined (lexemes cs) = cs ∧ Cutting (lexemes cs) := by
  induction h : cs.length using Nat.strongRecOn generalizing cs with
  | _ m ih =>
      cases cs with
      | nil => exact ⟨rfl, trivial⟩
      | cons c cs =>
          have hpos := pos_firstLexeme c cs
          obtain ⟨hcut, hnext⟩ := wellCut_firstLexeme (c :: cs)
          rw [lexemes_cons]
          generalize (firstLexeme (c :: cs)).1 = k at hcut hnext
          generalize (firstLexeme (c :: cs)).2 = n at hpos hcut hnext
          have hlt : ((c :: cs).drop n).length < m := by
            rw [List.length_drop]
            rw [List.length_cons] at h ⊢
            omega
          obtain ⟨hjoin, hrest⟩ := ih _ hlt _ rfl
          refine ⟨by rw [joined_cons, hjoin, List.take_append_drop], ?_, by rwa [hjoin], ?_, hrest⟩
          · simp [Nat.ne_of_gt hpos]
          · intro hk l hl
            rw [head_lexemes _ l hl]
            obtain hnil | hsome := hnext hk
            · rw [hnil] at hl
              cases hl
            · obtain ⟨r, hr⟩ := Option.isSome_iff_exists.1 hsome
              have hs := spells_of_longestMatch hr
              rw [firstLexeme_of_match hr]
              intro hg
              rw [hg] at hs
              cases hs

/-- **A text has one cutting.** -/
theorem lexemes_joined (h : Cutting ls) : lexemes (joined ls) = ls := by
  induction ls with
  | nil => rfl
  | cons l ls ih =>
      obtain ⟨k, s⟩ := l
      obtain ⟨hne, hcut, hgarbage, hrest⟩ := h
      -- behind garbage stands nothing, or a lexeme of a class
      have hnext (hk : k = .garbage) :
          joined ls = [] ∨ (longestMatch (joined ls)).isSome = true := by
        cases ls with
        | nil => exact .inl rfl
        | cons l ls =>
            obtain ⟨k', s'⟩ := l
            have hspell := (hrest.2.1.longest (hgarbage hk _ rfl)).1
            rw [joined_cons]
            exact .inr (isSome_longestMatch hspell (List.prefix_append _ _))
      have hfirst := firstLexeme_of_wellCut hcut hne hnext
      obtain ⟨c, s, rfl⟩ := List.exists_cons_of_ne_nil hne
      rw [joined_cons]
      rw [List.cons_append] at hfirst ⊢
      rw [lexemes_cons, hfirst, ← List.cons_append, List.take_left, List.drop_left, ih hrest]

theorem ne_nil_of_cutting (h : Cutting ls) : ∀ l ∈ ls, l.2 ≠ [] := by
  induction ls with
  | nil => exact List.forall_mem_nil _
  | cons l ls ih =>
      obtain ⟨k, s⟩ := l
      exact List.forall_mem_cons.2 ⟨h.1, ih h.2.2.2⟩

/-- Blanks side by side would be a longer match. -/
theorem apart_of_cutting {l l' : Kind × List Char} (h : Cutting (l :: l' :: ls)) :
    Apart l.1 l'.1 := by
  obtain ⟨k, s⟩ := l
  obtain ⟨k', s'⟩ := l'
  obtain ⟨-, hcut, hgarbage, hne', hcut', -⟩ := h
  constructor
  · rintro ⟨hk, hk'⟩
    exact hgarbage hk _ rfl hk'
  · rintro ⟨rfl, rfl⟩
    obtain ⟨hs, hlongest⟩ := hcut.longest (by decide)
    obtain ⟨hs', -⟩ := hcut'.longest (by decide)
    have hboth : Kind.blank.spells (s ++ s') = true := by
      rw [spells_blank_iff] at hs hs' ⊢
      exact ⟨by simp [hs.1], List.forall_mem_append.2 ⟨hs.2, hs'.2⟩⟩
    have hstart : s ++ s' <+: s ++ joined ((.blank, s') :: ls) := by
      rw [joined_cons, ← List.append_assoc]
      exact List.prefix_append _ _
    have hle := hlongest .blank _ hboth hstart
    rw [List.length_append] at hle
    exact hne' (List.eq_nil_of_length_eq_zero (by omega))

/-! ## 5. Places -/

theorem Token.CutFrom.boundaries {t : Token} (h : t.CutFrom cs) :
    IsBoundary cs t.start ∧ IsBoundary cs t.stop := by
  obtain ⟨before, after, rfl, hstart, -⟩ := h
  refine ⟨⟨before, _, rfl, hstart⟩, before ++ t.text.toList, after, ?_, ?_⟩
  · rw [List.append_assoc]
  · rw [byteLength_append, hstart, Token.stop]

theorem contiguous_place (start : Nat) (ls : List (Kind × List Char)) :
    Contiguous start (place start ls) (start + byteLength (joined ls)) := by
  induction ls generalizing start with
  | nil => rfl
  | cons l ls ih =>
      obtain ⟨k, s⟩ := l
      have hstop : (⟨k, start, String.ofList s⟩ : Token).stop = start + byteLength s := by
        rw [Token.stop, String.toList_ofList]
      rw [place, joined_cons, byteLength_append, ← Nat.add_assoc]
      refine ⟨rfl, ?_⟩
      rw [hstop]
      exact ih _

theorem Token.start_le_stop (t : Token) : t.start ≤ t.stop := Nat.le_add_right _ _

theorem Contiguous.bounds {start : Nat} (h : Contiguous start ts stop) :
    start ≤ stop ∧ ∀ t ∈ ts, start ≤ t.start ∧ t.stop ≤ stop := by
  induction ts generalizing start with
  | nil => exact ⟨Nat.le_of_eq h, List.forall_mem_nil _⟩
  | cons t ts ih =>
      obtain ⟨rfl, hrest⟩ := h
      obtain ⟨hle, hall⟩ := ih hrest
      have hstart := t.start_le_stop
      refine ⟨Nat.le_trans hstart hle, List.forall_mem_cons.2 ⟨⟨Nat.le_refl _, hle⟩, ?_⟩⟩
      intro u hu
      exact ⟨Nat.le_trans hstart (hall u hu).1, (hall u hu).2⟩

theorem Contiguous.ordered {start : Nat} (h : Contiguous start ts stop) :
    ts.Pairwise fun t u => t.stop ≤ u.start := by
  induction ts generalizing start with
  | nil => exact .nil
  | cons t ts ih =>
      obtain ⟨rfl, hrest⟩ := h
      exact .cons (fun u hu => (hrest.bounds.2 u hu).1) (ih hrest)

theorem cutFrom_of_mem_place (h : Cutting ls) (before : List Char) {t : Token}
    (ht : t ∈ place (byteLength before) ls) : t.CutFrom (before ++ joined ls) := by
  induction ls generalizing before with
  | nil => cases ht
  | cons l ls ih =>
      obtain ⟨k, s⟩ := l
      obtain ⟨-, hcut, -, hrest⟩ := h
      rw [joined_cons]
      rw [place, ← byteLength_append, List.mem_cons] at ht
      obtain rfl | ht := ht
      · refine ⟨before, joined ls, ?_, rfl, ?_⟩
        · rw [String.toList_ofList]
        · rwa [String.toList_ofList]
      · rw [← List.append_assoc]
        exact ih hrest _ ht

theorem isChain_place (h : Cutting ls) (start : Nat) :
    (place start ls).IsChain fun t u => Apart t.kind u.kind := by
  induction ls generalizing start with
  | nil => exact .nil
  | cons l ls ih =>
      cases ls with
      | nil => exact .singleton _
      | cons l' ls => exact .cons_cons (apart_of_cutting h) (ih h.2.2.2 _)

/-- A cutting laid out from the start of the text is a partition. -/
theorem partition_place (h : Cutting ls) {text : String} (hjoin : joined ls = text.toList) :
    Partition text (place 0 ls) := by
  have hcut : ∀ t ∈ place 0 ls, t.CutFrom text.toList := by
    intro t ht
    rw [← hjoin]
    exact cutFrom_of_mem_place h [] ht
  refine ⟨?_, fun t ht => ?_, fun t ht => (hcut t ht).boundaries, hcut, isChain_place h 0⟩
  · have hall := contiguous_place 0 ls
    rwa [hjoin, Nat.zero_add] at hall
  · have hne := ne_nil_of_cutting h _ (mem_of_mem_place ht)
    exact Nat.lt_add_of_pos_right (byteLength_pos hne)

theorem place_lexemes (h : Contiguous start ts stop) :
    place start (ts.map fun t => (t.kind, t.text.toList)) = ts := by
  induction ts generalizing start with
  | nil => rfl
  | cons t ts ih =>
      obtain ⟨rfl, hrest⟩ := h
      rw [List.map_cons, place, String.ofList_toList]
      exact congrArg (t :: ·) (ih hrest)

/-- The tokens of a partition, read as lexemes, are a cutting. What is written behind the first
    token is what the others make up. -/
theorem cutting_of_contiguous (before : List Char) {rest : List Char} (hcs : cs = before ++ rest)
    (hts : Contiguous (byteLength before) ts (byteLength cs))
    (hne : ∀ t ∈ ts, t.start < t.stop) (hcut : ∀ t ∈ ts, t.CutFrom cs)
    (hapart : ts.IsChain fun t u => Apart t.kind u.kind) :
    joined (ts.map fun t => (t.kind, t.text.toList)) = rest ∧
      Cutting (ts.map fun t => (t.kind, t.text.toList)) := by
  induction ts generalizing before rest with
  | nil =>
      refine ⟨?_, trivial⟩
      by_contra hrest
      have hpos := byteLength_pos (Ne.symm hrest)
      have hlen : byteLength before = byteLength cs := hts
      rw [hcs, byteLength_append] at hlen
      omega
  | cons t ts ih =>
      obtain ⟨hstart, hts⟩ := hts
      obtain ⟨hpos, hne⟩ := List.forall_mem_cons.1 hne
      obtain ⟨⟨before', after, hcs', hstart', hwell⟩, hcut⟩ := List.forall_mem_cons.1 hcut
      obtain ⟨rfl, rfl⟩ := append_inj_of_byteLength (hcs'.symm.trans hcs)
        (hstart'.trans hstart)
      have hstop : t.stop = byteLength (before' ++ t.text.toList) := by
        rw [Token.stop, byteLength_append, hstart']
      rw [hstop] at hts
      obtain ⟨hjoin, hrest⟩ := ih _ (by rw [hcs', List.append_assoc]) hts hne hcut hapart.tail
      rw [List.map_cons, joined_cons, hjoin]
      refine ⟨rfl, fun hnil => ?_, by rwa [hjoin], fun hk l hl => ?_, hrest⟩
      · rw [Token.stop, hnil] at hpos
        exact Nat.lt_irrefl _ hpos
      · cases ts with
        | nil => cases hl
        | cons u us =>
            cases hl
            exact fun hk' => (List.isChain_cons_cons.1 hapart).1.1 ⟨hk, hk'⟩

theorem partition_tokens (text : String) : Partition text (tokens text) := by
  obtain ⟨hjoin, hcut⟩ := cutting_lexemes text.toList
  exact partition_place hcut hjoin

/-- Read as lexemes, the tokens of a partition are a cutting of the text. -/
theorem Partition.cutting {text : String} (P : Partition text ts) :
    joined (ts.map fun t => (t.kind, t.text.toList)) = text.toList ∧
      Cutting (ts.map fun t => (t.kind, t.text.toList)) :=
  cutting_of_contiguous [] rfl P.contiguous P.nonempty P.cut P.apart

theorem flatMap_tokens (text : String) :
    (tokens text).flatMap (fun t => t.text.toList) = text.toList := by
  have h := (partition_tokens text).cutting.1
  rwa [joined, List.flatMap_map] at h

/-! ## 6. Short texts -/

theorem narrow_of_lt {place : Nat} (h : place < UInt32.size) : narrow place = place :=
  Nat.mod_eq_of_lt h

theorem range_eq (h : narrow start ≤ narrow stop) :
    range start stop = some ⟨narrow start, narrow stop⟩ := by
  rw [range, between, if_pos h]

theorem range_of_lt (hle : start ≤ stop) (h : stop < UInt32.size) :
    range start stop = some ⟨start, stop⟩ := by
  have hstart := narrow_of_lt (Nat.lt_of_le_of_lt hle h)
  rw [range_eq (by rwa [hstart, narrow_of_lt h]), hstart, narrow_of_lt h]

theorem Token.narrowed_of_lt {t : Token} (h : t.stop < UInt32.size) :
    t.narrowed = some t.piece := by
  rw [Token.narrowed, range_of_lt t.start_le_stop h]
  rfl

/-- **The pieces of a text that is shorter than 4 GiB are its tokens.** -/
theorem lex_of_short {text : String} (h : byteLength text.toList < UInt32.size) :
    lex text = some ((tokens text).map Token.piece) := by
  rw [lex_eq, mapM_eq_some, List.forall₂_map_right_iff, List.forall₂_same]
  intro t ht
  have hle := ((partition_tokens text).contiguous.bounds.2 t ht).2
  exact Token.narrowed_of_lt (Nat.lt_of_le_of_lt hle h)

/-- **The tokens of a text are its partition into longest matches.** They are the pieces that the
    lexer finds, if the text is shorter than 4 GiB. Their texts joined together are the text, and no
    other list of tokens meets what is demanded of a partition. -/
theorem tokens_partition (text : String) :
    (byteLength text.toList < UInt32.size → lex text = some ((tokens text).map Token.piece)) ∧
    (tokens text).flatMap (fun t => t.text.toList) = text.toList ∧
      ∀ ts, Partition text ts ↔ ts = tokens text := by
  refine ⟨lex_of_short, flatMap_tokens text, fun ts => ⟨fun P => ?_, ?_⟩⟩
  · obtain ⟨hts, hcut⟩ := P.cutting
    rw [tokens, ← hts, lexemes_joined hcut, place_lexemes P.contiguous]
  · rintro rfl
    exact partition_tokens text

/-- Of `<<:` only the last two characters are an operator, and a digit goes on with a name only. The
    pieces are a partition of the text. -/
theorem mixed_partition :
    byteLength "7t1<<:é ]".toList < UInt32.size ∧
    lex "7t1<<:é ]" = some [⟨.garbage, ⟨0, 1⟩⟩, ⟨.typeName, ⟨1, 3⟩⟩, ⟨.garbage, ⟨3, 4⟩⟩,
      ⟨.subtype, ⟨4, 6⟩⟩, ⟨.garbage, ⟨6, 8⟩⟩, ⟨.blank, ⟨8, 9⟩⟩, ⟨.closeBracket, ⟨9, 10⟩⟩] ∧
    Partition "7t1<<:é ]" (tokens "7t1<<:é ]") := by
  have hshort : byteLength "7t1<<:é ]".toList < UInt32.size := by decide
  obtain ⟨hlex, -, hpartition⟩ := tokens_partition "7t1<<:é ]"
  refine ⟨hshort, (hlex hshort).trans (by decide), (hpartition _).2 rfl⟩

end Lineage.Expr

import Lineage.Proofs.Cursor

/-!
# Places in 32 bits

The lexer keeps the places of its pieces in 32 bits. In a text that is shorter than 4 GiB nothing is
lost, and it is read from its tokens (`ofText_of_short`).

A longer text may be read as well. What counts then are the pieces that the lexer finds, with the
text that the source has at their ranges (`lexed`). These ranges still stand one behind the other
(`ordered_of_narrowed`), since each ends where the next one starts, but what is written there may be
something else. If all pieces have a text, they are what is read (`ofText_of_lexed`). They do have
one if there is no garbage among them (`lexed_of_clean`): all characters then take one byte.
-/

namespace Lineage.Text

variable {cs : List Char}

theorem byteLength_of_ascii (h : ∀ c ∈ cs, c.utf8Size = 1) : byteLength cs = cs.length := by
  induction cs with
  | nil => rfl
  | cons c cs ih =>
      obtain ⟨hc, hcs⟩ := List.forall_mem_cons.1 h
      rw [byteLength, hc, ih hcs, List.length_cons, Nat.add_comm]

/-- Where every character takes one byte, a text can be cut anywhere. -/
theorem slice_of_ascii (h : ∀ c ∈ cs, c.utf8Size = 1) {start stop : Nat} (hle : start ≤ stop)
    (hstop : stop ≤ cs.length) :
    slice cs start stop = some ((cs.drop start).take (stop - start)) := by
  have hbefore : byteLength (cs.take start) = start := by
    rw [byteLength_of_ascii fun c hc => h c (List.mem_of_mem_take hc)]
    exact List.length_take_of_le (by omega)
  have hbetween : byteLength ((cs.drop start).take (stop - start)) = stop - start := by
    rw [byteLength_of_ascii fun c hc => h c (List.mem_of_mem_drop (List.mem_of_mem_take hc))]
    exact List.length_take_of_le (by rw [List.length_drop]; omega)
  have e := slice_append (cs.take start) ((cs.drop start).take (stop - start))
    ((cs.drop start).drop (stop - start))
  rwa [List.take_append_drop, List.take_append_drop, hbefore, hbetween,
    Nat.add_sub_cancel' hle] at e

end Lineage.Text

namespace Lineage.Expr

open Lineage.Text

variable {text : String} {cs : List Char} {ts : List Token} {ps : List Piece} {p : Piece}
  {start stop : Nat}

/-! ## 1. Short texts -/

/-- **A text that is shorter than 4 GiB is read from its tokens.** -/
theorem ofText_of_short (h : byteLength text.toList < UInt32.size) :
    Ty.ofText text = some (Ty.parse text) := by
  rw [Ty.ofText, lex_of_short h, Option.bind_some, narrow_of_lt h]
  exact walk_eq text

/-! ## 2. Pieces from left to right -/

theorem narrow_le (place : Nat) : narrow place ≤ place := Nat.mod_le _ _

theorem Token.narrowed_eq_some {t : Token} (e : t.narrowed = some p) :
    narrow t.start ≤ narrow t.stop ∧ p = ⟨t.kind, ⟨narrow t.start, narrow t.stop⟩⟩ := by
  obtain ⟨span, hspan, rfl⟩ := Option.map_eq_some_iff.1 e
  rw [range, between] at hspan
  split at hspan
  case isTrue h =>
    cases hspan
    exact ⟨h, rfl⟩
  case isFalse => cases hspan

/-- **The pieces of tokens one behind the other stand one behind the other**, though their places
    may start again at 0. -/
theorem ordered_of_narrowed (h : Contiguous start ts stop)
    (e : List.Forall₂ (fun t p => Token.narrowed t = some p) ts ps) :
    (∀ p ∈ ps, narrow start ≤ p.span.start ∧ p.span.start ≤ p.span.stop ∧ p.span.stop ≤ stop) ∧
      ps.Pairwise fun p q => p.span.stop ≤ q.span.start := by
  induction e generalizing start with
  | nil => exact ⟨List.forall_mem_nil _, .nil⟩
  | cons ht _ ih =>
      obtain ⟨rfl, hrest⟩ := h
      obtain ⟨hle, rfl⟩ := Token.narrowed_eq_some ht
      obtain ⟨hbounds, hordered⟩ := ih hrest
      refine ⟨List.forall_mem_cons.2 ⟨⟨Nat.le_refl _, hle, ?_⟩, fun q hq => ?_⟩,
        .cons (fun q hq => (hbounds q hq).1) hordered⟩
      · exact Nat.le_trans (narrow_le _) hrest.bounds.1
      · exact ⟨Nat.le_trans hle (hbounds q hq).1, (hbounds q hq).2⟩

theorem forall₂_of_lex (e : lex text = some ps) :
    List.Forall₂ (fun t p => Token.narrowed t = some p) (tokens text) ps :=
  mapM_eq_some.1 ((lex_eq text).symm.trans e)

theorem ordered_lex (e : lex text = some ps) :
    (∀ p ∈ ps, p.span.start ≤ p.span.stop ∧ p.span.stop ≤ byteLength text.toList) ∧
      ps.Pairwise fun p q => p.span.stop ≤ q.span.start := by
  obtain ⟨hbounds, hordered⟩ :=
    ordered_of_narrowed (partition_tokens text).contiguous (forall₂_of_lex e)
  exact ⟨fun p hp => (hbounds p hp).2, hordered⟩

/-! ## 3. Pieces with their texts -/

/-- The token that a piece of a text stands for. -/
def Piece.token? (cs : List Char) (p : Piece) : Option Token :=
  (slice cs p.span.start p.span.stop).map fun s => ⟨p.kind, p.span.start, String.ofList s⟩

/-- The pieces of a text that carry meaning, with the texts they have in the source. There are none
    if the lexer stops, or if a piece can not be cut out of the source. -/
def lexed (text : String) : Option (List Token) :=
  (lex text).bind fun pieces =>
    (pieces.filter (!·.kind.isTrivia)).mapM (Piece.token? text.toList)

/-- The token of a piece, with blanks in place of a text that can not be cut out. -/
def Piece.filled (cs : List Char) (p : Piece) : Token where
  kind := p.kind
  start := p.span.start
  text := String.ofList ((slice cs p.span.start p.span.stop).getD
    (List.replicate (p.span.stop - p.span.start) ' '))

theorem Piece.piece_filled (h : p.span.start ≤ p.span.stop) : (p.filled cs).piece = p := by
  have hstop : (p.filled cs).stop = p.span.stop := by
    rw [Token.stop, Piece.filled, String.toList_ofList]
    cases e : slice cs p.span.start p.span.stop with
    | some s => exact byteLength_of_slice e
    | none =>
        have hblanks : byteLength (List.replicate (p.span.stop - p.span.start) ' ') =
            p.span.stop - p.span.start := by
          rw [byteLength_of_ascii fun c hc => by rw [List.eq_of_mem_replicate hc]; rfl,
            List.length_replicate]
        rw [Option.getD_none, hblanks]
        exact Nat.add_sub_cancel' h
  rw [Token.piece, Token.span, hstop]
  rfl

theorem Piece.token?_eq_some {t : Token} :
    p.token? cs = some t ↔ slice cs p.span.start p.span.stop ≠ none ∧ t = p.filled cs := by
  rw [Piece.token?, Piece.filled]
  cases slice cs p.span.start p.span.stop with
  | none => simp
  | some s => simp [eq_comm]

theorem lexed_of_short (h : byteLength text.toList < UInt32.size) :
    lexed text = some (meaningful text) := by
  rw [lexed, lex_of_short h, Option.bind_some, filter_map_piece, mapM_eq_some,
    List.forall₂_map_left_iff, ← meaningful, List.forall₂_same]
  intro t ht
  have hcut : slice text.toList t.piece.span.start t.piece.span.stop = some t.text.toList :=
    slice_of_mem (List.mem_filter.1 ht).1
  rw [Piece.token?, hcut, Option.map_some, String.ofList_toList]
  rfl

/-- **The pieces that the lexer finds show their tokens.** -/
theorem shows_filled (e : lex text = some ps) (stop : Nat) :
    (Course.mk text.toList stop (ps.filter (!·.kind.isTrivia))).Shows
      ((ps.filter (!·.kind.isTrivia)).map (Piece.filled text.toList)) := by
  obtain ⟨hbounds, hordered⟩ := ordered_lex e
  have hpiece : ∀ p ∈ ps.filter (!·.kind.isTrivia), (p.filled text.toList).piece = p :=
    fun p hp => Piece.piece_filled (hbounds p (List.mem_filter.1 hp).1).1
  have hstop : ∀ p ∈ ps.filter (!·.kind.isTrivia), (p.filled text.toList).stop = p.span.stop :=
    fun p hp => congrArg (·.span.stop) (hpiece p hp)
  refine ⟨?_, fun t ht cs hcut => ?_, ?_⟩
  · rw [List.map_map]
    exact ((List.map_congr_left (g := id) hpiece).trans (List.map_id _)).symm
  · obtain ⟨p, hp, rfl⟩ := List.mem_map.1 ht
    rw [hstop p hp] at hcut
    have hsource : slice text.toList p.span.start p.span.stop = some cs := hcut
    rw [Piece.filled, hsource, Option.getD_some]
  · refine List.pairwise_map.2 ((hordered.filter _).imp_of_mem fun hp _ hle => ?_)
    rw [hstop _ hp]
    exact hle

/-! ## 4. What is read -/

/-- Pieces that all have a text are their tokens. -/
theorem eq_filled_of_mapM (e : ps.mapM (Piece.token? cs) = some ts) :
    ts = ps.map (Piece.filled cs) ∧ ∀ p ∈ ps, slice cs p.span.start p.span.stop ≠ none := by
  have hall := mapM_eq_some.1 e
  refine ⟨?_, fun p hp => ?_⟩
  · refine (List.forall₂_eq_eq_eq ▸ List.forall₂_map_left_iff.2 (hall.imp fun p t h => ?_)).symm
    exact (Piece.token?_eq_some.1 h).2.symm
  · obtain ⟨t, -, h⟩ := forall₂_exists_right hall hp
    exact (Piece.token?_eq_some.1 h).1

/-- **A text is read from the pieces that the lexer finds**, if they all have a text. -/
theorem ofText_of_lexed (e : lexed text = some ts) :
    Ty.ofText text = some ((single (narrow (byteLength text.toList)) ts).mapError
      (·.report text)) := by
  obtain ⟨ps, hps, e⟩ := Option.bind_eq_some_iff.1 e
  obtain ⟨rfl, hcut⟩ := eq_filled_of_mapM e
  rw [Ty.ofText, hps, Option.bind_some]
  refine (walkAlong_eq (shows_filled hps _)).resolve_right ?_
  rintro ⟨-, p, hp, hnone⟩
  exact hcut p hp hnone

/-! ### Pieces without garbage -/

theorem utf8Size_of_isWordChar {c : Char} (h : isWordChar c = true) : c.utf8Size = 1 := by
  rw [Char.utf8Size_eq_one_iff]
  rw [isWordChar, Char.isAlphanum, Bool.or_eq_true, Bool.or_eq_true, beq_iff_eq] at h
  obtain (h | h) | rfl := h
  · obtain h | h := Bool.or_eq_true_iff.1 (show (c.isUpper || c.isLower) = true from h)
    · exact UInt32.le_trans (of_decide_eq_true h).2 (by decide)
    · exact UInt32.le_trans (of_decide_eq_true (Bool.and_eq_true_iff.1 h).2) (by decide)
  · exact UInt32.le_trans (of_decide_eq_true (Bool.and_eq_true_iff.1 h).2) (by decide)
  · decide

theorem utf8Size_of_isBlank {c : Char} (h : isBlank c = true) : c.utf8Size = 1 := by
  simp only [isBlank, Bool.or_eq_true, beq_iff_eq] at h
  obtain ((rfl | rfl) | rfl) | rfl := h <;> rfl

/-- The characters of every class take one byte. -/
theorem utf8Size_of_spells {k : Kind} {s : List Char} (h : k.spells s = true) :
    ∀ c ∈ s, c.utf8Size = 1 := by
  cases k with
  | openBracket | closeBracket | comma =>
      rw [Kind.spells, beq_iff_eq] at h
      subst h
      exact List.forall_mem_singleton.2 rfl
  | subtype | supertype =>
      rw [Kind.spells, beq_iff_eq] at h
      subst h
      exact List.forall_mem_cons.2 ⟨rfl, List.forall_mem_singleton.2 rfl⟩
  | varName => exact fun c hc => utf8Size_of_isWordChar (isWordChar_of_isVarName h c hc)
  | typeName => exact fun c hc => utf8Size_of_isWordChar (isWordChar_of_isTypeName h c hc)
  | blank => exact fun c hc => utf8Size_of_isBlank ((spells_blank_iff.1 h).2 c hc)
  | garbage => cases h

theorem spells_of_clean (h : ∀ t ∈ tokens text, t.kind ≠ .garbage) {t : Token}
    (ht : t ∈ tokens text) : t.kind.spells t.text.toList = true :=
  (spells_of_mem_lexemesUpTo (mem_of_mem_place ht)).resolve_left (h t ht)

/-- A text without garbage has characters of one byte only. -/
theorem utf8Size_of_tokens (h : ∀ t ∈ tokens text, t.kind ≠ .garbage) :
    ∀ c ∈ text.toList, c.utf8Size = 1 := by
  intro c hc
  rw [← flatMap_tokens, List.mem_flatMap] at hc
  obtain ⟨t, ht, hc⟩ := hc
  exact utf8Size_of_spells (spells_of_clean h ht) c hc

theorem clean_of_lex (e : lex text = some ps) (h : ∀ p ∈ ps, p.kind ≠ .garbage) :
    ∀ t ∈ tokens text, t.kind ≠ .garbage := by
  intro t ht
  obtain ⟨p, hp, hnarrowed⟩ := forall₂_exists_right (forall₂_of_lex e) ht
  obtain ⟨-, rfl⟩ := Token.narrowed_eq_some hnarrowed
  exact h _ hp

/-- **The pieces that the lexer finds all have a text**, if there is no garbage among them. -/
theorem lexed_of_clean (e : lex text = some ps) (h : ∀ p ∈ ps, p.kind ≠ .garbage) :
    lexed text = some ((ps.filter (!·.kind.isTrivia)).map (Piece.filled text.toList)) := by
  obtain ⟨hbounds, -⟩ := ordered_lex e
  have hascii := utf8Size_of_tokens (clean_of_lex e h)
  rw [lexed, e, Option.bind_some, mapM_eq_some, List.forall₂_map_right_iff, List.forall₂_same]
  intro p hp
  obtain ⟨hle, hstop⟩ := hbounds p (List.mem_filter.1 hp).1
  rw [byteLength_of_ascii hascii] at hstop
  refine Piece.token?_eq_some.2 ⟨?_, rfl⟩
  rw [slice_of_ascii hascii hle hstop]
  exact Option.some_ne_none _

/-! ## 5. A name behind blanks -/

variable {s : List Char}

theorem isBlank_of_mem_replicate {n : Nat} {c : Char} (hc : c ∈ List.replicate n ' ') :
    isBlank c = true := by
  rw [List.eq_of_mem_replicate hc]
  rfl

theorem utf8Size_of_behind_blanks (hs : isTypeName s = true) (n : Nat) :
    ∀ c ∈ List.replicate n ' ' ++ s, c.utf8Size = 1 :=
  List.forall_mem_append.2 ⟨fun _ hc => utf8Size_of_isBlank (isBlank_of_mem_replicate hc),
    utf8Size_of_spells (k := .typeName) hs⟩

theorem longestMatch_blanks (hs : isTypeName s = true) (n : Nat) :
    longestMatch (List.replicate (n + 1) ' ' ++ s) =
      some (.blank, (List.replicate (n + 1) ' ').length) := by
  obtain ⟨c, d, ds, rfl, hc, -⟩ := isTypeName_iff.1 hs
  have hletter : ¬ isBlank c = true := by
    intro h
    rw [isLetter_of_isBlank h] at hc
    cases hc
  rw [List.replicate_succ, List.cons_append, longestMatch_blank rfl,
    List.takeWhile_append_of_pos fun x hx => isBlank_of_mem_replicate hx,
    List.takeWhile_cons_of_neg hletter, List.append_nil, List.length_cons]

/-- The blanks are a piece at the start, and the name is one at its narrowed place. -/
theorem lex_behind_blanks (hs : isTypeName s = true) (n : Nat) :
    ∃ blanks : List Piece, blanks.filter (!·.kind.isTrivia) = [] ∧
      lex (String.ofList (List.replicate n ' ' ++ s)) =
        (range n (n + s.length)).map fun span => blanks ++ [⟨.typeName, span⟩] := by
  have hname : lexemes s = [(.typeName, s)] := by
    have h : lexemes (s ++ []) = (.typeName, s) :: lexemes [] :=
      lexemes_append (by rw [List.append_nil]; exact eq_of_spells_longestMatch hs)
    rwa [List.append_nil] at h
  have hlength : byteLength s = s.length :=
    byteLength_of_ascii (utf8Size_of_spells (k := .typeName) hs)
  cases n with
  | zero =>
      refine ⟨[], rfl, ?_⟩
      rw [lex_eq, tokens, String.toList_ofList, List.replicate_zero, List.nil_append, hname, place,
        place, List.mapM_cons, narrowed_lexeme, hlength]
      cases range 0 (0 + s.length) <;> rfl
  | succ n =>
      have hblanks : byteLength (List.replicate (n + 1) ' ') = n + 1 := by
        rw [byteLength_of_ascii fun _ hc => utf8Size_of_isBlank (isBlank_of_mem_replicate hc),
          List.length_replicate]
      refine ⟨[⟨.blank, ⟨0, narrow (n + 1)⟩⟩], rfl, ?_⟩
      have hstart : range 0 (n + 1) = some ⟨0, narrow (n + 1)⟩ := range_eq (Nat.zero_le _)
      rw [lex_eq, tokens, String.toList_ofList, lexemes_append (longestMatch_blanks hs n), hname,
        place, place, place, List.mapM_cons, List.mapM_cons, narrowed_lexeme, narrowed_lexeme,
        hblanks, hlength, Nat.zero_add, hstart]
      cases range (n + 1) (n + 1 + s.length) <;> rfl

/-- **A name behind blanks is read as what the source has at the narrowed range of the name**, and
    not at all if that range would end before it starts. -/
theorem ofText_behind_blanks (hs : isTypeName s = true) (n : Nat) :
    Ty.ofText (String.ofList (List.replicate n ' ' ++ s)) =
      (range n (n + s.length)).map fun span =>
        .ok (.app ⟨String.ofList (((List.replicate n ' ' ++ s).drop span.start).take
          (span.stop - span.start)), []⟩) := by
  have hascii := utf8Size_of_behind_blanks hs n
  obtain ⟨blanks, hblanks, hlex⟩ := lex_behind_blanks hs n
  cases hrange : range n (n + s.length) with
  | none =>
      rw [hrange] at hlex
      rw [Ty.ofText, hlex]
      rfl
  | some span =>
      rw [hrange] at hlex
      have hmem : (⟨.typeName, span⟩ : Piece) ∈ blanks ++ [⟨.typeName, span⟩] :=
        List.mem_append_right _ (List.mem_singleton_self _)
      obtain ⟨hle, hstop⟩ := (ordered_lex hlex).1 _ hmem
      rw [String.toList_ofList, byteLength_of_ascii hascii] at hstop
      have hlexed : lexed (String.ofList (List.replicate n ' ' ++ s)) =
          some [⟨.typeName, span.start, String.ofList (((List.replicate n ' ' ++ s).drop
            span.start).take (span.stop - span.start))⟩] := by
        have hfilter : (blanks ++ [(⟨.typeName, span⟩ : Piece)]).filter (!·.kind.isTrivia) =
            [⟨.typeName, span⟩] := by
          rw [List.filter_append, hblanks]
          rfl
        have htoken : Piece.token? (List.replicate n ' ' ++ s) ⟨.typeName, span⟩ =
            some ⟨.typeName, span.start, String.ofList (((List.replicate n ' ' ++ s).drop
              span.start).take (span.stop - span.start))⟩ := by
          rw [Piece.token?, slice_of_ascii hascii hle hstop, Option.map_some]
        rw [lexed, hlex, Option.map_some, Option.bind_some, hfilter, String.toList_ofList,
          List.mapM_cons, htoken]
        rfl
      rw [ofText_of_lexed hlexed]
      rfl

/-- A name of 4 GiB is read as the empty name. -/
theorem ofText_long_name (hs : isTypeName s = true) (hl : s.length = UInt32.size) :
    Ty.ofText (String.ofList s) = some (.ok (.app ⟨"", []⟩)) := by
  have hrange : range 0 UInt32.size = some ⟨0, 0⟩ := by decide
  have e := ofText_behind_blanks hs 0
  rwa [List.replicate_zero, List.nil_append, Nat.zero_add, hl, hrange] at e

/-- A name behind blanks of 4 GiB is read as blanks. -/
theorem ofText_far_name (hs : isTypeName s = true) (hl : s.length < UInt32.size) :
    Ty.ofText (String.ofList (List.replicate UInt32.size ' ' ++ s)) =
      some (.ok (.app ⟨String.ofList (List.replicate s.length ' '), []⟩)) := by
  have hstart : narrow UInt32.size = 0 := Nat.mod_self _
  have hstop : narrow (UInt32.size + s.length) = s.length := by
    rw [narrow, Nat.add_mod_left, Nat.mod_eq_of_lt hl]
  have hrange : range UInt32.size (UInt32.size + s.length) = some ⟨0, s.length⟩ := by
    rw [range_eq (by rw [hstart]; exact Nat.zero_le _), hstart, hstop]
  rw [ofText_behind_blanks hs, hrange, Option.map_some, List.drop_zero, Nat.sub_zero,
    List.take_append_of_le_length (by rw [List.length_replicate]; exact Nat.le_of_lt hl),
    List.take_replicate, Nat.min_eq_left (Nat.le_of_lt hl)]

/-- A name that starts before 4 GiB and ends there or behind is not read. -/
theorem ofText_torn_name (hs : isTypeName s = true) {n : Nat} (hn : n < UInt32.size)
    (hl : s.length < UInt32.size) (h : UInt32.size ≤ n + s.length) :
    Ty.ofText (String.ofList (List.replicate n ' ' ++ s)) = none := by
  have hstop : narrow (n + s.length) = n + s.length - UInt32.size := by
    rw [narrow, Nat.mod_eq_sub_mod h, Nat.mod_eq_of_lt (by omega)]
  have hrange : range n (n + s.length) = none := by
    rw [range, between, narrow_of_lt hn, hstop, if_neg (by omega)]
  rw [ofText_behind_blanks hs, hrange, Option.map_none]

end Lineage.Expr

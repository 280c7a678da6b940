import Lineage.Proofs.Wrapping

/-!
# Where faults lie

A rejected text has one fault, and its range can be marked in the text:

* it is the range of a token, or it reaches from a type name to the bracket that closes its
  arguments, or it is the empty one at the end (`IsFaultSpan`);
* a remark on it points at a bracket that was opened before.

What a reader takes has matching brackets, so the range of an application ends with the bracket that
closes it (`Placed`). Tokens are laid out from left to right (`LaidOut`), so an open bracket stands
before the fault it explains.
-/

namespace Lineage.Expr

open Lineage.Text

variable {α β : Type} {stop : Nat} {ts before rest : List Token} {t : Token}

/-! ## 1. Ranges -/

/-- Tokens whose brackets match each other. -/
inductive Balanced : List Token → Prop
  | nil : Balanced []
  | token {t : Token} {ts : List Token} (ho : t.kind ≠ .openBracket) (hc : t.kind ≠ .closeBracket)
      (h : Balanced ts) : Balanced (t :: ts)
  | pair {o c : Token} {inside ts : List Token} (ho : o.kind = .openBracket)
      (hi : Balanced inside) (hc : c.kind = .closeBracket) (h : Balanced ts) :
      Balanced (o :: (inside ++ c :: ts))

theorem Balanced.append {us : List Token} (h : Balanced ts) (h' : Balanced us) :
    Balanced (ts ++ us) := by
  induction h with
  | nil => exact h'
  | token ho hc _ ih => exact .token ho hc ih
  | pair ho hi hc _ _ ih =>
      rw [List.cons_append, List.append_assoc, List.cons_append]
      exact .pair ho hi hc ih

theorem balanced_singleton {k : Kind} (ht : t.kind = k) (ho : k ≠ .openBracket)
    (hc : k ≠ .closeBracket) : Balanced [t] :=
  .token (ht ▸ ho) (ht ▸ hc) .nil

/-- From a type name to the bracket that closes its arguments. -/
def IsApplicationSpan (ts : List Token) (s : Span) : Prop :=
  ∃ before name opened inside closed after,
    ts = before ++ name :: opened :: (inside ++ closed :: after) ∧ name.kind = .typeName ∧
    opened.kind = .openBracket ∧ Balanced inside ∧ closed.kind = .closeBracket ∧
    s = ⟨name.start, closed.stop⟩

/-- The range of an atom: that of one token, or of an application with arguments. -/
def IsAtomSpan (ts : List Token) (s : Span) : Prop :=
  (∃ t ∈ ts, s = t.span) ∨ IsApplicationSpan ts s

/-- An item covers an atom of the tokens. -/
def Item.IsPlaced (ts : List Token) (item : Item) : Prop := IsAtomSpan ts item.span

/-- The ranges at which faults are found in a text of `stop` bytes. -/
def IsFaultSpan (stop : Nat) (ts : List Token) (s : Span) : Prop :=
  IsAtomSpan ts s ∨ s = .empty stop

/-- Tokens from left to right, none of them empty, up to the end of the text. -/
structure LaidOut (stop : Nat) (ts : List Token) : Prop where
  ordered : ts.Pairwise fun t u => t.stop ≤ u.start
  nonempty : ∀ t ∈ ts, t.start < t.stop
  within : ∀ t ∈ ts, t.stop ≤ stop

theorem LaidOut.stop_le (L : LaidOut stop ts) (hts : ts = before ++ t :: rest) {u : Token}
    (hu : u ∈ rest) : t.stop ≤ u.start := by
  have hord := L.ordered
  rw [hts] at hord
  exact (List.pairwise_cons.1 (List.pairwise_append.1 hord).2.1).1 u hu

/-- A fault at a range of the text. What it points back to is an open bracket before it. -/
structure Located (stop : Nat) (ts : List Token) (f : Fault) : Prop where
  span : IsFaultSpan stop ts f.span
  note : ∀ note, f.cause.note = some note →
    ∃ o ∈ ts, o.kind = .openBracket ∧ note.span = o.span ∧ o.stop ≤ f.span.start

theorem located_of_span {span : Span} {cause : Cause} (hs : IsFaultSpan stop ts span)
    (hc : cause.note = none) : Located stop ts ⟨span, cause⟩ := by
  refine ⟨hs, fun note hn => ?_⟩
  rw [hc] at hn
  cases hn

theorem located_of_token {cause : Cause} (ht : t ∈ ts) (hc : cause.note = none) :
    Located stop ts ⟨t.span, cause⟩ :=
  located_of_span (.inl (.inl ⟨t, ht, rfl⟩)) hc

theorem located_of_item {item : Item} {cause : Cause} (hi : item.IsPlaced ts)
    (hc : cause.note = none) : Located stop ts ⟨item.span, cause⟩ :=
  located_of_span (.inl hi) hc

theorem located_of_stop {cause : Cause} (hc : cause.note = none) :
    Located stop ts ⟨.empty stop, cause⟩ :=
  located_of_span (.inr rfl) hc

/-! ## 2. What readers take -/

/-- What comes of reading behind `before`: something good, from tokens with matching brackets, or a
    fault at a range of the text. -/
inductive Placed (stop : Nat) (ts before : List Token) (good : α → Prop) :
    Except Fault (α × List Token) → Prop
  | ok {a : α} {used rest : List Token} (hts : ts = before ++ (used ++ rest))
      (hb : Balanced used) (ha : good a) : Placed stop ts before good (.ok (a, rest))
  | error {f : Fault} (hf : Located stop ts f) : Placed stop ts before good (.error f)

theorem Placed.shift {good : α → Prop} {used : List Token} {x : Except Fault (α × List Token)}
    (hb : Balanced used) (h : Placed stop ts (before ++ used) good x) :
    Placed stop ts before good x := by
  cases h with
  | ok hts hb' ha => exact .ok (by rw [hts]; simp only [List.append_assoc]) (hb.append hb') ha
  | error hf => exact .error hf

theorem Placed.bind {good : α → Prop} {good' : β → Prop} {x : Except Fault (α × List Token)}
    {g : α × List Token → Except Fault (β × List Token)} (h : Placed stop ts before good x)
    (hg : ∀ (a : α) (before rest : List Token), ts = before ++ rest → good a →
      Placed stop ts before good' (g (a, rest))) : Placed stop ts before good' (x >>= g) := by
  cases h with
  | ok hts hb ha =>
      rw [← List.append_assoc] at hts
      exact (hg _ _ _ hts ha).shift hb
  | error hf => exact .error hf

/-- A token that is no bracket is taken first. -/
theorem Placed.cons {good : α → Prop} {x : Except Fault (α × List Token)} {k : Kind}
    (ht : t.kind = k) (ho : k ≠ .openBracket) (hc : k ≠ .closeBracket)
    (h : Placed stop ts (before ++ [t]) good x) : Placed stop ts before good x :=
  h.shift (balanced_singleton ht ho hc)

theorem placed_done {good : α → Prop} {a : α} (hts : ts = before ++ rest) (ha : good a) :
    Placed stop ts before good (.ok (a, rest)) :=
  .ok (show ts = before ++ ([] ++ rest) from hts) .nil ha

/-- A check takes no token. -/
theorem placed_check {good : β → Prop} {x : Except Fault α}
    {g : α → Except Fault (β × List Token)} (hx : ∀ f, x = .error f → Located stop ts f)
    (hg : ∀ a, Placed stop ts before good (g a)) : Placed stop ts before good (x >>= g) := by
  cases x with
  | ok a => exact hg a
  | error f => exact .error (hx f rfl)

/-! ### Checks -/

section Checks

variable {place : Place} {operator : Kind} {first : Item} {items : List Item} {f : Fault}
  (hitems : ∀ item ∈ first :: items, item.IsPlaced ts)
include hitems

theorem located_head (e : head place operator first items = .error f) : Located stop ts f := by
  unfold head at e
  dsimp only at e
  split at e
  case h_1 =>
    cases e
    exact located_of_item (hitems _ (List.getLast_mem _)) rfl
  case h_2 =>
    split at e
    case h_1 extra more hfront =>
      cases e
      have hextra : extra ∈ (first :: items).dropLast := by
        rw [hfront]
        exact List.mem_cons_self
      exact located_of_item (hitems extra (List.dropLast_subset _ hextra)) rfl
    case h_2 => cases e

theorem located_middle (e : middle first items = .error f) : Located stop ts f := by
  unfold middle at e
  split at e
  case h_1 extra more =>
    cases e
    exact located_of_item (hitems extra (by simp)) rfl
  case h_2 =>
    split at e
    case h_1 => cases e
    case h_2 =>
      cases e
      exact located_of_item (hitems first List.mem_cons_self) rfl

theorem located_unbounded (e : unbounded place first items = .error f) : Located stop ts f := by
  unfold unbounded at e
  split at e
  case h_1 extra more =>
    cases e
    exact located_of_item (hitems extra (by simp)) rfl
  case h_2 => cases e

end Checks

/-! ### One level of brackets -/

section Level

variable {inner : Reader (List Ty)} (L : LaidOut stop ts)
include L

/-- An open bracket that is not closed stands before the token found in place of the closing one. -/
theorem located_unclosed {opened : Token} {used : List Token}
    (hts : ts = before ++ opened :: (used ++ rest)) (ho : opened.kind = .openBracket)
    (found : Option Kind) : Located stop ts ⟨nextSpan stop rest, .unclosed found opened.span⟩ := by
  have hmem : opened ∈ ts := by simp [hts]
  have hspan : IsFaultSpan stop ts (nextSpan stop rest) ∧
      opened.stop ≤ (nextSpan stop rest).start := by
    cases rest with
    | nil => exact ⟨.inr rfl, L.within opened hmem⟩
    | cons t rest =>
        exact ⟨.inl (.inl ⟨t, by simp [hts], rfl⟩), L.stop_le hts (by simp)⟩
  refine ⟨hspan.1, fun note hn => ?_⟩
  cases hn
  exact ⟨opened, hmem, ho, rfl, hspan.2⟩

theorem placed_closing {name opened : Token} {used : List Token} {args : List Ty}
    (hts : ts = before ++ name :: opened :: (used ++ rest)) (hn : name.kind = .typeName)
    (ho : opened.kind = .openBracket) (hb : Balanced used) :
    Placed stop ts before (Item.IsPlaced ts) (closing stop name opened args rest) := by
  have hts' := behind_token hts
  cases rest with
  | nil => exact .error (located_unclosed L hts' ho none)
  | cons c rest =>
      rw [closing]
      by_cases hc : c.kind = .closeBracket
      · rw [if_pos hc]
        have htake : ts = before ++ ((name :: opened :: (used ++ [c])) ++ rest) := by
          rw [hts]
          simp
        refine .ok htake ?_ (.inr ⟨before, name, opened, used, c, rest, hts, hn, ho, hb, hc, rfl⟩)
        exact .token (by simp [hn]) (by simp [hn]) (.pair ho hb hc .nil)
      · rw [if_neg hc]
        exact .error (located_unclosed L hts' ho (some c.kind))

variable (H : ∀ before rest : List Token, ts = before ++ rest →
  Placed stop ts before (fun _ => True) (inner rest))
include H

theorem placed_application (hts : ts = before ++ t :: rest) (ht : t.kind = .typeName) :
    Placed stop ts before (Item.IsPlaced ts) (application stop inner t rest) := by
  have hname : Placed stop ts before (Item.IsPlaced ts)
      (.ok (⟨.app ⟨t.text, []⟩, t.span⟩, rest)) :=
    .ok (show ts = before ++ ([t] ++ rest) from hts)
      (balanced_singleton ht (by decide) (by decide)) (.inl ⟨t, by simp [hts], rfl⟩)
  cases rest with
  | nil => exact hname
  | cons o rest =>
      rw [application]
      by_cases ho : o.kind = .openBracket
      · rw [if_pos ho]
        have hinner := H _ rest (behind_token (behind_token hts))
        generalize inner rest = x at hinner
        cases hinner with
        | error hf => exact .error hf
        | ok hts' hb _ =>
            rw [List.append_assoc, List.append_assoc] at hts'
            exact placed_closing L hts' ht ho hb
      · rw [if_neg ho]
        exact hname

theorem placed_atom (hts : ts = before ++ rest) :
    Placed stop ts before (Item.IsPlaced ts) (atom stop inner rest) := by
  cases rest with
  | nil => exact .error (located_of_stop rfl)
  | cons t rest =>
      have hmem : t ∈ ts := by simp [hts]
      rw [atom]
      split
      case h_1 ht =>
        exact .ok (show ts = before ++ ([t] ++ rest) from hts)
          (balanced_singleton ht (by decide) (by decide)) (.inl ⟨t, hmem, rfl⟩)
      case h_2 ht => exact placed_application L H hts ht
      case h_3 => exact .error (located_of_token hmem rfl)
      case h_4 => exact .error (located_of_token hmem rfl)

theorem placed_moreAtoms (n : Nat) (hts : ts = before ++ rest) :
    Placed stop ts before (fun items => ∀ item ∈ items, item.IsPlaced ts)
      (moreAtoms stop inner n rest) := by
  induction n generalizing before rest with
  | zero => exact placed_done hts (List.forall_mem_nil _)
  | succ n ih =>
      cases rest with
      | nil => exact placed_done hts (List.forall_mem_nil _)
      | cons t rest =>
          rw [moreAtoms]
          by_cases ht : t.kind = .comma
          · rw [if_pos ht]
            refine .cons ht (by decide) (by decide) ?_
            refine (placed_atom L H (behind_token hts)).bind ?_
            intro item before rest hts hitem
            refine (ih hts).bind ?_
            intro items before rest hts hitems
            exact placed_done hts (List.forall_mem_cons.2 ⟨hitem, hitems⟩)
          · rw [if_neg ht]
            exact placed_done hts (List.forall_mem_nil _)

theorem placed_atoms (hts : ts = before ++ rest) :
    Placed stop ts before (fun x => ∀ item ∈ x.1 :: x.2, item.IsPlaced ts)
      (atoms stop inner rest) := by
  refine (placed_atom L H hts).bind ?_
  intro item before rest hts hitem
  refine (placed_moreAtoms L H _ hts).bind ?_
  intro items before rest hts hitems
  exact placed_done hts (List.forall_mem_cons.2 ⟨hitem, hitems⟩)

variable {place : Place} {first : Item} {items : List Item}
  (hitems : ∀ item ∈ first :: items, item.IsPlaced ts)
include hitems

theorem placed_boundedAbove (hts : ts = before ++ rest) :
    Placed stop ts before (fun _ => True)
      (boundedAbove stop inner place t first items rest) := by
  refine (placed_atoms L H hts).bind ?_
  rintro ⟨second, seconds⟩ before rest hts hseconds
  have hsingle : Placed stop ts before (fun _ => True)
      (head place t.kind first items >>= fun x =>
        .ok (types x.1 ++ [.var (.bounded x.2 [] (types (second :: seconds)))], rest)) :=
    placed_check (fun _ => located_head hitems) fun _ => placed_done hts trivial
  cases rest with
  | nil => exact hsingle
  | cons u rest =>
      dsimp only
      by_cases hu : u.kind = .subtype
      · rw [if_pos hu]
        refine placed_check (fun _ => located_middle hseconds) fun name => ?_
        refine .cons hu (by decide) (by decide) ?_
        refine (placed_atoms L H (behind_token hts)).bind ?_
        rintro ⟨upper, uppers⟩ before rest hts -
        exact placed_done hts trivial
      · rw [if_neg hu]
        exact hsingle

theorem placed_boundedBelow (hts : ts = before ++ rest) :
    Placed stop ts before (fun _ => True)
      (boundedBelow stop inner place t first items rest) := by
  refine placed_check (fun _ => located_head hitems) ?_
  rintro ⟨front, name⟩
  refine (placed_atoms L H hts).bind ?_
  rintro ⟨lower, lowers⟩ before rest hts -
  exact placed_done hts trivial

omit hitems in
theorem placed_typeList (place : Place) (hts : ts = before ++ rest) :
    Placed stop ts before (fun _ => True) (typeList stop inner place rest) := by
  refine (placed_atoms L H hts).bind ?_
  rintro ⟨first, items⟩ before rest hts hitems
  have hplain : Placed stop ts before (fun _ => True)
      (unbounded place first items >>= fun tys => .ok (tys, rest)) :=
    placed_check (fun _ => located_unbounded hitems) fun _ => placed_done hts trivial
  cases rest with
  | nil => exact hplain
  | cons t rest =>
      have hts' := behind_token hts
      dsimp only
      split
      case h_1 ht => exact .cons ht (by decide) (by decide) (placed_boundedBelow L H hitems hts')
      case h_2 ht => exact .cons ht (by decide) (by decide) (placed_boundedAbove L H hitems hts')
      case h_3 => exact hplain

end Level

theorem placed_arguments (L : LaidOut stop ts) (depth : Nat) (hts : ts = before ++ rest) :
    Placed stop ts before (fun _ => True) (arguments stop depth rest) := by
  induction depth generalizing before rest with
  | zero =>
      cases rest with
      | nil => exact .error (located_of_stop rfl)
      | cons t rest => exact .error (located_of_token (by simp [hts]) rfl)
  | succ depth ih => exact placed_typeList L (fun _ _ => ih) .brackets hts

/-- **Every fault lies at a range of the text.** -/
theorem located_single (L : LaidOut stop ts) {f : Fault} (e : single stop ts = .error f) :
    Located stop ts f := by
  have hlist := placed_typeList L (fun _ _ => placed_arguments L maxDepth) .whole
    (List.nil_append ts).symm
  rw [single] at e
  generalize typeList _ _ _ _ = x at hlist e
  cases hlist with
  | error hf =>
      cases e
      exact hf
  | @ok tys used rest hts _ _ =>
      cases rest with
      | cons t rest =>
          cases e
          exact located_of_token (by simp [hts]) rfl
      | nil =>
          rcases tys with _ | ⟨ty, _ | ⟨extra, more⟩⟩ <;> cases e
          · exact located_of_stop rfl
          · exact located_of_stop rfl

/-! ## 3. Tokens from left to right -/

theorem laidOut_meaningful (text : String) :
    LaidOut (byteLength text.toList) (meaningful text) := by
  have P := partition_tokens text
  have hsub : ∀ t ∈ meaningful text, t ∈ tokens text := fun t ht => (List.mem_filter.1 ht).1
  exact ⟨P.contiguous.ordered.filter _, fun t ht => P.nonempty t (hsub t ht),
    fun t ht => (P.contiguous.bounds.2 t (hsub t ht)).2⟩

/-! ## 4. Marking a fault -/

/-- A range that can be cut out of a text. -/
structure FitsIn (cs : List Char) (s : Span) : Prop where
  ordered : s.start ≤ s.stop
  within : s.stop ≤ byteLength cs
  start : IsBoundary cs s.start
  stop : IsBoundary cs s.stop

theorem fitsIn_of_lt {cs : List Char} {s : Span} (hlt : s.start < s.stop)
    (hle : s.stop ≤ byteLength cs) (h : IsBoundary cs s.start) (h' : IsBoundary cs s.stop) :
    FitsIn cs (s.visible (byteLength cs)) := by
  rw [Span.visible, if_neg (Nat.ne_of_lt hlt)]
  exact ⟨Nat.le_of_lt hlt, hle, h, h'⟩

theorem fitsIn_stop (cs : List Char) :
    FitsIn cs ((Span.empty (byteLength cs)).visible (byteLength cs)) := by
  have hend : IsBoundary cs (byteLength cs) := ⟨cs, [], (List.append_nil cs).symm, rfl⟩
  have hvisible : (Span.empty (byteLength cs)).visible (byteLength cs) =
      ⟨byteLength cs, byteLength cs⟩ := by
    simp [Span.visible, Span.empty]
  rw [hvisible]
  exact ⟨Nat.le_refl _, Nat.le_refl _, hend, hend⟩

theorem boundaries_of_mem {text : String} (ht : t ∈ meaningful text) :
    IsBoundary text.toList t.start ∧ IsBoundary text.toList t.stop :=
  (partition_tokens text).boundaries t (List.mem_filter.1 ht).1

theorem fitsIn_token {text : String} (ht : t ∈ meaningful text) :
    FitsIn text.toList (t.span.visible (byteLength text.toList)) := by
  have L := laidOut_meaningful text
  obtain ⟨hstart, hstop⟩ := boundaries_of_mem ht
  exact fitsIn_of_lt (L.nonempty t ht) (L.within t ht) hstart hstop

/-- Where a fault is found, something can be marked. -/
theorem fitsIn_of_isFaultSpan {text : String} {s : Span}
    (h : IsFaultSpan (byteLength text.toList) (meaningful text) s) :
    FitsIn text.toList (s.visible (byteLength text.toList)) := by
  obtain (⟨t, ht, rfl⟩ | h) | rfl := h
  · exact fitsIn_token ht
  · obtain ⟨before, name, opened, inside, closed, after, hts, -, -, -, -, rfl⟩ := h
    have L := laidOut_meaningful text
    have hname : name ∈ meaningful text := by simp [hts]
    have hclosed : closed ∈ meaningful text := by simp [hts]
    have hlt : name.start < closed.stop :=
      calc name.start < name.stop := L.nonempty name hname
        _ ≤ closed.start := L.stop_le hts (by simp)
        _ < closed.stop := L.nonempty closed hclosed
    exact fitsIn_of_lt hlt (L.within closed hclosed) (boundaries_of_mem hname).1
      (boundaries_of_mem hclosed).2
  · exact fitsIn_stop _

/-- **A text is rejected once, at a place that can be marked.** Reading it with a cursor comes to an
    answer, so no token is taken behind the last one, and in a text shorter than 4 GiB the answer is
    what is read. If that is a rejection, one fault was found. It lies at a token with a meaning,
    from a type name to the bracket that closes its arguments, or at the end of the text. What it
    refers to is a bracket opened before it. Both ranges, made visible, can be cut out of the
    text. -/
theorem rejection_located (text : String) :
    walk text = some (Ty.parse text) ∧
    (byteLength text.toList < UInt32.size → Ty.ofText text = some (Ty.parse text)) ∧
    ∀ report, Ty.parse text = .error report → ∃ d, report = ⟨text, [d]⟩ ∧
      IsFaultSpan (byteLength text.toList) (meaningful text) d.span ∧
      FitsIn text.toList (d.span.visible (byteLength text.toList)) ∧
      ∀ note, d.related = some note →
        (∃ o ∈ meaningful text, o.kind = .openBracket ∧ note.span = o.span ∧
          note.span.stop ≤ d.span.start) ∧
        FitsIn text.toList (note.span.visible (byteLength text.toList)) := by
  refine ⟨walk_eq text, ofText_of_short, fun report e => ?_⟩
  rw [Ty.parse, Ty.read] at e
  cases hread : single (byteLength text.toList) (meaningful text) with
  | ok ty =>
      rw [hread] at e
      cases e
  | error f =>
      rw [hread] at e
      cases e
      have hf := located_single (laidOut_meaningful text) hread
      refine ⟨f.diagnostic, rfl, hf.span, fitsIn_of_isFaultSpan hf.span, fun note hn => ?_⟩
      obtain ⟨o, ho, hk, hspan, hle⟩ := hf.note note hn
      refine ⟨⟨o, ho, hk, hspan, ?_⟩, ?_⟩
      · rw [hspan]
        exact hle
      · rw [hspan]
        exact fitsIn_token ho

/-- A bracket that garbage follows in place of the closing one, and nested applications in place of
    a variable: what is marked is the garbage, and the outer application up to its own bracket. -/
theorem unclosed_nested_located :
    (∃ d, Ty.ofText "list[int é" = some (.error ⟨"list[int é", [d]⟩) ∧ d.span = ⟨9, 11⟩ ∧
      (d.related.map Note.span) = some ⟨4, 5⟩ ∧
      IsFaultSpan 11 (meaningful "list[int é") d.span ∧
      FitsIn "list[int é".toList (d.span.visible 11)) ∧
    ∃ d, Ty.ofText "list[list[t]] <: k" = some (.error ⟨"list[list[t]] <: k", [d]⟩) ∧
      d.span = ⟨0, 13⟩ ∧ IsFaultSpan 18 (meaningful "list[list[t]] <: k") d.span ∧
      FitsIn "list[list[t]] <: k".toList (d.span.visible 18) := by
  constructor
  · obtain ⟨-, hread, hlocated⟩ := rejection_located "list[int é"
    obtain ⟨d, hd, hspan, hfit, -⟩ := hlocated ⟨_, [⟨⟨9, 11⟩,
      "expected `]`, found invalid characters", some ⟨⟨4, 5⟩, "`[` opened here"⟩⟩]⟩ rfl
    cases hd
    exact ⟨_, hread (by decide), rfl, rfl, hspan, hfit⟩
  · obtain ⟨-, hread, hlocated⟩ := rejection_located "list[list[t]] <: k"
    obtain ⟨d, hd, hspan, hfit, -⟩ := hlocated ⟨_, [⟨⟨0, 13⟩,
      "expected a generic identifier before `<:`", none⟩]⟩ rfl
    cases hd
    exact ⟨_, hread (by decide), rfl, hspan, hfit⟩

end Lineage.Expr

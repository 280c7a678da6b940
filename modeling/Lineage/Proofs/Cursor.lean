import Lineage.Proofs.Partition
import Lineage.Proofs.Reading

/-!
# Walks read what the reader reads

A walk along pieces is compared with the reader of lists of tokens. The tokens that a course shows
(`Course.Shows`) have the classes and ranges of its pieces, and what can be cut out of the source is
their text. A walk agrees with the reader (`Agrees`): it comes to the same result and stands before
the tokens that are left over, or it is given up with the fault of the reader as the only one. It
gets stuck only if some piece can not be cut out of the source.

The tokens of a text are what is written at their places, so a walk along them never gets stuck
(`walk_eq`).
-/

namespace Lineage.Expr

open Lineage.Text

/-! ## 1. Courses and tokens -/

/-- The tokens that the pieces of a course stand for. -/
structure Course.Shows (s : Course) (ts : List Token) : Prop where
  pieces : s.pieces = ts.map Token.piece
  text : ∀ t ∈ ts, ∀ cs, slice s.source t.start t.stop = some cs → t.text = String.ofList cs
  ordered : ts.Pairwise fun t u => t.stop ≤ u.start

/-- Some piece can not be cut out of the source. -/
def Course.Torn (s : Course) : Prop :=
  ∃ p ∈ s.pieces, slice s.source p.span.start p.span.stop = none

/-- The end of a walk from the place `n` on agrees with what a reader gives: it stands before the
    tokens that are left over and has found no fault, or it was given up with the fault of the
    reader. -/
inductive Agrees {α : Type} (s : Course) (ts : List Token) (depth n : Nat) :
    Walked α → Except Fault (α × List Token) → Prop
  | done {a : α} {before rest : List Token} (hts : ts = before ++ rest) (hn : n ≤ before.length) :
      Agrees s ts depth n (.done a ⟨before.length, depth, []⟩) (.ok (a, rest))
  | abandoned {c : Cursor} {f : Fault} (hc : c.faults = [f]) :
      Agrees s ts depth n (.abandoned c) (.error f)
  | stuck {x : Except Fault (α × List Token)} (h : s.Torn) : Agrees s ts depth n .stuck x

theorem Agrees.mono {α : Type} {s : Course} {ts : List Token} {depth n m : Nat} {w : Walked α}
    {x : Except Fault (α × List Token)} (hnm : n ≤ m) (h : Agrees s ts depth m w x) :
    Agrees s ts depth n w x := by
  cases h with
  | done hts hm => exact .done hts (Nat.le_trans hnm hm)
  | abandoned hc => exact .abandoned hc
  | stuck h => exact .stuck h

/-- The place behind a token. -/
theorem behind_token {ts before rest : List Token} {t : Token} (hts : ts = before ++ t :: rest) :
    ts = (before ++ [t]) ++ rest :=
  hts.trans (List.append_cons before t rest)

theorem getElem?_length {ts before rest : List Token} (hts : ts = before ++ rest) :
    ts[before.length]? = rest.head? := by
  rw [hts, List.getElem?_append_right (Nat.le_refl _), Nat.sub_self, List.head?_eq_getElem?]

/-- A token starts before a later one ends. -/
theorem Course.Shows.start_le {s : Course} {ts before rest before' rest' : List Token}
    {t u : Token} (S : s.Shows ts) (hts : ts = before ++ t :: rest)
    (hts' : ts = before' ++ u :: rest') (hlt : before.length < before'.length) :
    t.start ≤ u.stop := by
  obtain ⟨hi, ht⟩ := List.getElem?_eq_some_iff.1 (getElem?_length hts)
  obtain ⟨hj, hu⟩ := List.getElem?_eq_some_iff.1 (getElem?_length hts')
  have hle := List.pairwise_iff_getElem.1 S.ordered _ _ hi hj hlt
  rw [ht, hu] at hle
  calc t.start ≤ t.stop := t.start_le_stop
    _ ≤ u.start := hle
    _ ≤ u.stop := u.start_le_stop

/-! ## 2. Single steps -/

namespace Walk

section Agrees

variable {α β : Type} {s : Course} {depth n : Nat} {ts before rest : List Token} {c : Cursor}
  {faults : List Fault} {t : Token}

theorem run_bind (w : Walk α) (f : α → Walk β) (c : Cursor) :
    (w >>= f).run c = (w.run c).andThen f :=
  rfl

section Steps

variable (S : s.Shows ts)
include S

theorem run_next_bind (hts : ts = before ++ rest) (f : Option Piece → Walk α) :
    (next s >>= f).run ⟨before.length, depth, faults⟩ =
      (f (rest.head?.map Token.piece)).run ⟨before.length, depth, faults⟩ := by
  have hnext : s.pieces[before.length]? = rest.head?.map Token.piece := by
    rw [S.pieces, List.getElem?_map, getElem?_length hts]
  simp only [run_bind, next, hnext, Walked.andThen]

theorem run_bump_bind (hts : ts = before ++ t :: rest) (f : Piece → Walk α) :
    (bump s >>= f).run ⟨before.length, depth, faults⟩ =
      (f t.piece).run ⟨(before ++ [t]).length, depth, faults⟩ := by
  rw [run_bind, bump, run_next_bind S hts, List.length_append]
  rfl

theorem run_nextSpan_bind (hts : ts = before ++ rest) (f : Span → Walk α) :
    (nextSpan s >>= f).run ⟨before.length, depth, faults⟩ =
      (f (Expr.nextSpan s.stop rest)).run ⟨before.length, depth, faults⟩ := by
  have hspan : ((rest.head?.map Token.piece).map Piece.span).getD (.empty s.stop) =
      Expr.nextSpan s.stop rest := by
    cases rest <;> rfl
  rw [← hspan]
  exact run_next_bind S hts fun p => f ((p.map Piece.span).getD (.empty s.stop))

/-- What can be cut out of the source is the text of the token. -/
theorem agrees_textAt {f : String → Walk α} {x : Except Fault (α × List Token)} (ht : t ∈ ts)
    (hf : Agrees s ts depth n ((f t.text).run c) x) :
    Agrees s ts depth n ((textAt s t.span >>= f).run c) x := by
  rw [run_bind, textAt]
  cases e : slice s.source t.span.start t.span.stop with
  | none =>
      have hp : t.piece ∈ s.pieces := by
        rw [S.pieces]
        exact List.mem_map_of_mem ht
      exact .stuck ⟨t.piece, hp, e⟩
  | some cs =>
      rw [S.text t ht cs e] at hf
      exact hf

end Steps

/-- What is done next agrees from every place that may have been reached. -/
theorem agrees_bind {w : Walk α} {f : α → Walk β} {x : Except Fault (α × List Token)}
    {g : α × List Token → Except Fault (β × List Token)} (hw : Agrees s ts depth n (w.run c) x)
    (hf : ∀ (a : α) (before rest : List Token), ts = before ++ rest → n ≤ before.length →
      Agrees s ts depth n ((f a).run ⟨before.length, depth, []⟩) (g (a, rest))) :
    Agrees s ts depth n ((w >>= f).run c) (x >>= g) := by
  rw [run_bind]
  generalize w.run c = r at hw
  cases hw with
  | done hts hn => exact hf _ _ _ hts hn
  | abandoned hc => exact .abandoned hc
  | stuck h => exact .stuck h

theorem agrees_reject (f : Fault) (taken depth' : Nat) :
    Agrees (α := α) s ts depth n ((reject f).run ⟨taken, depth', []⟩) (.error f) :=
  .abandoned rfl

/-- A check leaves the cursor where it is. -/
theorem agrees_check {x : Except Fault α} {f : α → Walk β}
    {g : α → Except Fault (β × List Token)}
    (hf : ∀ a, Agrees s ts depth n ((f a).run ⟨before.length, depth, []⟩) (g a)) :
    Agrees s ts depth n ((check x >>= f).run ⟨before.length, depth, []⟩) (x >>= g) := by
  cases x with
  | ok a => exact hf a
  | error e => exact .abandoned rfl

/-! ## 3. One level of brackets -/

variable {inner : Walk (List Ty)} {reader : Reader (List Ty)}

theorem le_concat (hn : n ≤ before.length) (t : Token) : n ≤ (before ++ [t]).length := by
  rw [List.length_append]
  exact Nat.le_add_right_of_le hn

theorem kind_head?_iff {k : Kind} :
    ((t :: rest).head?.map Token.piece).map Piece.kind = some k ↔ t.kind = k := by
  rw [List.head?_cons, Option.map_some, Option.map_some, Option.some_inj, Token.piece]

variable (S : s.Shows ts)
  (H : ∀ (n : Nat) (before rest : List Token), ts = before ++ rest → n ≤ before.length →
    Agrees s ts depth n ((bracketed s inner).run ⟨before.length, depth, []⟩) (reader rest))
include S H

theorem agrees_application (hts : ts = before ++ t :: rest) (hn : n ≤ before.length) :
    Agrees s ts depth n ((application s inner).run ⟨before.length, depth, []⟩)
      (Expr.application s.stop reader t rest) := by
  have ht : t ∈ ts := by simp [hts]
  have hts' := behind_token hts
  have hn' := le_concat hn t
  rw [application, run_bump_bind S hts, run_next_bind S hts']
  cases rest with
  | nil =>
      rw [if_neg (by simp)]
      exact agrees_textAt S ht (.done hts' hn')
  | cons o rest =>
      rw [Expr.application]
      by_cases ho : o.kind = .openBracket
      · rw [if_pos (kind_head?_iff.2 ho), if_pos ho, run_bump_bind S hts']
        refine Agrees.mono hn' ?_
        refine agrees_bind (H _ _ _ (behind_token hts') (le_concat (Nat.le_refl _) o)) ?_
        intro args before' rest hts'' hlt
        rw [run_next_bind S hts'']
        cases rest with
        | nil =>
            rw [if_neg (by simp), run_nextSpan_bind S hts'']
            exact agrees_reject _ _ _
        | cons c rest =>
            dsimp only [closing]
            by_cases hc : c.kind = .closeBracket
            · rw [List.length_append] at hlt
              have hle := S.start_le hts hts'' (Nat.lt_of_succ_le hlt)
              have hspan : between t.piece.span.start c.piece.span.stop =
                  some ⟨t.start, c.stop⟩ := if_pos hle
              rw [if_pos (kind_head?_iff.2 hc), if_pos hc, run_bump_bind S hts'', hspan]
              refine agrees_textAt S ht (.done (behind_token hts'') ?_)
              rw [List.length_append]
              exact le_concat hlt c
            · rw [if_neg (mt kind_head?_iff.1 hc), if_neg hc, run_nextSpan_bind S hts'']
              exact agrees_reject _ _ _
      · rw [if_neg (mt kind_head?_iff.1 ho), if_neg ho]
        exact agrees_textAt S ht (.done hts' hn')

theorem agrees_atom (hts : ts = before ++ rest) (hn : n ≤ before.length) :
    Agrees s ts depth n ((atom s inner).run ⟨before.length, depth, []⟩)
      (Expr.atom s.stop reader rest) := by
  rw [atom, run_next_bind S hts]
  cases rest with
  | nil => exact agrees_reject _ _ _
  | cons t rest =>
      have ht : t ∈ ts := by simp [hts]
      rw [Expr.atom]
      dsimp only [List.head?_cons, Option.map_some, Token.piece]
      cases t.kind with
      | varName =>
          dsimp only
          rw [run_bump_bind S hts]
          exact agrees_textAt S ht (.done (behind_token hts) (le_concat hn t))
      | typeName => exact agrees_application S H hts hn
      | garbage => exact agrees_textAt S ht (agrees_reject _ _ _)
      | openBracket | closeBracket | comma | subtype | supertype | blank =>
          exact agrees_reject _ _ _

/-- Every atom takes a token, so neither count of atoms runs out. -/
theorem agrees_moreAtoms {count fuel : Nat} (hts : ts = before ++ rest) (hn : n ≤ before.length)
    (hcount : rest.length ≤ count) (hfuel : rest.length < fuel) :
    Agrees s ts depth n ((moreAtoms s inner fuel).run ⟨before.length, depth, []⟩)
      (Expr.moreAtoms s.stop reader count rest) := by
  induction count generalizing n fuel before rest with
  | zero =>
      obtain rfl := List.eq_nil_of_length_eq_zero (Nat.le_zero.1 hcount)
      obtain ⟨fuel, rfl⟩ := Nat.exists_eq_add_one.2 hfuel
      rw [moreAtoms, run_next_bind S hts]
      exact .done hts hn
  | succ count ih =>
      obtain ⟨fuel, rfl⟩ := Nat.exists_eq_add_one.2 (Nat.lt_of_le_of_lt (Nat.zero_le _) hfuel)
      rw [moreAtoms, run_next_bind S hts]
      cases rest with
      | nil => exact .done hts hn
      | cons t rest =>
          rw [Expr.moreAtoms]
          by_cases ht : t.kind = .comma
          · rw [if_pos (kind_head?_iff.2 ht), if_pos ht, run_bump_bind S hts]
            refine Agrees.mono (le_concat hn t) ?_
            refine agrees_bind (agrees_atom S H (behind_token hts) (Nat.le_refl _)) ?_
            intro item before' rest' hts' hn'
            have hlen := congrArg List.length (hts.symm.trans hts')
            simp only [List.length_append, List.length_cons, List.length_nil] at hlen hn'
            rw [List.length_cons] at hcount hfuel
            refine agrees_bind (ih hts' ?_ (by omega) (by omega)) ?_
            · simp only [List.length_append, List.length_cons, List.length_nil]
              omega
            · intro items before' rest' hts' hn'
              exact .done hts' hn'
          · rw [if_neg (mt kind_head?_iff.1 ht), if_neg ht]
            exact .done hts hn

theorem agrees_atoms (hts : ts = before ++ rest) (hn : n ≤ before.length) :
    Agrees s ts depth n ((atoms s inner).run ⟨before.length, depth, []⟩)
      (Expr.atoms s.stop reader rest) := by
  refine agrees_bind (agrees_atom S H hts hn) ?_
  intro item before rest hts hn
  have hfuel : rest.length < s.pieces.length + 1 := by
    rw [S.pieces, List.length_map, hts, List.length_append]
    omega
  refine agrees_bind (agrees_moreAtoms S H hts hn (Nat.le_refl _) hfuel) ?_
  intro items before rest hts hn
  exact .done hts hn

theorem agrees_boundedAbove {place : Place} {first : Item} {items : List Item}
    (hts : ts = before ++ t :: rest) (hn : n ≤ before.length) :
    Agrees s ts depth n
      ((boundedAbove s inner place first items).run ⟨before.length, depth, []⟩)
      (Expr.boundedAbove s.stop reader place t first items rest) := by
  rw [boundedAbove, run_bump_bind S hts]
  refine agrees_bind (agrees_atoms S H (behind_token hts) (le_concat hn t)) ?_
  rintro ⟨second, seconds⟩ before rest hts hn
  dsimp only
  rw [run_next_bind S hts]
  have hsingle : Agrees s ts depth n
      ((check (head place t.kind first items) >>= fun x =>
        pure (types x.1 ++ [.var (.bounded x.2 [] (types (second :: seconds)))])).run
          ⟨before.length, depth, []⟩)
      (head place t.kind first items >>= fun x =>
        .ok (types x.1 ++ [.var (.bounded x.2 [] (types (second :: seconds)))], rest)) :=
    agrees_check fun x => .done hts hn
  cases rest with
  | nil =>
      rw [if_neg (by simp)]
      exact hsingle
  | cons u rest =>
      dsimp only
      by_cases hu : u.kind = .subtype
      · rw [if_pos (kind_head?_iff.2 hu), if_pos hu, run_bump_bind S hts]
        refine agrees_check fun name => ?_
        refine agrees_bind (agrees_atoms S H (behind_token hts) (le_concat hn u)) ?_
        rintro ⟨upper, uppers⟩ before rest hts hn
        exact .done hts hn
      · rw [if_neg (mt kind_head?_iff.1 hu), if_neg hu]
        exact hsingle

theorem agrees_boundedBelow {place : Place} {first : Item} {items : List Item}
    (hts : ts = before ++ t :: rest) (hn : n ≤ before.length) :
    Agrees s ts depth n
      ((boundedBelow s inner place first items).run ⟨before.length, depth, []⟩)
      (Expr.boundedBelow s.stop reader place t first items rest) := by
  rw [boundedBelow, run_bump_bind S hts]
  refine agrees_check ?_
  rintro ⟨front, name⟩
  refine agrees_bind (agrees_atoms S H (behind_token hts) (le_concat hn t)) ?_
  rintro ⟨lower, lowers⟩ before rest hts hn
  exact .done hts hn

theorem agrees_typeList (place : Place) (hts : ts = before ++ rest) (hn : n ≤ before.length) :
    Agrees s ts depth n ((typeList s inner place).run ⟨before.length, depth, []⟩)
      (Expr.typeList s.stop reader place rest) := by
  refine agrees_bind (agrees_atoms S H hts hn) ?_
  rintro ⟨first, items⟩ before rest hts hn
  dsimp only
  rw [run_next_bind S hts]
  have hplain : Agrees s ts depth n
      ((check (unbounded place first items)).run ⟨before.length, depth, []⟩)
      (unbounded place first items >>= fun tys => .ok (tys, rest)) := by
    cases unbounded place first items with
    | ok tys => exact .done hts hn
    | error f => exact .abandoned rfl
  cases rest with
  | nil => exact hplain
  | cons t rest =>
      dsimp only [List.head?_cons, Option.map_some, Token.piece]
      cases t.kind with
      | supertype => exact agrees_boundedBelow S H hts hn
      | subtype => exact agrees_boundedAbove S H hts hn
      | varName | typeName | garbage | openBracket | closeBracket | comma | blank => exact hplain

end Agrees

/-! ## 4. All levels -/

variable {s : Course} {depth n : Nat} {ts before rest : List Token}

theorem run_enter (taken depth : Nat) (faults : List Fault) :
    (enter s).run ⟨taken, depth, faults⟩ =
      if maxDepth < depth + 1 then
        (nextSpan s >>= fun span => reject ⟨span, .tooDeep⟩).run ⟨taken, depth + 1, faults⟩
      else .done () ⟨taken, depth + 1, faults⟩ := by
  rw [enter, run_bind]
  simp only [Walked.andThen]
  split <;> rfl

/-- As many brackets are open as levels are used up. -/
theorem agrees_arguments (S : s.Shows ts) (levels : Nat) (hd : depth + levels = maxDepth)
    (hts : ts = before ++ rest) (hn : n ≤ before.length) :
    Agrees s ts depth n
      ((bracketed s (arguments s levels)).run ⟨before.length, depth, []⟩)
      (Expr.arguments s.stop levels rest) := by
  induction levels generalizing depth n before rest with
  | zero =>
      rw [bracketed, run_bind, run_enter, if_pos (by omega), run_nextSpan_bind S hts]
      exact .abandoned rfl
  | succ levels ih =>
      have hlevel : Agrees s ts (depth + 1) n
          ((arguments s (levels + 1)).run ⟨before.length, depth + 1, []⟩)
          (Expr.arguments s.stop (levels + 1) rest) :=
        agrees_typeList S (fun _ _ _ => ih (by omega)) .brackets hts hn
      rw [bracketed, run_bind, run_enter, if_neg (by omega), Walked.andThen, run_bind]
      generalize (arguments s (levels + 1)).run _ = w at hlevel
      generalize Expr.arguments s.stop (levels + 1) rest = x at hlevel
      cases hlevel with
      | done hts hn => exact .done hts hn
      | abandoned hc => exact .abandoned hc
      | stuck h => exact .stuck h

theorem agrees_whole (S : s.Shows ts) :
    Agrees s ts 0 0
      ((typeList s (arguments s maxDepth) .whole).run ⟨([] : List Token).length, 0, []⟩)
      (Expr.typeList s.stop (Expr.arguments s.stop maxDepth) .whole ts) := by
  refine agrees_typeList S ?_ .whole (List.nil_append ts).symm (Nat.le_refl _)
  intro n before rest hts hn
  exact agrees_arguments S maxDepth (Nat.zero_add _) hts hn

end Walk

/-! ## 5. Texts -/

/-- **A walk along pieces comes to what the reader reads** from the tokens they show: the same
    instance, or one fault, which is the same. If it gets stuck, some piece can not be cut out of
    the source. -/
theorem walkAlong_eq {text : String} {stop : Nat} {pieces : List Piece} {ts : List Token}
    (S : (Course.mk text.toList stop (pieces.filter (!·.kind.isTrivia))).Shows ts) :
    walkAlong text stop pieces = some ((single stop ts).mapError (·.report text)) ∨
      walkAlong text stop pieces = none ∧
        (Course.mk text.toList stop (pieces.filter (!·.kind.isTrivia))).Torn := by
  have hlist := Walk.agrees_whole S
  rw [walkAlong, Walk.single, Walk.run_bind, single]
  generalize (Walk.typeList _ _ _).run _ = w at hlist
  generalize typeList _ _ _ _ = x at hlist
  cases hlist with
  | stuck h => exact .inr ⟨rfl, h⟩
  | abandoned hc =>
      refine .inl ?_
      simp only [Walked.andThen, hc]
      rfl
  | @done tys before rest hts hn =>
      refine .inl ?_
      rw [Walked.andThen, Walk.run_next_bind S hts]
      cases rest with
      | cons t rest => rfl
      | nil => rcases tys with _ | ⟨ty, _ | ⟨extra, more⟩⟩ <;> rfl

/-- What the walk along the tokens of a text comes to. -/
def walk (text : String) : Option (Except Report Ty) :=
  walkAlong text (byteLength text.toList) ((tokens text).map Token.piece)

/-- A token of a text is what is written at its place. -/
theorem slice_of_mem {text : String} {t : Token} (ht : t ∈ tokens text) :
    slice text.toList t.start t.stop = some t.text.toList := by
  obtain ⟨before, after, hcs, hstart, -⟩ := (partition_tokens text).cut t ht
  rw [hcs, Token.stop, ← hstart, slice_append]

theorem filter_map_piece (ts : List Token) :
    (ts.map Token.piece).filter (!·.kind.isTrivia) =
      (ts.filter (!·.kind.isTrivia)).map Token.piece :=
  List.filter_map

theorem shows_tokens (text : String) (stop : Nat) :
    (Course.mk text.toList stop (((tokens text).map Token.piece).filter (!·.kind.isTrivia))).Shows
      (meaningful text) where
  pieces := filter_map_piece (tokens text)
  text t ht cs e := by
    rw [slice_of_mem (List.mem_filter.1 ht).1] at e
    cases e
    exact String.ofList_toList.symm
  ordered := (partition_tokens text).contiguous.ordered.filter _

/-- **A walk along the tokens of a text never gets stuck**, and it comes to what the reader
    reads. -/
theorem walk_eq (text : String) : walk text = some (Ty.parse text) := by
  refine (walkAlong_eq (shows_tokens text _)).resolve_right ?_
  rintro ⟨-, p, hp, hnone⟩
  obtain ⟨t, ht, rfl⟩ := List.mem_map.1 (List.mem_filter.1 hp).1
  cases hnone.symm.trans (slice_of_mem ht)

end Lineage.Expr

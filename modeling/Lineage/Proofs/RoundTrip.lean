import Lineage.Proofs.Grammar
import Lineage.Proofs.LongTexts
import Lineage.Proofs.Printable

/-!
# Writing and reading back

* The written form of a printable instance is derived by the grammar (`derives_text`): its pieces
  are tokens whatever stands around them (`Writes`), and they stand in the order of a phrase.
* What the grammar derives from a text is printable (`isPrintable_of_derives`).

So an instance is read back from its written form exactly if it is printable and that form is
shorter than 4 GiB (`ofText_text_iff`). From there on places do not fit into 32 bits: a printable
instance is not read back, and an instance that is not printable can be read from a text
(`long_texts_misread`).
-/

namespace Lineage

open Lineage.Expr

/-! ## 1. Written forms are derived -/

/-- A text whose tokens make up a phrase, whatever follows that no name goes on with. -/
def Writes (s : String) (P : List Token → List Token → Prop) : Prop :=
  ∀ start rest, Detached rest → ∃ next,
    P (tokensFrom start (s.toList ++ rest)) (tokensFrom next rest)

/-- A text that is one token of a kind and ends every name before it. -/
def Separates (s : String) (k : Kind) : Prop :=
  ∀ rest, Detached (s.toList ++ rest) ∧ ∀ start, ∃ o next, o.kind = k ∧
    tokensFrom start (s.toList ++ rest) = o :: tokensFrom next rest

section Pieces

variable {s s' : String} {k : Kind} {P Q : List Token → List Token → Prop}

theorem Writes.imp (h : Writes s P) (hPQ : ∀ {ts rest}, P ts rest → Q ts rest) : Writes s Q := by
  intro start rest hrest
  obtain ⟨next, hP⟩ := h start rest hrest
  exact ⟨next, hPQ hP⟩

theorem Writes.close (h : Writes s P) (hk : Separates s' k) :
    Writes (s ++ s') fun ts rest => ∃ o, o.kind = k ∧ P ts (o :: rest) := by
  intro start rest _
  obtain ⟨hdet, hsep⟩ := hk rest
  obtain ⟨next, hP⟩ := h start _ hdet
  obtain ⟨o, next', ho, e⟩ := hsep next
  rw [String.toList_append, List.append_assoc]
  exact ⟨next', o, ho, e ▸ hP⟩

theorem Writes.link {sep : String} (h : Writes s P) (hk : Separates sep k) (h' : Writes s' Q) :
    Writes (s ++ sep ++ s') fun ts rest => ∃ o us, o.kind = k ∧ P ts (o :: us) ∧ Q us rest := by
  intro start rest hrest
  obtain ⟨hdet, hsep⟩ := hk (s'.toList ++ rest)
  obtain ⟨next, hP⟩ := h start _ hdet
  obtain ⟨o, next', ho, e⟩ := hsep next
  obtain ⟨next'', hQ⟩ := h' next' rest hrest
  rw [String.toList_append, String.toList_append, List.append_assoc, List.append_assoc]
  exact ⟨next'', o, _, ho, e ▸ hP, hQ⟩

/-! ### Marks -/

theorem separates_mark (hk : k.isTrivia = false) (hd : ∀ rest, Detached (s.toList ++ rest))
    (hm : ∀ rest, longestMatch (s.toList ++ rest) = some (k, s.toList.length)) : Separates s k := by
  refine fun rest => ⟨hd rest, fun start => ?_⟩
  obtain ⟨o, next, ho, -, e⟩ := exists_token hk (hm rest) start
  exact ⟨o, next, ho, e⟩

theorem Separates.blank_left (h : Separates s k) : Separates (" " ++ s) k := by
  intro rest
  rw [String.toList_append, List.append_assoc]
  refine ⟨rfl, fun start => ?_⟩
  obtain ⟨o, next, ho, e⟩ := (h rest).2 (start + ' '.utf8Size)
  exact ⟨o, next, ho, (tokensFrom_blank rfl).trans e⟩

theorem Separates.blank_right (h : Separates s k) : Separates (s ++ " ") k := by
  intro rest
  rw [String.toList_append, List.append_assoc]
  refine ⟨(h _).1, fun start => ?_⟩
  obtain ⟨o, next, ho, e⟩ := (h (' ' :: rest)).2 start
  refine ⟨o, next + ' '.utf8Size, ho, e.trans ?_⟩
  rw [tokensFrom_blank rfl]

theorem separates_open : Separates "[" .openBracket :=
  separates_mark rfl (fun _ => rfl) fun _ => rfl

theorem separates_close : Separates "]" .closeBracket :=
  separates_mark rfl (fun _ => rfl) fun _ => rfl

theorem separates_comma : Separates ", " .comma :=
  (separates_mark (s := ",") rfl (fun _ => rfl) fun _ => rfl).blank_right

theorem separates_subtype : Separates " <: " .subtype :=
  (separates_mark (s := "<:") rfl (fun _ => rfl) fun _ => rfl).blank_left.blank_right

theorem separates_supertype : Separates " >: " .supertype :=
  (separates_mark (s := ">:") rfl (fun _ => rfl) fun _ => rfl).blank_left.blank_right

/-! ### Names -/

theorem writes_typeName (hs : isTypeName s.toList = true) :
    Writes s fun ts rest => ∃ f, f.kind = .typeName ∧ f.text = s ∧ ts = f :: rest := by
  intro start rest hrest
  obtain ⟨f, next, hf, hname, e⟩ := exists_typeName hs hrest start
  rw [String.ofList_toList] at hname
  exact ⟨next, f, hf, hname, e⟩

theorem writes_varName (hs : isVarName s.toList = true) :
    Writes s fun ts rest => ∃ x, x.kind = .varName ∧ x.text = s ∧ ts = x :: rest := by
  intro start rest hrest
  obtain ⟨x, next, hx, hname, e⟩ := exists_varName hs hrest start
  rw [String.ofList_toList] at hname
  exact ⟨next, x, hx, hname, e⟩

end Pieces

section Forms

variable {I : Phrase (List Ty)}

theorem writes_atoms {α : Type} {xs : List α} {g : α → String} {f : α → Ty} (hne : xs ≠ [])
    (h : ∀ x ∈ xs, Writes (g x) (Atom I · (f x) ·)) :
    Writes (commaList (xs.map g)) (Atoms I · (xs.map f) ·) := by
  induction xs with
  | nil => exact absurd rfl hne
  | cons x xs ih =>
      rw [List.forall_mem_cons] at h
      cases xs with
      | nil =>
          rw [List.map_singleton, List.map_singleton, commaList_singleton]
          exact h.1.imp .last
      | cons y ys =>
          have hlink := h.1.link separates_comma (ih (List.cons_ne_nil y ys) h.2)
          rw [List.map_cons, List.map_cons, commaList_cons_cons]
          refine hlink.imp ?_
          intro ts rest h
          obtain ⟨c, us, hc, hx, hxs⟩ := h
          exact .more hx hc hxs

theorem Var.bounded_map_app (name : String) (lower upper : List (App Ty)) :
    Var.bounded name (lower.map .app) (upper.map .app) = ⟨name, lower, upper⟩ := by
  simp [Var.bounded, List.filterMap_map, Function.comp_def, Ty.app?]

/-- Each application that the instance consists of is written as an atom. -/
def Written (I : Phrase (List Ty)) (t : Ty) : Prop :=
  ∀ a ∈ t.parts, Writes a.text (Atom I · (.app a) ·)

theorem writes_atomic {t : Ty} (ht : t.isExpressible = true) (hw : Written I t)
    (ha : t.isAtomic = true) : Writes t.text (Atom I · t ·) := by
  cases t with
  | app a =>
      rw [Ty.text_app]
      exact hw a (List.mem_singleton_self a)
  | var v =>
      have hname := (Var.isExpressible_iff.1 ht).1
      rw [Var.text_eq_frame hname]
      obtain ⟨name, lower, upper⟩ := v
      have hfree : lower = [] ∧ upper = [] := by simpa [Ty.isAtomic, Var.isBounded] using ha
      obtain ⟨rfl, rfl⟩ := hfree
      refine (writes_varName hname).imp ?_
      intro ts rest h
      obtain ⟨x, hx, rfl, rfl⟩ := h
      exact .var hx

theorem writes_bounded {t : Ty} (ht : t.isExpressible = true) (hw : Written I t)
    (ha : t.isAtomic = false) (he : t.isEnclosed = false) : Writes t.text (Bounded I · t ·) := by
  cases t with
  | app a => cases ha
  | var v =>
      have hname := (Var.isExpressible_iff.1 ht).1
      rw [Var.text_eq_frame hname]
      obtain ⟨hlow, hupp⟩ := List.forall_mem_append.1 hw
      obtain ⟨name, lower, upper⟩ := v
      cases lower with
      | nil =>
          cases upper with
          | nil => cases ha
          | cons b bs =>
              have hbounds := writes_atoms (List.cons_ne_nil b bs) hupp
              refine ((writes_varName hname).link separates_subtype hbounds).imp ?_
              intro ts rest h
              obtain ⟨o, us, ho, ⟨x, hx, rfl, rfl⟩, hs⟩ := h
              have := Bounded.high hx ho hs
              rwa [← List.map_nil, Var.bounded_map_app] at this
      | cons a as =>
          cases upper with
          | nil =>
              have hbounds := writes_atoms (List.cons_ne_nil a as) hlow
              refine ((writes_varName hname).link separates_supertype hbounds).imp ?_
              intro ts rest h
              obtain ⟨o, us, ho, ⟨x, hx, rfl, rfl⟩, hs⟩ := h
              have := Bounded.low hx ho hs
              rwa [← List.map_nil, Var.bounded_map_app] at this
          | cons b bs => cases he

theorem writes_enclosed {t : Ty} {p : Place} (ht : t.isExpressible = true) (hw : Written I t)
    (he : t.isEnclosed = true) : Writes t.text (TypeList I p · [t] ·) := by
  cases t with
  | app a => cases he
  | var v =>
      have hname := (Var.isExpressible_iff.1 ht).1
      rw [Var.text_eq_frame hname]
      obtain ⟨hlow, hupp⟩ := List.forall_mem_append.1 hw
      obtain ⟨name, lower, upper⟩ := v
      cases lower with
      | nil => cases he
      | cons a as =>
          cases upper with
          | nil => cases he
          | cons b bs =>
              have hlows := writes_atoms (List.cons_ne_nil a as) hlow
              have hupps := writes_atoms (List.cons_ne_nil b bs) hupp
              have hlink := (hlows.link separates_subtype (writes_varName hname)).link
                separates_subtype hupps
              refine hlink.imp ?_
              intro ts rest h
              obtain ⟨o', vs, ho', ⟨o, us, ho, hl, x, hx, rfl, rfl⟩, hu⟩ := h
              have := TypeList.between (p := p) hl ho hx ho' hu
              rwa [Var.bounded_map_app] at this

/-- Arguments that fit together are written between brackets. -/
theorem writes_arguments {args : List Ty} (hne : args ≠ []) (hf : Ty.fitTogether args = true)
    (he : ∀ t ∈ args, t.isExpressible = true) (hw : ∀ t ∈ args, Written I t) :
    Writes (commaList (args.map Ty.text)) (TypeList I .brackets · args ·) := by
  obtain ⟨front, last, rfl⟩ : ∃ front last, args = front ++ [last] :=
    ⟨_, _, (List.dropLast_append_getLast hne).symm⟩
  obtain ⟨hfront, hlast⟩ := Ty.fitTogether_concat.1 hf
  rw [List.forall_mem_append] at he hw
  have hatom : ∀ t ∈ front, Writes t.text (Atom I · t ·) := fun t ht =>
    writes_atomic (he.1 t ht) (hw.1 t ht) (hfront t ht)
  have he' : last.isExpressible = true := he.2 last (List.mem_singleton_self last)
  have hw' : Written I last := hw.2 last (List.mem_singleton_self last)
  -- only the last argument may have bounds, so it decides which production is used
  cases ha : last.isAtomic with
  | true =>
      have hatoms := writes_atoms (g := Ty.text) (f := id) hne
        (List.forall_mem_append.2 ⟨hatom, by simpa using writes_atomic he' hw' ha⟩)
      rw [List.map_id] at hatoms
      exact hatoms.imp .atoms
  | false =>
      by_cases hnil : front = []
      · subst hnil
        rw [List.nil_append, List.map_singleton, commaList_singleton]
        cases hl : last.isEnclosed with
        | true => exact writes_enclosed he' hw' hl
        | false => exact (writes_bounded he' hw' ha hl).imp .bounded
      · have hatoms := writes_atoms (g := Ty.text) (f := id) hnil hatom
        have hbounded := writes_bounded he' hw' ha (hlast.resolve_left hnil)
        rw [List.map_id] at hatoms
        rw [List.map_append, List.map_singleton, commaList_concat (by simpa using hnil)]
        refine (hatoms.link separates_comma hbounded).imp ?_
        intro ts rest h
        obtain ⟨c, us, hc, hs, hb⟩ := h
        exact .behind hs hc hb

/-- An instance as the whole text. -/
theorem writes_whole {t : Ty} (he : t.isExpressible = true) (hw : Written I t) :
    Writes t.text (TypeList I .whole · [t] ·) := by
  cases ha : t.isAtomic with
  | true => exact (writes_atomic he hw ha).imp .atom
  | false =>
      cases hl : t.isEnclosed with
      | true => exact writes_enclosed he hw hl
      | false => exact (writes_bounded he hw ha hl).imp .bounded

end Forms

/-- An application is written as an atom, if enough levels of brackets may be opened. -/
theorem writes_app (a : App Ty) {d : Nat} (ha : a.isExpressible = true) (hd : a.depth ≤ d) :
    Writes a.text (Atom (Arguments d) · (.app a) ·) := by
  induction a using App.induct generalizing d with
  | step a ih =>
      obtain ⟨hname, hfit, hargs⟩ := App.isExpressible_iff.1 ha
      rw [App.depth_le] at hd
      have hhead := writes_typeName hname
      rw [App.text_eq]
      obtain ⟨head, args⟩ := a
      cases args with
      | nil =>
          refine hhead.imp ?_
          intro ts rest h
          obtain ⟨f, hf, rfl, rfl⟩ := h
          exact .name hf
      | cons t ts =>
          cases d with
          | zero => exact absurd (hd t List.mem_cons_self) (Nat.not_lt_zero _)
          | succ d =>
              -- what stands in the brackets has one level less to open
              have hw : ∀ u ∈ t :: ts, Written (Arguments d) u := fun u hu b hb =>
                ih u hu b hb (Ty.isExpressible_parts (hargs u hu) b hb)
                  (Ty.depth_le.1 (Nat.le_of_lt_succ (hd u hu)) b hb)
              have hin := writes_arguments (List.cons_ne_nil t ts) hfit hargs hw
              refine ((hhead.link separates_open hin).close separates_close).imp ?_
              intro us rest h
              obtain ⟨c, hc, o, vs, ho, ⟨f, hf, rfl, rfl⟩, hs⟩ := h
              exact .apply hf ho hs hc

/-- **The written form of an instance is derived.** -/
theorem derives_text {t : Ty} (ht : t.isPrintable = true) :
    TypeList (Arguments maxDepth) .whole (meaningful t.text) [t] [] := by
  rw [Ty.isPrintable, Bool.and_eq_true, decide_eq_true_eq] at ht
  obtain ⟨he, hd⟩ := ht
  rw [nesting_text he, Ty.depth_le] at hd
  have hw : Written (Arguments maxDepth) t := fun a ha =>
    writes_app a (Ty.isExpressible_parts he a ha) (hd a ha)
  obtain ⟨next, h⟩ := writes_whole he hw 0 [] rfl
  rwa [List.append_nil, tokensFrom_nil, ← meaningful_eq] at h

/-! ## 2. What is derived is printable -/

/-- Every token is spelled as its class demands. -/
def Spelled (ts : List Token) : Prop :=
  ∀ t ∈ ts, t.kind = .garbage ∨ t.kind.spells t.text.toList = true

/-- An instance that can be written within so many levels of brackets. -/
def Fits (d : Nat) (t : Ty) : Prop := t.isExpressible = true ∧ t.depth ≤ d

section Derived

variable {I : Phrase (List Ty)} {d : Nat} {p : Place} {ts rest : List Token} {t : Ty}
  {tys : List Ty} {x : Token}

theorem Spelled.of_suffix (h : Spelled ts) (hs : rest <:+ ts) : Spelled rest :=
  fun t ht => h t (hs.subset ht)

theorem Spelled.tail (h : Spelled (x :: rest)) : Spelled rest :=
  h.of_suffix (List.suffix_cons x rest)

theorem Spelled.isVarName (h : Spelled (x :: rest)) (hx : x.kind = .varName) :
    isVarName x.text.toList = true := by
  have hspell := h x List.mem_cons_self
  rw [hx] at hspell
  exact hspell.resolve_left (by decide)

theorem Spelled.isTypeName (h : Spelled (x :: rest)) (hx : x.kind = .typeName) :
    isTypeName x.text.toList = true := by
  have hspell := h x List.mem_cons_self
  rw [hx] at hspell
  exact hspell.resolve_left (by decide)

theorem fits_bounded {name : String} {lower upper : List Ty}
    (hn : Expr.isVarName name.toList = true) (hl : ∀ t ∈ lower, Fits d t)
    (hu : ∀ t ∈ upper, Fits d t) :
    Fits d (.var (.bounded name lower upper)) := by
  -- variables among the bounds are dropped, and the applications stay
  have happ {tys : List Ty} (h : ∀ t ∈ tys, Fits d t) :
      ∀ a ∈ tys.filterMap Ty.app?, a.isExpressible = true ∧ a.depth ≤ d := by
    intro a ha
    obtain ⟨t, ht, hta⟩ := List.mem_filterMap.1 ha
    have hfit := h t ht
    cases t with
    | app b =>
        cases hta
        rwa [Fits, Ty.isExpressible, Ty.depth] at hfit
    | var v => cases hta
  refine ⟨Var.isExpressible_iff.2 ⟨hn, ?_, ?_⟩, Var.depth_le.2 ⟨?_, ?_⟩⟩
  · exact fun a ha => (happ hl a ha).1
  · exact fun a ha => (happ hu a ha).1
  · exact fun a ha => (happ hl a ha).2
  · exact fun a ha => (happ hu a ha).2

theorem fits_free {name : String} (hn : Expr.isVarName name.toList = true) :
    Fits d (.var (.free name)) := by
  show Fits d (.var (.bounded name [] []))
  exact fits_bounded hn (List.forall_mem_nil _) (List.forall_mem_nil _)

theorem fits_app {head : String} {args : List Ty} (hn : Expr.isTypeName head.toList = true)
    (hf : Ty.fitTogether args = true)
    (ha : ∀ t ∈ args, t.isExpressible = true ∧ t.depth < d) : Fits d (.app ⟨head, args⟩) := by
  rw [Fits, Ty.isExpressible, Ty.depth]
  exact ⟨App.isExpressible_iff.2 ⟨hn, hf, fun t ht => (ha t ht).1⟩,
    App.depth_le.2 fun t ht => (ha t ht).2⟩

/-- What stands in brackets can be written within so many levels, the brackets included. -/
structure FitsIn (d : Nat) (I : Phrase (List Ty)) : Prop where
  suffix : ∀ {ts rest : List Token} {tys : List Ty}, I ts tys rest → rest <:+ ts
  fits : ∀ {ts rest : List Token} {tys : List Ty}, I ts tys rest → Spelled ts →
    Ty.fitTogether tys = true ∧ ∀ t ∈ tys, t.isExpressible = true ∧ t.depth < d

variable (W : FitsIn d I)
include W

theorem FitsIn.atom (h : Atom I ts t rest) (hsp : Spelled ts) : t.isAtomic = true ∧ Fits d t := by
  cases h with
  | var hx => exact ⟨rfl, fits_free (hsp.isVarName hx)⟩
  | name hf => exact ⟨rfl, fits_app (hsp.isTypeName hf) rfl (List.forall_mem_nil _)⟩
  | apply hf ho ha hc =>
      obtain ⟨hfit, hargs⟩ := W.fits ha hsp.tail.tail
      exact ⟨rfl, fits_app (hsp.isTypeName hf) hfit hargs⟩

theorem FitsIn.atoms (h : Atoms I ts tys rest) (hsp : Spelled ts) :
    ∀ t ∈ tys, t.isAtomic = true ∧ Fits d t := by
  induction h with
  | last h => simpa using W.atom h hsp
  | more h hc hs ih =>
      have hrest := (hsp.of_suffix (h.suffix W.suffix)).tail
      exact List.forall_mem_cons.2 ⟨W.atom h hsp, ih hrest⟩

theorem FitsIn.bounded (h : Bounded I ts t rest) (hsp : Spelled ts) :
    t.isEnclosed = false ∧ Fits d t := by
  cases h with
  | low hx ho hs =>
      have hbounds := W.atoms hs hsp.tail.tail
      refine ⟨?_, fits_bounded (hsp.isVarName hx) (fun t ht => (hbounds t ht).2)
        (List.forall_mem_nil _)⟩
      simp [Ty.isEnclosed, Var.bounded]
  | high hx ho hs =>
      have hbounds := W.atoms hs hsp.tail.tail
      refine ⟨?_, fits_bounded (hsp.isVarName hx) (List.forall_mem_nil _)
        fun t ht => (hbounds t ht).2⟩
      simp [Ty.isEnclosed, Var.bounded]

theorem FitsIn.typeList (h : TypeList I p ts tys rest) (hsp : Spelled ts) :
    Ty.fitTogether tys = true ∧ ∀ t ∈ tys, Fits d t := by
  cases h with
  | atom h => exact ⟨Ty.fitTogether_singleton _, by simpa using (W.atom h hsp).2⟩
  | atoms h =>
      have hatoms := W.atoms h hsp
      exact ⟨Ty.fitTogether_of_isAtomic fun t ht => (hatoms t ht).1, fun t ht => (hatoms t ht).2⟩
  | bounded h => exact ⟨Ty.fitTogether_singleton _, by simpa using (W.bounded h hsp).2⟩
  | behind h hc hb =>
      have hatoms := W.atoms h hsp
      have hlast := W.bounded hb (hsp.of_suffix (h.suffix W.suffix)).tail
      refine ⟨Ty.fitTogether_concat.2 ⟨fun t ht => (hatoms t ht).1, .inr hlast.1⟩, ?_⟩
      exact List.forall_mem_append.2 ⟨fun t ht => (hatoms t ht).2, by simpa using hlast.2⟩
  | between hl ho hx ho' hu =>
      have hmid := (hsp.of_suffix (hl.suffix W.suffix)).tail
      have hfits := fits_bounded (hmid.isVarName hx) (fun t ht => (W.atoms hl hsp t ht).2)
        fun t ht => (W.atoms hu hmid.tail.tail t ht).2
      exact ⟨Ty.fitTogether_singleton _, by simpa using hfits⟩

end Derived

theorem fitsIn_arguments (d : Nat) : FitsIn d (Arguments d) := by
  induction d with
  | zero => exact ⟨fun h => h.elim, fun h => h.elim⟩
  | succ d W =>
      refine ⟨TypeList.suffix W.suffix, fun h hsp => ?_⟩
      obtain ⟨hfit, hall⟩ := W.typeList h hsp
      exact ⟨hfit, fun t ht => ⟨(hall t ht).1, Nat.lt_succ_of_le (hall t ht).2⟩⟩

/-- **What is derived from the tokens of a text is printable.** -/
theorem isPrintable_of_derives {text : String} {t : Ty}
    (h : TypeList (Arguments maxDepth) .whole (meaningful text) [t] []) : t.isPrintable = true := by
  have hsp : Spelled (meaningful text) := by
    rw [meaningful_eq]
    exact fun x hx => spells_of_mem hx
  obtain ⟨he, hd⟩ := ((fitsIn_arguments maxDepth).typeList h hsp).2 t (List.mem_singleton_self t)
  rw [Ty.isPrintable, he, nesting_text he, Bool.true_and]
  exact decide_eq_true hd

/-! ## 3. The round trip -/

theorem parse_eq_ok {text : String} {t : Ty} : Ty.parse text = .ok t ↔
    TypeList (Arguments maxDepth) .whole (meaningful text) [t] [] := by
  rw [← single_eq_ok, Ty.parse, mapError_eq_ok, Ty.read]

theorem ofText_eq_ok {text : String} (h : Text.byteLength text.toList < UInt32.size) {t : Ty} :
    Ty.ofText text = some (.ok t) ↔
      TypeList (Arguments maxDepth) .whole (meaningful text) [t] [] := by
  rw [ofText_of_short h, Option.some_inj, parse_eq_ok]

/-- **An instance is read back from its written form exactly if it is printable and its written form
    is shorter than 4 GiB.** Nothing but printable instances is read from texts that are shorter, so
    that these are read back if they can be. -/
theorem ofText_text_iff :
    (∀ t : Ty, Ty.ofText t.text = some (.ok t) ↔
      t.isPrintable = true ∧ Text.byteLength t.text.toList < UInt32.size) ∧
    ∀ (text : String) (t : Ty), Text.byteLength text.toList < UInt32.size →
      Ty.ofText text = some (.ok t) → t.isPrintable = true ∧
        (Ty.ofText t.text = some (.ok t) ↔ Text.byteLength t.text.toList < UInt32.size) := by
  have hprint {text : String} {t : Ty} (h : Text.byteLength text.toList < UInt32.size)
      (e : Ty.ofText text = some (.ok t)) : t.isPrintable = true :=
    isPrintable_of_derives ((ofText_eq_ok h).1 e)
  have hread {t : Ty} (ht : t.isPrintable = true) :
      Ty.ofText t.text = some (.ok t) ↔ Text.byteLength t.text.toList < UInt32.size :=
    ⟨short_of_readBack, fun h => (ofText_eq_ok h).2 (derives_text ht)⟩
  refine ⟨fun t => ⟨fun e => ?_, ?_⟩, fun text t h e => ?_⟩
  · have h := short_of_readBack e
    exact ⟨hprint h e, h⟩
  · rintro ⟨ht, h⟩
    exact (hread ht).2 h
  · exact ⟨hprint h e, hread (hprint h e)⟩

/-- A variable among bounds is dropped, so this text is read as what another text says. -/
theorem dropped_bound_round_trip :
    Ty.ofText "pair[k, t <: num[x <: y <: int], u]" = some (.ok (.app ⟨"pair",
      [.var (.free "k"), .var ⟨"t", [], [⟨"num", [.var ⟨"y", [], [⟨"int", []⟩]⟩]⟩]⟩]⟩)) ∧
    Ty.ofText "pair[k, t <: num[y <: int]]" = some (.ok (.app ⟨"pair",
      [.var (.free "k"), .var ⟨"t", [], [⟨"num", [.var ⟨"y", [], [⟨"int", []⟩]⟩]⟩]⟩]⟩)) := by
  have e : Ty.ofText "pair[k, t <: num[x <: y <: int], u]" = some (.ok (.app ⟨"pair",
    [.var (.free "k"), .var ⟨"t", [], [⟨"num", [.var ⟨"y", [], [⟨"int", []⟩]⟩]⟩]⟩]⟩)) := by rfl
  exact ⟨e, (ofText_text_iff.2 _ _ (by decide) e).2.2 (by decide)⟩

/-! ### Longer texts -/

theorem isTypeName_replicate {n : Nat} (hn : 2 ≤ n) :
    isTypeName (List.replicate n 'a') = true := by
  obtain ⟨n, rfl⟩ := Nat.exists_eq_add_of_le' hn
  rw [List.replicate_succ, List.replicate_succ, isTypeName, ← List.replicate_succ]
  refine Bool.and_eq_true_iff.2 ⟨rfl, List.all_eq_true.2 fun c hc => ?_⟩
  rw [List.eq_of_mem_replicate hc]
  rfl

theorem isPrintable_name {s : List Char} (hs : isTypeName s = true) :
    (Ty.app ⟨String.ofList s, []⟩).isPrintable = true := by
  have he : (Ty.app ⟨String.ofList s, []⟩).isExpressible = true := by
    rw [Ty.isExpressible, App.isExpressible, String.toList_ofList, hs]
    rfl
  rw [Ty.isPrintable, he, nesting_text he]
  rfl

/-- A printable name of 4 GiB is read back as the empty name. Behind blanks of 4 GiB a name is read
    as so many blanks, which is not printable, and with one blank less it is not read at all. -/
theorem long_texts_misread :
    (∃ t : Ty, t.isPrintable = true ∧ Ty.ofText t.text = some (.ok (.app ⟨"", []⟩)) ∧
      Ty.ofText t.text ≠ some (.ok t)) ∧
    Ty.ofText (String.ofList (List.replicate UInt32.size ' ' ++ ['i', 'n', 't'])) =
      some (.ok (.app ⟨"   ", []⟩)) ∧
    (Ty.app ⟨"   ", []⟩).isPrintable = false ∧
    Ty.ofText (String.ofList (List.replicate 4294967295 ' ' ++ ['i', 'n', 't'])) = none := by
  have hint : isTypeName ['i', 'n', 't'] = true := by rfl
  have hname : isTypeName (List.replicate UInt32.size 'a') = true :=
    isTypeName_replicate (by decide)
  have hread := ofText_long_name hname List.length_replicate
  refine ⟨⟨.app ⟨String.ofList (List.replicate UInt32.size 'a'), []⟩, isPrintable_name hname,
    hread, fun e => ?_⟩, ofText_far_name hint (by decide), by rfl,
    ofText_torn_name hint (by decide) (by decide) (by decide)⟩
  have hsame := App.mk.inj (Ty.app.inj (Except.ok.inj (Option.some.inj (hread.symm.trans e))))
  have hlength : (String.ofList (List.replicate UInt32.size 'a')).toList.length = 0 := by
    rw [← hsame.1]
    rfl
  rw [String.toList_ofList, List.length_replicate] at hlength
  exact absurd hlength (by decide)

end Lineage

import Lineage.Proofs.Derivation
import Lineage.Proofs.Printable

/-!
# Written forms of 4 GiB and more

In a text of 4 GiB or more some token starts before that place and ends there or behind it. Its
range would end before it starts, unless the token alone takes 4 GiB. So the lexer comes to the end
of such a text only if it has a token of that length (`short_of_lex`), which is a name or a run of
blanks.

In the written form of an instance the names stand between separators (`strung_text`). A run of
characters of one class lies within a single name, up to what the separators beside it add
(`Strung.runs`). Now names that are read are cut out of the first 4 GiB of the text: they are
shorter than that, and there is no room for both a name full of letters and a name full of blanks.
So no instance is read back from a written form of 4 GiB or more (`short_of_readBack`).
-/

namespace Lineage.Expr

open Lineage.Text

variable {text : String} {ts : List Token} {ps : List Piece} {start stop : Nat}

/-! ## 1. The token that reaches 4 GiB -/

/-- Tokens that are shorter than 4 GiB do not get there. -/
theorem short_of_contiguous (h : Contiguous start ts stop)
    (e : List.Forall₂ (fun t p => Token.narrowed t = some p) ts ps) (hstart : start < UInt32.size)
    (hts : ∀ t ∈ ts, byteLength t.text.toList < UInt32.size) : stop < UInt32.size := by
  induction e generalizing start with
  | nil =>
      obtain rfl : start = stop := h
      exact hstart
  | @cons t _ _ _ ht _ ih =>
      obtain ⟨rfl, hrest⟩ := h
      obtain ⟨hle, -⟩ := Token.narrowed_eq_some ht
      obtain ⟨hshort, hts⟩ := List.forall_mem_cons.1 hts
      have hstop : t.stop = t.start + byteLength t.text.toList := rfl
      refine ih hrest (Nat.lt_of_not_le fun hlong => ?_) hts
      rw [narrow_of_lt hstart, narrow, Nat.mod_eq_sub_mod hlong, Nat.mod_eq_of_lt (by omega)] at hle
      omega

/-- **A text whose tokens are shorter than 4 GiB is shorter itself**, if the lexer comes to its
    end. -/
theorem short_of_lex (e : lex text = some ps)
    (hts : ∀ t ∈ tokens text, byteLength t.text.toList < UInt32.size) :
    byteLength text.toList < UInt32.size :=
  short_of_contiguous (partition_tokens text).contiguous (forall₂_of_lex e) (by decide) hts

end Lineage.Expr

namespace Lineage

open Lineage.Expr
open Lineage.Text (byteLength byteLength_of_ascii slice_of_ascii)

/-! ## 2. Names between separators -/

/-- What is written between names, in three parts: the middle is neither blank nor part of a
    name. -/
def separators : List (List Char × Char × List Char) :=
  [([], '[', []), ([], ']', []), ([], ',', [' ']), ([' '], '<', [':', ' ']),
    ([' '], '>', [':', ' '])]

theorem open_mem : ([], '[', []) ∈ separators := .head _

theorem close_mem : ([], ']', []) ∈ separators := .tail _ (.head _)

theorem comma_mem : ([], ',', [' ']) ∈ separators := .tail _ (.tail _ (.head _))

theorem subtype_mem : ([' '], '<', [':', ' ']) ∈ separators :=
  .tail _ (.tail _ (.tail _ (.head _)))

theorem supertype_mem : ([' '], '>', [':', ' ']) ∈ separators :=
  .tail _ (.tail _ (.tail _ (.tail _ (.head _))))

/-- Whether the middle of no separator is in a class, and at most so many characters on either side
    of it are. -/
def breaksRuns (p : Char → Bool) (e : Nat) : Bool :=
  separators.all fun sep => !p sep.2.1 && sep.1.countP p ≤ e && sep.2.2.countP p ≤ e

/-- Names that have a property, with separators between them. -/
inductive Strung (P : List Char → Prop) : List Char → Prop
  | name {s : List Char} (hs : P s) : Strung P s
  | more {s l r rest : List Char} {c : Char} (hs : P s) (hsep : (l, c, r) ∈ separators)
      (hrest : Strung P rest) : Strung P (s ++ (l ++ c :: (r ++ rest)))

namespace Strung

variable {P : List Char → Prop} {cs ds l r u : List Char} {c : Char}

theorem link (hc : Strung P cs) (hsep : (l, c, r) ∈ separators) (hd : Strung P ds) :
    Strung P (cs ++ (l ++ c :: (r ++ ds))) := by
  induction hc with
  | name hs => exact .more hs hsep hd
  | more hs hsep' _ ih =>
      simp only [List.append_assoc, List.cons_append] at ih ⊢
      exact .more hs hsep' ih

/-! ### Runs of one class -/

/-- What starts a list ends before a character that it does not have. -/
theorem prefix_of_not_mem (hu : u <+: cs ++ c :: ds) (hc : c ∉ u) : u <+: cs := by
  obtain ⟨t, ht⟩ := hu
  obtain ⟨as, rfl, -⟩ | ⟨bs, rfl, hbs⟩ := List.append_eq_append_iff.1 ht
  · exact List.prefix_append u as
  · cases bs with
    | nil => simp
    | cons b bs =>
        obtain rfl := (List.cons.inj hbs).1
        exact absurd (List.mem_append_right cs List.mem_cons_self) hc

/-- A piece lies on one side of a character that it does not have. -/
theorem infix_of_not_mem (hu : u <:+: cs ++ c :: ds) (hc : c ∉ u) :
    u <:+: cs ∨ u <:+: ds := by
  obtain h | h | ⟨v, w, rfl, hv, hw⟩ := List.infix_append_iff.1 hu
  · exact .inl h
  · obtain h | h := List.infix_cons_iff.1 h
    · have hnil : u <+: [] := prefix_of_not_mem h hc
      exact .inl (List.prefix_nil.1 hnil ▸ List.nil_infix)
    · exact .inr h
  · have hnil : w <+: [] := prefix_of_not_mem hw fun h => hc (List.mem_append_right v h)
    rw [List.prefix_nil.1 hnil, List.append_nil]
    exact .inl hv.isInfix

section Runs

variable {p : Char → Bool} {n e : Nat}

/-- A run of a class is no longer than the list has characters of the class. -/
theorem length_le_countP (hu : u.Sublist cs) (hp : ∀ c ∈ u, p c = true) :
    u.length ≤ cs.countP p := by
  rw [← List.countP_eq_length.2 hp]
  exact hu.countP_le

/-- **A run of a class lies in one name**, up to what the separators beside it have of the class. -/
theorem runs (h : Strung P cs) (hP : ∀ s, P s → s.countP p ≤ n) (hsep : breaksRuns p e = true) :
    (∀ u, u <+: cs → (∀ c ∈ u, p c = true) → u.length ≤ n + e) ∧
      ∀ u, u <:+: cs → (∀ c ∈ u, p c = true) → u.length ≤ e + (n + e) := by
  induction h with
  | @name s hs =>
      have hn := hP s hs
      refine ⟨fun u hu hp => ?_, fun u hu hp => ?_⟩
      · exact Nat.le_trans (length_le_countP hu.sublist hp) (by omega)
      · exact Nat.le_trans (length_le_countP hu.sublist hp) (by omega)
  | @more s l r rest c hs hmem _ ih =>
      have hn := hP s hs
      obtain ⟨⟨hc, hl⟩, hr⟩ : (p c = false ∧ l.countP p ≤ e) ∧ r.countP p ≤ e := by
        simpa using List.all_eq_true.1 hsep _ hmem
      have havoid {u : List Char} (hp : ∀ c ∈ u, p c = true) : c ∉ u := by
        intro hcu
        rw [hp c hcu] at hc
        cases hc
      have hfront : (s ++ l).countP p ≤ n + e := by
        rw [List.countP_append]
        exact Nat.add_le_add hn hl
      rw [← List.append_assoc]
      refine ⟨fun u hu hp => ?_, fun u hu hp => ?_⟩
      · exact Nat.le_trans
          (length_le_countP (prefix_of_not_mem hu (havoid hp)).sublist hp) hfront
      · obtain hu | hu := infix_of_not_mem hu (havoid hp)
        · exact Nat.le_trans (length_le_countP hu.sublist hp) (by omega)
        · obtain hu | hu | ⟨v, w, rfl, hv, hw⟩ := List.infix_append_iff.1 hu
          · exact Nat.le_trans (length_le_countP hu.sublist hp) (by omega)
          · exact ih.2 u hu hp
          · -- the run starts in the separator and ends in the next name
            obtain ⟨hpv, hpw⟩ := List.forall_mem_append.1 hp
            have hbefore := Nat.le_trans (length_le_countP hv.sublist hpv) hr
            rw [List.length_append]
            exact Nat.add_le_add hbefore (ih.1 w hw hpw)

end Runs

end Strung

/-! ## 3. The names of an instance -/

/-- All names in an instance have a property, those in bounds included. -/
inductive Ty.AllNames (P : String → Prop) : Ty → Prop
  | app {head : String} {args : List Ty} (hhead : P head) (hargs : ∀ t ∈ args, AllNames P t) :
      AllNames P (.app ⟨head, args⟩)
  | var {name : String} {lower upper : List (App Ty)} (hname : P name)
      (hlower : ∀ a ∈ lower, AllNames P (.app a)) (hupper : ∀ a ∈ upper, AllNames P (.app a)) :
      AllNames P (.var ⟨name, lower, upper⟩)

theorem Ty.AllNames.imp {P Q : String → Prop} (hPQ : ∀ s, P s → Q s) {t : Ty}
    (h : t.AllNames P) : t.AllNames Q := by
  induction h with
  | app hhead _ ih => exact .app (hPQ _ hhead) ih
  | var hname _ _ ihl ihu => exact .var (hPQ _ hname) ihl ihu

/-- Names that are read are texts of tokens. -/
theorem Expr.Derivation.allNames_reading {s : Symbol} {P : String → Prop} (d : Derivation s)
    (h : ∀ x ∈ d.yield, P x.text) : ∀ t ∈ d.reading, t.AllNames P := by
  -- of the types in a list of bounds, the applications are kept
  have happ {tys : List Ty} (h : ∀ t ∈ tys, t.AllNames P) :
      ∀ a ∈ tys.filterMap Ty.app?, (Ty.app a).AllNames P := by
    intro a ha
    obtain ⟨t, ht, hta⟩ := List.mem_filterMap.1 ha
    cases t with
    | app b =>
        cases hta
        exact h _ ht
    | var v => cases hta
  have hnil : ∀ a ∈ ([] : List (App Ty)), (Ty.app a).AllNames P := List.forall_mem_nil _
  induction d with
  | var x => exact List.forall_mem_singleton.2 (.var (h _ List.mem_cons_self) hnil hnil)
  | name f =>
      exact List.forall_mem_singleton.2 (.app (h _ List.mem_cons_self) (List.forall_mem_nil _))
  | apply f o _ c ih =>
      obtain ⟨hf, h⟩ := List.forall_mem_cons.1 h
      obtain ⟨hargs, -⟩ := List.forall_mem_append.1 (List.forall_mem_cons.1 h).2
      exact List.forall_mem_singleton.2 (.app hf (ih hargs))
  | last _ ih | one _ ih | several _ ih => exact ih h
  | more _ c _ iha ihs =>
      obtain ⟨ha, hs⟩ := List.forall_mem_append.1 h
      exact List.forall_mem_append.2 ⟨iha ha, ihs (List.forall_mem_cons.1 hs).2⟩
  | nothing => exact List.forall_mem_nil _
  | behind _ c ih => exact ih (List.forall_mem_append.1 h).1
  | low _ x o _ ihf ihs =>
      obtain ⟨hf, h⟩ := List.forall_mem_append.1 h
      obtain ⟨hx, h⟩ := List.forall_mem_cons.1 h
      have hs := happ (ihs (List.forall_mem_cons.1 h).2)
      exact List.forall_mem_append.2 ⟨ihf hf, List.forall_mem_singleton.2 (.var hx hs hnil)⟩
  | high _ x o _ ihf ihs =>
      obtain ⟨hf, h⟩ := List.forall_mem_append.1 h
      obtain ⟨hx, h⟩ := List.forall_mem_cons.1 h
      have hs := happ (ihs (List.forall_mem_cons.1 h).2)
      exact List.forall_mem_append.2 ⟨ihf hf, List.forall_mem_singleton.2 (.var hx hnil hs)⟩
  | between _ o x o' _ ihl ihu =>
      obtain ⟨hl, h⟩ := List.forall_mem_append.1 h
      obtain ⟨hx, h⟩ := List.forall_mem_cons.1 (List.forall_mem_cons.1 h).2
      have hu := happ (ihu (List.forall_mem_cons.1 h).2)
      exact List.forall_mem_singleton.2 (.var hx (happ (ihl hl)) hu)

/-! ## 4. Written forms -/

section Text

variable {P : List Char → Prop}

theorem strung_commaList {items : List String} (hne : items ≠ [])
    (h : ∀ s ∈ items, Strung P s.toList) : Strung P (commaList items).toList := by
  induction items with
  | nil => exact absurd rfl hne
  | cons s items ih =>
      rw [List.forall_mem_cons] at h
      cases items with
      | nil =>
          rw [commaList_singleton]
          exact h.1
      | cons s' items =>
          rw [commaList_cons_cons, String.toList_append, String.toList_append, List.append_assoc]
          exact h.1.link comma_mem (ih (List.cons_ne_nil _ _) h.2)

theorem strung_app {head : String} {items : List String} (hhead : P head.toList) (hnone : P [])
    (h : ∀ s ∈ items, Strung P s.toList) : Strung P (App.frame head items).toList := by
  cases items with
  | nil => exact .name hhead
  | cons s items =>
      have hin := strung_commaList (List.cons_ne_nil s items) h
      have hclosed : Strung P ((commaList (s :: items)).toList ++ ([']'] ++ [])) :=
        hin.link close_mem (.name hnone)
      rw [App.frame, String.toList_append, String.toList_append, String.toList_append,
        List.append_assoc, List.append_assoc]
      exact .more hhead open_mem hclosed

theorem strung_var {label : String} {lower upper : List String} (hlabel : P label.toList)
    (hl : ∀ s ∈ lower, Strung P s.toList) (hu : ∀ s ∈ upper, Strung P s.toList) :
    Strung P (Var.frame label lower upper).toList := by
  cases lower with
  | nil =>
      cases upper with
      | nil => exact .name hlabel
      | cons up ups =>
          have hupper := strung_commaList (List.cons_ne_nil up ups) hu
          rw [Var.frame, String.toList_append, String.toList_append, List.append_assoc]
          exact .more hlabel subtype_mem hupper
  | cons lo los =>
      have hlower := strung_commaList (List.cons_ne_nil lo los) hl
      cases upper with
      | nil =>
          rw [Var.frame, String.toList_append, String.toList_append, List.append_assoc]
          exact .more hlabel supertype_mem hlower
      | cons up ups =>
          have hupper := strung_commaList (List.cons_ne_nil up ups) hu
          rw [Var.frame, String.toList_append, String.toList_append, String.toList_append,
            String.toList_append, List.append_assoc, List.append_assoc, List.append_assoc]
          exact hlower.link subtype_mem (.more hlabel subtype_mem hupper)

/-- **The names stand between separators.** -/
theorem strung_text {t : Ty} (h : t.AllNames fun s => P s.toList) (hnone : P [])
    (hanon : P ['_']) : Strung P t.text.toList := by
  induction h with
  | app hhead _ ih =>
      rw [Ty.text_app, App.text_eq]
      exact strung_app hhead hnone (List.forall_mem_map.2 ih)
  | @var name lower upper hname _ _ ihl ihu =>
      have hlabel : P (Var.label ⟨name, lower, upper⟩).toList := by
        rw [Var.label]
        split
        · exact hanon
        · exact hname
      simp only [Ty.text_app] at ihl ihu
      rw [← Var.text, Var.text_eq]
      exact strung_var hlabel (List.forall_mem_map.2 ihl) (List.forall_mem_map.2 ihu)

end Text

/-! ## 5. Names and blanks in a written form -/

section Runs

variable {t : Ty} {n : Nat} {u : List Char}

/-- A run of letters and digits is no longer than what a name has of them. -/
theorem wordRun_le (h : t.AllNames fun s => s.toList.countP isWordChar ≤ n) (hn : 1 ≤ n)
    (hu : u <:+: t.text.toList) (hp : ∀ c ∈ u, isWordChar c = true) : u.length ≤ n := by
  have hstrung := strung_text (P := fun s => s.countP isWordChar ≤ n) h (Nat.zero_le n) hn
  have hsep : breaksRuns isWordChar 0 = true := rfl
  have hle := (hstrung.runs (fun s hs => hs) hsep).2 u hu hp
  omega

/-- A run of blanks is longer by the two of the separators at most. -/
theorem blankRun_le (h : t.AllNames fun s => s.toList.countP isBlank ≤ n)
    (hu : u <:+: t.text.toList) (hp : ∀ c ∈ u, isBlank c = true) : u.length ≤ n + 2 := by
  have hstrung := strung_text (P := fun s => s.countP isBlank ≤ n) h (Nat.zero_le n)
    (Nat.zero_le n)
  have hsep : breaksRuns isBlank 1 = true := rfl
  have hle := (hstrung.runs (fun s hs => hs) hsep).2 u hu hp
  omega

end Runs

/-- A token of a class is short, or a name, or blank. -/
theorem Expr.Kind.cases_of_spells {k : Kind} {s : List Char} (h : k.spells s = true) :
    s.length ≤ 2 ∨ (∀ c ∈ s, isWordChar c = true) ∨
      k.isTrivia = true ∧ ∀ c ∈ s, isBlank c = true := by
  cases k with
  | openBracket | closeBracket | comma | subtype | supertype =>
      rw [Kind.spells, beq_iff_eq] at h
      subst h
      exact .inl (by decide)
  | varName => exact .inr (.inl (isWordChar_of_isVarName h))
  | typeName => exact .inr (.inl (isWordChar_of_isTypeName h))
  | blank => exact .inr (.inr ⟨rfl, (spells_blank_iff.1 h).2⟩)
  | garbage => cases h

section Read

variable {text : String} {ps : List Piece} {t t' : Ty} {x : Token}

theorem infix_of_mem_tokens (hx : x ∈ tokens text) : x.text.toList <:+: text.toList := by
  obtain ⟨before, after, e, -⟩ := (partition_tokens text).cut x hx
  rw [e, ← List.append_assoc]
  exact List.infix_append before _ after

/-- **Where names have less than 4 GiB of letters and of blanks, what is read is shorter.** -/
theorem short_of_ofText (e : Ty.ofText t.text = some (.ok t'))
    (hword : t.AllNames fun s => s.toList.countP isWordChar < UInt32.size)
    (hblank : t.AllNames fun s => s.toList.countP isBlank + 2 < UInt32.size) :
    byteLength t.text.toList < UInt32.size := by
  obtain ⟨ps, hps, hkinds, -⟩ := exists_derivation e
  have hclean := clean_of_lex hps hkinds
  have hsize : 2 < UInt32.size := by decide
  refine short_of_lex hps fun x hx => ?_
  have hspells := spells_of_clean hclean hx
  rw [byteLength_of_ascii (utf8Size_of_spells hspells)]
  obtain hle | hrun | ⟨-, hrun⟩ := Kind.cases_of_spells hspells
  · omega
  · have hle := wordRun_le (n := UInt32.size - 1) (hword.imp fun s hs => by omega) (by omega)
      (infix_of_mem_tokens hx) hrun
    omega
  · have hle := blankRun_le (n := UInt32.size - 3) (hblank.imp fun s hs => by omega)
      (infix_of_mem_tokens hx) hrun
    omega

/-! ## 6. Names that have been read -/

theorem narrow_add_le (place width : Nat) : narrow (place + width) ≤ narrow place + width := by
  rw [narrow, narrow, ← Nat.mod_add_mod]
  exact Nat.mod_le _ _

/-- A piece is cut out of the first 4 GiB, and is no longer than the token that it stands for. -/
theorem filled_of_mem (e : lex text = some ps) (hkinds : ∀ p ∈ ps, p.kind ≠ .garbage) {p : Piece}
    (hp : p ∈ ps) : ∃ x ∈ tokens text, x.kind = p.kind ∧
      (p.filled text.toList).text.toList.length ≤ x.text.toList.length ∧
        (p.filled text.toList).text.toList.length < UInt32.size ∧
          (p.filled text.toList).text.toList.Sublist (text.toList.take UInt32.size) := by
  have hclean := clean_of_lex e hkinds
  have hascii := utf8Size_of_tokens hclean
  obtain ⟨x, hx, hnarrowed⟩ := forall₂_exists_left (forall₂_of_lex e) hp
  obtain ⟨hle, hstop⟩ := (ordered_lex e).1 p hp
  obtain ⟨-, rfl⟩ := Token.narrowed_eq_some hnarrowed
  rw [byteLength_of_ascii hascii] at hstop
  have hcut := slice_of_ascii hascii hle hstop
  simp only at hle hstop hcut
  have hwidth : narrow x.stop - narrow x.start ≤ x.text.toList.length := by
    have hlen := byteLength_of_ascii (utf8Size_of_spells (spells_of_clean hclean hx))
    rw [Token.stop, hlen]
    exact Nat.sub_le_iff_le_add'.2 (narrow_add_le _ _)
  have hlt : narrow x.stop < UInt32.size := Nat.mod_lt _ (by decide)
  refine ⟨x, hx, rfl, ?_⟩
  rw [Piece.filled, hcut, Option.getD_some, String.toList_ofList, List.length_take,
    List.length_drop]
  refine ⟨by omega, by omega, ?_⟩
  rw [← List.drop_take]
  exact (List.drop_sublist _ _).trans (List.take_prefix_take_left (Nat.le_of_lt hlt)).sublist

/-- The names of an instance that has been read are texts of pieces. -/
theorem exists_pieces (e : Ty.ofText text = some (.ok t)) :
    ∃ ps, lex text = some ps ∧ (∀ p ∈ ps, p.kind ≠ .garbage) ∧ ∀ P : String → Prop,
      (∀ p ∈ ps, p.kind.isTrivia = false → P (p.filled text.toList).text) → t.AllNames P := by
  obtain ⟨ps, hps, hkinds, d, hyield, -, hreading⟩ := exists_derivation e
  refine ⟨ps, hps, hkinds, fun P hP => d.allNames_reading ?_ t (hreading ▸ List.mem_cons_self)⟩
  rw [hyield, List.forall_mem_map]
  intro p hp
  obtain ⟨hp, htrivia⟩ := List.mem_filter.1 hp
  exact hP p hp (Bool.not_eq_true' _ ▸ htrivia)

/-- **Names that have been read are shorter than 4 GiB**, whatever the text. -/
theorem shortNames_of_ofText (e : Ty.ofText text = some (.ok t)) :
    t.AllNames fun s => s.toList.length < UInt32.size := by
  obtain ⟨ps, hps, hkinds, hnames⟩ := exists_pieces e
  refine hnames _ fun p hp _ => ?_
  obtain ⟨_, -, -, -, hlt, -⟩ := filled_of_mem hps hkinds hp
  exact hlt

theorem not_isBlank_of_isWordChar {c : Char} (h : isWordChar c = true) : ¬ isBlank c = true := by
  intro hblank
  simp only [isBlank, Bool.or_eq_true, beq_iff_eq] at hblank
  obtain ((rfl | rfl) | rfl) | rfl := hblank <;> cases h

theorem countP_blank_add_countP_word (cs : List Char) :
    cs.countP isBlank + cs.countP isWordChar ≤ cs.length := by
  rw [List.length_eq_countP_add_countP isBlank]
  refine Nat.add_le_add_left (List.countP_mono_left fun c _ hword => ?_) _
  exact decide_eq_true (not_isBlank_of_isWordChar hword)

/-- **No instance is read back from 4 GiB or more.** -/
theorem short_of_readBack (e : Ty.ofText t.text = some (.ok t)) :
    byteLength t.text.toList < UInt32.size := by
  obtain ⟨ps, hps, hkinds, hnames⟩ := exists_pieces e
  have hclean := clean_of_lex hps hkinds
  have hroom := Nat.le_trans (countP_blank_add_countP_word (t.text.toList.take UInt32.size))
    (List.length_take_le _ _)
  have hsize : 4 < UInt32.size := by decide
  refine short_of_ofText e
    ((shortNames_of_ofText e).imp fun s hs => Nat.lt_of_le_of_lt List.countP_le_length hs)
    (hnames _ fun p hp htrivia => ?_)
  obtain ⟨x, hx, hkind, hlen, -, hsub⟩ := filled_of_mem hps hkinds hp
  by_cases hfull : (t.text.toList.take UInt32.size).countP isBlank + 2 < UInt32.size
  · exact Nat.lt_of_le_of_lt (Nat.add_le_add_right hsub.countP_le 2) hfull
  · -- blanks leave room for two letters: so names have two at most, and tokens that are names
    have hfew : t.AllNames fun s => s.toList.countP isWordChar ≤ 2 := hnames _ fun q hq _ => by
      obtain ⟨_, -, -, -, -, hsub⟩ := filled_of_mem hps hkinds hq
      have hle := hsub.countP_le (p := isWordChar)
      omega
    have hxlen : x.text.toList.length ≤ 2 := by
      obtain hle | hrun | ⟨hblank, -⟩ := Kind.cases_of_spells (spells_of_clean hclean hx)
      · exact hle
      · exact wordRun_le hfew (by decide) (infix_of_mem_tokens hx) hrun
      · rw [hkind, htrivia] at hblank
        cases hblank
    have hle : (p.filled t.text.toList).text.toList.countP isBlank ≤ _ := List.countP_le_length
    omega

/-! ## 7. Names that can be written -/

theorem words_of_isExpressible (ht : t.isExpressible = true) :
    t.AllNames fun s => ∀ c ∈ s.toList, isWordChar c = true := by
  have happ {a : App Ty} (ha : a.isExpressible = true)
      (ih : ∀ t ∈ a.args, t.isExpressible = true →
        t.AllNames fun s => ∀ c ∈ s.toList, isWordChar c = true) :
      (Ty.app a).AllNames fun s => ∀ c ∈ s.toList, isWordChar c = true := by
    obtain ⟨hhead, -, hargs⟩ := App.isExpressible_iff.1 ha
    exact .app (isWordChar_of_isTypeName hhead) fun t hmem => ih t hmem (hargs t hmem)
  induction t using Ty.induct with
  | app head args ih =>
      rw [Ty.isExpressible] at ht
      exact happ ht ih
  | var name lower upper ihl ihu =>
      obtain ⟨hname, hl, hu⟩ := Var.isExpressible_iff.1 ht
      exact .var (isWordChar_of_isVarName hname) (fun a ha => happ (hl a ha) (ihl a ha))
        fun a ha => happ (hu a ha) (ihu a ha)

/-- An instance that can be written, with names that are shorter than 4 GiB. -/
structure Ty.Writable (t : Ty) : Prop where
  expressible : t.isExpressible = true
  short : t.AllNames fun s => s.toList.length < UInt32.size

/-- **Where names are shorter than 4 GiB, nothing is read from a written form that is longer**, not
    even another instance. -/
theorem Ty.Writable.short_text (ht : t.Writable) (e : Ty.ofText t.text = some (.ok t')) :
    byteLength t.text.toList < UInt32.size := by
  refine short_of_ofText e ?_ ?_
  · exact ht.short.imp fun s hs => Nat.lt_of_le_of_lt List.countP_le_length hs
  · refine (words_of_isExpressible ht.expressible).imp fun s hs => ?_
    have hnone : s.toList.countP isBlank = 0 :=
      List.countP_eq_zero.2 fun c hc => not_isBlank_of_isWordChar (hs c hc)
    rw [hnone]
    decide

end Read

end Lineage

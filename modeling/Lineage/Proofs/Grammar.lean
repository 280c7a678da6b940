import Lineage.Proofs.Reading
import Lineage.Proofs.Monadic

/-!
# The grammar of type expressions

    whole      ::=  atom   |  bounded  |  between
    arguments  ::=  atoms  |  bounded  |  atoms `,` bounded  |  between
    between    ::=  atoms `<:` VAR `<:` atoms
    bounded    ::=  VAR `>:` atoms  |  VAR `<:` atoms
    atoms      ::=  atom (`,` atom)*
    atom       ::=  VAR  |  NAME  |  NAME `[` arguments `]`

A phrase is a relation between the tokens at a place, what they stand for, and the tokens behind
the phrase. The phrases of one level of brackets are built from those of the next, and as many
levels as may be opened are stacked (`Arguments`).

The reader gives what the grammar derives (`typeList_sound`), and it misses nothing that can not go
on (`typeList_complete`). Together they say what is read from a text (`single_eq_ok`).
-/

namespace Lineage.Expr

/-! ## 1. Phrases -/

/-- What tokens stand for, and the tokens behind it. -/
abbrev Phrase (α : Type) := List Token → α → List Token → Prop

/-- A variable, or a name with what stands in its brackets. -/
inductive Atom (I : Phrase (List Ty)) : List Token → Ty → List Token → Prop
  | var {x : Token} {rest : List Token} (hx : x.kind = .varName) :
      Atom I (x :: rest) (.var (.free x.text)) rest
  | name {f : Token} {rest : List Token} (hf : f.kind = .typeName) :
      Atom I (f :: rest) (.app ⟨f.text, []⟩) rest
  | apply {f o c : Token} {ts rest : List Token} {args : List Ty} (hf : f.kind = .typeName)
      (ho : o.kind = .openBracket) (ha : I ts args (c :: rest)) (hc : c.kind = .closeBracket) :
      Atom I (f :: o :: ts) (.app ⟨f.text, args⟩) rest

/-- Atoms with commas between them. -/
inductive Atoms (I : Phrase (List Ty)) : List Token → List Ty → List Token → Prop
  | last {ts rest : List Token} {t : Ty} (h : Atom I ts t rest) : Atoms I ts [t] rest
  | more {c : Token} {ts ts' rest : List Token} {t : Ty} {tys : List Ty}
      (h : Atom I ts t (c :: ts')) (hc : c.kind = .comma) (hs : Atoms I ts' tys rest) :
      Atoms I ts (t :: tys) rest

/-- A variable with bounds on one side. -/
inductive Bounded (I : Phrase (List Ty)) : List Token → Ty → List Token → Prop
  | low {x o : Token} {ts rest : List Token} {tys : List Ty} (hx : x.kind = .varName)
      (ho : o.kind = .supertype) (hs : Atoms I ts tys rest) :
      Bounded I (x :: o :: ts) (.var (.bounded x.text tys [])) rest
  | high {x o : Token} {ts rest : List Token} {tys : List Ty} (hx : x.kind = .varName)
      (ho : o.kind = .subtype) (hs : Atoms I ts tys rest) :
      Bounded I (x :: o :: ts) (.var (.bounded x.text [] tys)) rest

/-- The types at a place. -/
inductive TypeList (I : Phrase (List Ty)) : Place → List Token → List Ty → List Token → Prop
  | atom {ts rest : List Token} {t : Ty} (h : Atom I ts t rest) : TypeList I .whole ts [t] rest
  | atoms {ts rest : List Token} {tys : List Ty} (h : Atoms I ts tys rest) :
      TypeList I .brackets ts tys rest
  | bounded {p : Place} {ts rest : List Token} {t : Ty} (h : Bounded I ts t rest) :
      TypeList I p ts [t] rest
  | behind {c : Token} {ts ts' rest : List Token} {t : Ty} {tys : List Ty}
      (h : Atoms I ts tys (c :: ts')) (hc : c.kind = .comma) (hb : Bounded I ts' t rest) :
      TypeList I .brackets ts (tys ++ [t]) rest
  | between {p : Place} {o x o' : Token} {ts ts' rest : List Token} {lower upper : List Ty}
      (hl : Atoms I ts lower (o :: x :: o' :: ts')) (ho : o.kind = .subtype)
      (hx : x.kind = .varName) (ho' : o'.kind = .subtype) (hu : Atoms I ts' upper rest) :
      TypeList I p ts [.var (.bounded x.text lower upper)] rest

/-- What stands in brackets, while the given number of levels may be opened. -/
def Arguments : Nat → Phrase (List Ty)
  | 0 => fun _ _ _ => False
  | depth + 1 => TypeList (Arguments depth) .brackets

section Phrases

variable {I : Phrase (List Ty)} {ts rest : List Token} {t : Ty} {tys front : List Ty} {v : Var Ty}

theorem Atom.eq_var (h : Atom I ts (.var v) rest) :
    ∃ x, x.kind = .varName ∧ v = .free x.text ∧ ts = x :: rest := by
  cases h with
  | var hx => exact ⟨_, hx, rfl, rfl⟩

theorem Bounded.exists_var (h : Bounded I ts t rest) :
    ∃ x us, ts = x :: us ∧ x.kind = .varName := by
  cases h with
  | low hx => exact ⟨_, _, rfl, hx⟩
  | high hx => exact ⟨_, _, rfl, hx⟩

theorem Atoms.ne_nil (h : Atoms I ts tys rest) : tys ≠ [] := by
  cases h <;> exact List.cons_ne_nil _ _

theorem Atoms.single (h : Atoms I ts [t] rest) : Atom I ts t rest := by
  cases h with
  | last h => exact h
  | more _ _ hs => exact absurd rfl hs.ne_nil

theorem Atoms.concat {c : Token} {ts' : List Token} (h : Atoms I ts tys (c :: ts'))
    (hc : c.kind = .comma) (ht : Atom I ts' t rest) : Atoms I ts (tys ++ [t]) rest := by
  generalize hr : c :: ts' = r at h
  induction h with
  | last h =>
      subst hr
      exact .more h hc (.last ht)
  | more h hc' _ ih => exact .more h hc' (ih hr)

/-- The last of several atoms stands behind a comma. -/
theorem Atoms.of_concat (h : Atoms I ts (front ++ [t]) rest) :
    (front = [] ∧ Atom I ts t rest) ∨
      ∃ c ts', Atoms I ts front (c :: ts') ∧ c.kind = .comma ∧ Atom I ts' t rest := by
  induction front generalizing ts with
  | nil => exact .inl ⟨rfl, h.single⟩
  | cons f front ih =>
      generalize hl : f :: front ++ [t] = l at h
      cases h with
      | last h => simp at hl
      | more h hc hs =>
          obtain ⟨rfl, rfl⟩ := List.cons.inj hl
          obtain ⟨rfl, ht⟩ | ⟨c', ts', hfront, hc', ht⟩ := ih hs
          · exact .inr ⟨_, _, .last h, hc, ht⟩
          · exact .inr ⟨c', ts', .more h hc hfront, hc', ht⟩

/-- Bounds behind a list of atoms belong to the last one, which has to be a variable. -/
theorem TypeList.of_concat {p : Place} {ts' : List Token} (hp : p = .whole → front = [])
    (h : Atoms I ts (front ++ [.var v]) ts')
    (hb : ∀ x : Token, x.kind = .varName → x.text = v.name → Bounded I (x :: ts') t rest) :
    TypeList I p ts (front ++ [t]) rest := by
  obtain ⟨rfl, hv⟩ | ⟨c, us, hfront, hc, hv⟩ := h.of_concat
  · obtain ⟨x, hx, rfl, rfl⟩ := hv.eq_var
    exact .bounded (hb x hx rfl)
  · obtain ⟨x, hx, rfl, rfl⟩ := hv.eq_var
    cases p with
    | whole => exact absurd (hp rfl) hfront.ne_nil
    | brackets => exact .behind hfront hc (hb x hx rfl)

/-! ### What is left over -/

variable (hI : ∀ {ts tys rest}, I ts tys rest → rest <:+ ts)
include hI

theorem Atom.suffix (h : Atom I ts t rest) : rest <:+ ts := by
  cases h with
  | var => exact List.suffix_cons _ _
  | name => exact List.suffix_cons _ _
  | apply _ _ ha _ =>
      refine ((List.suffix_cons _ _).trans (hI ha)).trans ?_
      exact ⟨[_, _], rfl⟩

theorem Atoms.suffix (h : Atoms I ts tys rest) : rest <:+ ts := by
  induction h with
  | last h => exact h.suffix hI
  | more h _ _ ih => exact ih.trans ((List.suffix_cons _ _).trans (h.suffix hI))

theorem Bounded.suffix (h : Bounded I ts t rest) : rest <:+ ts := by
  cases h with
  | low _ _ hs => exact (hs.suffix hI).trans ⟨[_, _], rfl⟩
  | high _ _ hs => exact (hs.suffix hI).trans ⟨[_, _], rfl⟩

theorem TypeList.suffix {p : Place} (h : TypeList I p ts tys rest) : rest <:+ ts := by
  cases h with
  | atom h => exact h.suffix hI
  | atoms h => exact h.suffix hI
  | bounded h => exact h.suffix hI
  | behind h _ hb => exact (hb.suffix hI).trans ((List.suffix_cons _ _).trans (h.suffix hI))
  | between hl _ _ _ hu =>
      refine (hu.suffix hI).trans (List.IsSuffix.trans ?_ (hl.suffix hI))
      exact ⟨[_, _, _], rfl⟩

end Phrases

/-- The reader of what stands in brackets fits the phrase. -/
structure Reads (inner : Reader (List Ty)) (I : Phrase (List Ty)) : Prop where
  sound : ∀ {ts rest : List Token} {tys : List Ty}, inner ts = .ok (tys, rest) → I ts tys rest
  complete : ∀ {ts rest : List Token} {tys : List Ty} {c : Token}, I ts tys (c :: rest) →
    c.kind = .closeBracket → inner ts = .ok (tys, c :: rest)
  suffix : ∀ {ts rest : List Token} {tys : List Ty}, I ts tys rest → rest <:+ ts

/-! ## 2. What is read is derived -/

section Sound

variable {stop n : Nat} {inner : Reader (List Ty)} {I : Phrase (List Ty)} {p : Place}
  {item first : Item} {items front : List Item} {ts rest : List Token} {tys args : List Ty}

theorem closing_sound {f o : Token} (e : closing stop f o args ts = .ok (item, rest)) :
    ∃ c, c.kind = .closeBracket ∧ ts = c :: rest ∧ item.ty = .app ⟨f.text, args⟩ := by
  cases ts with
  | nil => cases e
  | cons c ts =>
      rw [closing] at e
      split at e
      case isTrue hc =>
        cases e
        exact ⟨c, hc, rfl, rfl⟩
      case isFalse => cases e

/-- The variable that heads a list of bounds is the last item. -/
theorem head_sound {k : Kind} {name : String} (e : head p k first items = .ok (front, name)) :
    ∃ v : Var Ty, v.name = name ∧ types (first :: items) = types front ++ [.var v] ∧
      (p = .whole → front = []) := by
  have hsplit := List.dropLast_append_getLast (List.cons_ne_nil first items)
  unfold head at e
  dsimp only at e
  split at e
  case h_1 => cases e
  case h_2 v hv =>
    have htypes : types (first :: items) = types (first :: items).dropLast ++ [.var v] := by
      rw [← hv, types, types, ← List.map_singleton, ← List.map_append, hsplit]
    split at e
    case h_1 => cases e
    case h_2 hplace =>
      cases e
      refine ⟨v, rfl, htypes, fun hp => ?_⟩
      cases hfront : (first :: items).dropLast with
      | nil => rfl
      | cons extra more => exact (hplace extra more hp hfront).elim

theorem middle_sound {name : String} (e : middle first items = .ok name)
    (h : Atoms I ts (types (first :: items)) rest) :
    ∃ x : Token, x.kind = .varName ∧ x.text = name ∧ ts = x :: rest := by
  cases items with
  | cons extra more => cases e
  | nil =>
      rw [middle] at e
      split at e
      case h_1 v hv =>
        cases e
        rw [types, List.map_singleton, hv] at h
        obtain ⟨x, hx, rfl, rfl⟩ := h.single.eq_var
        exact ⟨x, hx, rfl, rfl⟩
      case h_2 => cases e

theorem bounds_sound {k : Kind} {name : String} {t : Ty} {ts' : List Token}
    (e : head p k first items = .ok (front, name)) (h : Atoms I ts (types (first :: items)) ts')
    (hb : ∀ x : Token, x.kind = .varName → x.text = name → Bounded I (x :: ts') t rest) :
    TypeList I p ts (types front ++ [t]) rest := by
  obtain ⟨v, rfl, htypes, hp⟩ := head_sound e
  rw [htypes] at h
  exact .of_concat (fun hw => by rw [hp hw]; rfl) h hb

theorem unbounded_sound (e : unbounded p first items = .ok tys)
    (h : Atoms I ts (types (first :: items)) rest) : TypeList I p ts tys rest := by
  unfold unbounded at e
  split at e
  case h_1 => cases e
  case h_2 hplace =>
    cases e
    cases p with
    | brackets => exact .atoms h
    | whole =>
        cases items with
        | cons extra more => exact (hplace extra more rfl rfl).elim
        | nil => exact .atom h.single

variable (R : Reads inner I)
include R

theorem application_sound {f : Token} (hf : f.kind = .typeName)
    (e : application stop inner f ts = .ok (item, rest)) : Atom I (f :: ts) item.ty rest := by
  cases ts with
  | nil =>
      cases e
      exact .name hf
  | cons o ts =>
      rw [application] at e
      split at e
      case isTrue ho =>
        obtain ⟨⟨args, ts'⟩, ha, e⟩ := bind_eq_ok.1 e
        obtain ⟨c, hc, rfl, hty⟩ := closing_sound e
        rw [hty]
        exact .apply hf ho (R.sound ha) hc
      case isFalse =>
        cases e
        exact .name hf

theorem atom_sound (e : atom stop inner ts = .ok (item, rest)) : Atom I ts item.ty rest := by
  cases ts with
  | nil => cases e
  | cons x ts =>
      rw [atom] at e
      split at e
      case h_1 hx =>
        cases e
        exact .var hx
      case h_2 hx => exact application_sound R hx e
      case h_3 => cases e
      case h_4 => cases e

/-- What is read behind commas goes on with the atom before it. -/
theorem moreAtoms_sound {ts₀ : List Token} {t : Ty}
    (e : moreAtoms stop inner n ts = .ok (items, rest)) (h : Atom I ts₀ t ts) :
    Atoms I ts₀ (t :: types items) rest := by
  induction n generalizing ts ts₀ t items with
  | zero =>
      cases e
      exact .last h
  | succ n ih =>
      cases ts with
      | nil =>
          cases e
          exact .last h
      | cons c ts =>
          rw [moreAtoms] at e
          split at e
          case isTrue hc =>
            obtain ⟨⟨item, ts'⟩, hitem, e⟩ := bind_eq_ok.1 e
            obtain ⟨⟨items', ts''⟩, hmore, e⟩ := bind_eq_ok.1 e
            cases e
            exact .more h hc (ih hmore (atom_sound R hitem))
          case isFalse =>
            cases e
            exact .last h

theorem atoms_sound (e : atoms stop inner ts = .ok ((first, items), rest)) :
    Atoms I ts (types (first :: items)) rest := by
  obtain ⟨⟨item, ts'⟩, hitem, e⟩ := bind_eq_ok.1 e
  obtain ⟨⟨items', ts''⟩, hmore, e⟩ := bind_eq_ok.1 e
  cases e
  exact moreAtoms_sound R hmore (atom_sound R hitem)

theorem boundedBelow_sound {o : Token} (ho : o.kind = .supertype) {ts₀ : List Token}
    (h : Atoms I ts₀ (types (first :: items)) (o :: ts))
    (e : boundedBelow stop inner p o first items ts = .ok (tys, rest)) :
    TypeList I p ts₀ tys rest := by
  obtain ⟨⟨front, name⟩, hhead, e⟩ := bind_eq_ok.1 e
  obtain ⟨⟨⟨low, lows⟩, ts'⟩, hlow, e⟩ := bind_eq_ok.1 e
  cases e
  refine bounds_sound hhead h fun x hx hname => ?_
  rw [← hname]
  exact .low hx ho (atoms_sound R hlow)

theorem boundedAbove_sound {o : Token} (ho : o.kind = .subtype) {ts₀ : List Token}
    (h : Atoms I ts₀ (types (first :: items)) (o :: ts))
    (e : boundedAbove stop inner p o first items ts = .ok (tys, rest)) :
    TypeList I p ts₀ tys rest := by
  obtain ⟨⟨⟨second, seconds⟩, ts'⟩, hsecond, e⟩ := bind_eq_ok.1 e
  have hs := atoms_sound R hsecond
  -- after one operator only, the second list has the bounds
  have hsingle {front : List Item} {name : String}
      (hhead : head p o.kind first items = .ok (front, name)) : TypeList I p ts₀
        (types front ++ [.var (.bounded name [] (types (second :: seconds)))]) ts' := by
    refine bounds_sound hhead h fun x hx hname => ?_
    rw [← hname]
    exact .high hx ho hs
  dsimp only at e
  split at e
  case h_1 =>
    obtain ⟨⟨front, name⟩, hhead, e⟩ := bind_eq_ok.1 e
    cases e
    exact hsingle hhead
  case h_2 o' us =>
    split at e
    case isTrue ho' =>
      obtain ⟨name, hmid, e⟩ := bind_eq_ok.1 e
      obtain ⟨⟨⟨up, ups⟩, ts''⟩, hup, e⟩ := bind_eq_ok.1 e
      cases e
      obtain ⟨x, hx, rfl, rfl⟩ := middle_sound hmid hs
      exact .between h ho hx ho' (atoms_sound R hup)
    case isFalse =>
      obtain ⟨⟨front, name⟩, hhead, e⟩ := bind_eq_ok.1 e
      cases e
      exact hsingle hhead

theorem typeList_sound (e : typeList stop inner p ts = .ok (tys, rest)) :
    TypeList I p ts tys rest := by
  obtain ⟨⟨⟨first, items⟩, ts'⟩, hfirst, e⟩ := bind_eq_ok.1 e
  have h := atoms_sound R hfirst
  dsimp only at e
  split at e
  case h_1 =>
    obtain ⟨tys', hplain, e⟩ := bind_eq_ok.1 e
    cases e
    exact unbounded_sound hplain h
  case h_2 o us =>
    split at e
    case h_1 ho => exact boundedBelow_sound R ho h e
    case h_2 ho => exact boundedAbove_sound R ho h e
    case h_3 =>
      obtain ⟨tys', hplain, e⟩ := bind_eq_ok.1 e
      cases e
      exact unbounded_sound hplain h

end Sound

/-! ## 3. What is derived is read -/

/-- The next token, if there is one, is of none of these kinds. -/
def NotNext (kinds : List Kind) (ts : List Token) : Prop := ∀ t ∈ ts.head?, t.kind ∉ kinds

theorem notNext_nil {kinds : List Kind} : NotNext kinds [] := by
  simp [NotNext]

theorem notNext_of_kind {kinds : List Kind} {k : Kind} {t : Token} {ts : List Token}
    (ht : t.kind = k) (hk : k ∉ kinds) : NotNext kinds (t :: ts) := by
  simpa [NotNext, ht] using hk

theorem NotNext.kind_ne {kinds : List Kind} {k : Kind} {t : Token} {ts : List Token}
    (h : NotNext kinds (t :: ts)) (hk : k ∈ kinds) : t.kind ≠ k := by
  intro ht
  exact h t rfl (ht ▸ hk)

theorem NotNext.mono {kinds kinds' : List Kind} {ts : List Token} (h : NotNext kinds ts)
    (hk : kinds' ⊆ kinds) : NotNext kinds' ts :=
  fun t ht hmem => h t ht (hk hmem)

/-- What an atom does not go on with. -/
def afterAtom : List Kind := [.openBracket]

/-- What a list of atoms does not go on with. -/
def afterAtoms : List Kind := .comma :: afterAtom

/-- What a list of types does not go on with. -/
def afterTypes : List Kind := .subtype :: .supertype :: afterAtoms

section Complete

variable {stop n : Nat} {inner : Reader (List Ty)} {I : Phrase (List Ty)} {p : Place}
  {item first : Item} {items : List Item} {ts ts' rest : List Token} {t : Ty} {tys front : List Ty}
  {x o : Token} {v : Var Ty}

/-- The variable that heads a list of bounds is found. -/
theorem head_complete (k : Kind) (h : types (first :: items) = front ++ [.var v])
    (hp : p = .whole → front = []) :
    ∃ front', types front' = front ∧ head p k first items = .ok (front', v.name) := by
  obtain ⟨front', lasts, hsplit, hfront, hlast⟩ := List.map_eq_append_iff.1 h
  obtain ⟨last, rfl, hv⟩ := List.map_eq_singleton_iff.1 hlast
  have hdrop : (first :: items).dropLast = front' := by rw [hsplit, List.dropLast_concat]
  have hget : (first :: items).getLast (List.cons_ne_nil _ _) = last := by simp [hsplit]
  refine ⟨front', hfront, ?_⟩
  unfold head
  dsimp only
  rw [hget, hdrop, hv]
  cases p with
  | brackets => rfl
  | whole =>
      have hnil : front' = [] := List.map_eq_nil_iff.1 (hfront.trans (hp rfl))
      rw [hnil]

theorem moreAtoms_stop (hn : NotNext afterAtoms ts) : moreAtoms stop inner n ts = .ok ([], ts) := by
  cases n with
  | zero => rfl
  | succ n =>
      cases ts with
      | nil => rfl
      | cons c ts =>
          have hc : c.kind ≠ .comma := hn.kind_ne (by decide)
          rw [moreAtoms, if_neg hc]

/-! ### The operator behind the first list -/

theorem typeList_of_unbounded (e : atoms stop inner ts = .ok ((first, items), rest))
    (hn : NotNext afterTypes rest) (hu : unbounded p first items = .ok tys) :
    typeList stop inner p ts = .ok (tys, rest) := by
  unfold typeList
  rw [e]
  dsimp only [bind, Except.bind]
  cases rest with
  | nil => rw [hu]
  | cons o rest =>
      dsimp only
      split
      case h_1 hk => exact absurd hk (hn.kind_ne (by decide))
      case h_2 hk => exact absurd hk (hn.kind_ne (by decide))
      case h_3 => rw [hu]

theorem typeList_of_supertype (e : atoms stop inner ts = .ok ((first, items), o :: ts'))
    (ho : o.kind = .supertype) :
    typeList stop inner p ts = boundedBelow stop inner p o first items ts' := by
  unfold typeList
  rw [e]
  simp only [bind, Except.bind, ho]

theorem typeList_of_subtype (e : atoms stop inner ts = .ok ((first, items), o :: ts'))
    (ho : o.kind = .subtype) :
    typeList stop inner p ts = boundedAbove stop inner p o first items ts' := by
  unfold typeList
  rw [e]
  simp only [bind, Except.bind, ho]

theorem boundedBelow_of_head {front' : List Item} {name : String} {low : Item} {lows : List Item}
    (hh : head p o.kind first items = .ok (front', name))
    (e : atoms stop inner ts = .ok ((low, lows), rest)) :
    boundedBelow stop inner p o first items ts =
      .ok (types front' ++ [.var (.bounded name (types (low :: lows)) [])], rest) := by
  unfold boundedBelow
  rw [hh]
  show (atoms stop inner ts >>= _) = _
  rw [e]
  rfl

theorem boundedAbove_of_head {front' : List Item} {name : String} {up : Item} {ups : List Item}
    (hh : head p o.kind first items = .ok (front', name))
    (e : atoms stop inner ts = .ok ((up, ups), rest)) (hn : NotNext afterTypes rest) :
    boundedAbove stop inner p o first items ts =
      .ok (types front' ++ [.var (.bounded name [] (types (up :: ups)))], rest) := by
  unfold boundedAbove
  rw [e]
  dsimp only [bind, Except.bind]
  cases rest with
  | nil => rw [hh]
  | cons o' rest =>
      have ho' : o'.kind ≠ .subtype := hn.kind_ne (by decide)
      dsimp only
      rw [if_neg ho', hh]

theorem boundedAbove_of_middle {second up : Item} {seconds ups : List Item} {name : String}
    {ts'' : List Token} (e : atoms stop inner ts = .ok ((second, seconds), x :: ts'))
    (hx : x.kind = .subtype) (hm : middle second seconds = .ok name)
    (e' : atoms stop inner ts' = .ok ((up, ups), ts'')) :
    boundedAbove stop inner p o first items ts =
      .ok ([.var (.bounded name (types (first :: items)) (types (up :: ups)))], ts'') := by
  unfold boundedAbove
  rw [e]
  dsimp only [bind, Except.bind]
  rw [if_pos hx, hm]
  dsimp only
  rw [e']

variable (R : Reads inner I)
include R

theorem atom_complete (stop : Nat) (h : Atom I ts t rest) (hn : NotNext afterAtom rest) :
    ∃ span, atom stop inner ts = .ok (⟨t, span⟩, rest) := by
  cases h with
  | @var x _ hx => exact ⟨x.span, by simp only [atom, hx]⟩
  | @name f _ hf =>
      refine ⟨f.span, ?_⟩
      cases rest with
      | nil => simp only [atom, hf, application]
      | cons o rest =>
          have ho : o.kind ≠ .openBracket := hn.kind_ne (by decide)
          simp only [atom, hf, application, if_neg ho]
  | @apply f o c _ _ _ hf ho ha hc =>
      refine ⟨⟨f.start, c.stop⟩, ?_⟩
      simp only [atom, hf, application, if_pos ho, R.complete ha hc]
      exact if_pos hc

/-- The first atom of a list is read, and then the others, in any sufficient number of steps. -/
theorem moreAtoms_complete (stop : Nat) (h : Atoms I ts tys rest) (hn : NotNext afterAtoms rest) :
    ∃ first ts', atom stop inner ts = .ok (first, ts') ∧ ∀ n, ts'.length ≤ n →
      ∃ items, types (first :: items) = tys ∧ moreAtoms stop inner n ts' = .ok (items, rest) := by
  induction h with
  | last h =>
      obtain ⟨span, e⟩ := atom_complete R stop h (hn.mono (List.subset_cons_self _ _))
      exact ⟨_, _, e, fun n _ => ⟨[], rfl, moreAtoms_stop hn⟩⟩
  | @more c _ us _ t _ h hc hs ih =>
      have hcomma : NotNext afterAtom (c :: us) := notNext_of_kind hc (by decide)
      obtain ⟨span, e⟩ := atom_complete R stop h hcomma
      obtain ⟨second, vs, hsecond, hmore⟩ := ih hn
      refine ⟨_, _, e, fun n hlen => ?_⟩
      cases n with
      | zero => cases hlen
      | succ n =>
          -- the comma and the next atom take tokens, so the steps left over suffice
          have hvs : vs.length ≤ n :=
            Nat.le_trans ((atom_sound R hsecond).suffix R.suffix).length_le
              (Nat.le_of_succ_le_succ hlen)
          obtain ⟨items, htypes, hitems⟩ := hmore n hvs
          refine ⟨second :: items, by rw [← htypes]; rfl, ?_⟩
          rw [moreAtoms, if_pos hc, hsecond]
          show (moreAtoms stop inner n vs >>= _) = _
          rw [hitems]
          rfl

theorem atoms_complete (stop : Nat) (h : Atoms I ts tys rest) (hn : NotNext afterAtoms rest) :
    ∃ first items, types (first :: items) = tys ∧
      atoms stop inner ts = .ok ((first, items), rest) := by
  obtain ⟨first, ts', hfirst, hmore⟩ := moreAtoms_complete R stop h hn
  obtain ⟨items, htypes, hitems⟩ := hmore ts'.length (Nat.le_refl _)
  refine ⟨first, items, htypes, ?_⟩
  unfold atoms
  rw [hfirst]
  show (moreAtoms stop inner ts'.length ts' >>= _) = _
  rw [hitems]
  rfl

/-- Bounds on one side go to the last of the atoms before the operator. -/
theorem bounded_complete (stop : Nat) (front : List Ty)
    (h : Atoms I ts (front ++ [.var (.free x.text)]) ts') (hp : p = .whole → front = [])
    (hb : Bounded I (x :: ts') t rest) (hn : NotNext afterTypes rest) :
    typeList stop inner p ts = .ok (front ++ [t], rest) := by
  have hn' : NotNext afterAtoms rest := hn.mono (by simp [afterTypes])
  cases hb with
  | @low _ o us _ _ hx ho hs =>
      have hop : NotNext afterAtoms (o :: us) := notNext_of_kind ho (by decide)
      obtain ⟨first, items, htypes, e⟩ := atoms_complete R stop h hop
      obtain ⟨front', rfl, hh⟩ := head_complete o.kind htypes hp
      obtain ⟨low, lows, rfl, e'⟩ := atoms_complete R stop hs hn'
      rw [typeList_of_supertype e ho, boundedBelow_of_head hh e']
      rfl
  | @high _ o us _ _ hx ho hs =>
      have hop : NotNext afterAtoms (o :: us) := notNext_of_kind ho (by decide)
      obtain ⟨first, items, htypes, e⟩ := atoms_complete R stop h hop
      obtain ⟨front', rfl, hh⟩ := head_complete o.kind htypes hp
      obtain ⟨up, ups, rfl, e'⟩ := atoms_complete R stop hs hn'
      rw [typeList_of_subtype e ho, boundedAbove_of_head hh e' hn]
      rfl

/-- **What is derived is read**, if it can not go on. -/
theorem typeList_complete (stop : Nat) (h : TypeList I p ts tys rest)
    (hn : NotNext afterTypes rest) : typeList stop inner p ts = .ok (tys, rest) := by
  have hn' : NotNext afterAtoms rest := hn.mono (by simp [afterTypes])
  cases h with
  | atom h =>
      -- one atom is read as a list that has no second one
      obtain ⟨first, items, htypes, e⟩ := atoms_complete R stop (.last h) hn'
      obtain rfl : items = [] := List.map_eq_nil_iff.1 (List.cons.inj htypes).2
      exact typeList_of_unbounded e hn (congrArg Except.ok htypes)
  | atoms h =>
      obtain ⟨first, items, rfl, e⟩ := atoms_complete R stop h hn'
      exact typeList_of_unbounded e hn rfl
  | bounded h =>
      obtain ⟨x, us, rfl, hx⟩ := h.exists_var
      exact bounded_complete R stop [] (.last (.var hx)) (fun _ => rfl) h hn
  | behind h hc hb =>
      obtain ⟨x, us, rfl, hx⟩ := hb.exists_var
      exact bounded_complete R stop _ (h.concat hc (.var hx)) (fun hw => by cases hw) hb hn
  | @between _ o x o' _ us _ _ _ hl ho hx ho' hu =>
      have hop : NotNext afterAtoms (o :: x :: o' :: us) := notNext_of_kind ho (by decide)
      have hop' : NotNext afterAtoms (o' :: us) := notNext_of_kind ho' (by decide)
      obtain ⟨first, items, rfl, e⟩ := atoms_complete R stop hl hop
      obtain ⟨second, seconds, htypes, e'⟩ := atoms_complete R stop (.last (.var hx)) hop'
      obtain ⟨up, ups, rfl, e''⟩ := atoms_complete R stop hu hn'
      obtain ⟨hsecond, hnil⟩ := List.cons.inj htypes
      obtain rfl : seconds = [] := List.map_eq_nil_iff.1 hnil
      have hmid : middle second [] = .ok x.text := by
        rw [middle, hsecond]
        rfl
      rw [typeList_of_subtype e ho, boundedAbove_of_middle e' ho' hmid e'']

end Complete

/-- The reader of arguments fits the stacked phrases. -/
theorem reads_arguments (stop depth : Nat) : Reads (arguments stop depth) (Arguments depth) := by
  induction depth with
  | zero =>
      refine ⟨fun e => ?_, fun h => h.elim, fun h => h.elim⟩
      cases e
  | succ depth R =>
      refine ⟨typeList_sound R, fun h hc => typeList_complete R stop h ?_, TypeList.suffix R.suffix⟩
      exact notNext_of_kind hc (by decide)

/-- **What is read from a list of tokens is what the grammar derives from all of them.** -/
theorem single_eq_ok {stop : Nat} {ts : List Token} {t : Ty} :
    single stop ts = .ok t ↔ TypeList (Arguments maxDepth) .whole ts [t] [] := by
  have R := reads_arguments stop maxDepth
  unfold single
  constructor
  · intro e
    obtain ⟨⟨tys, rest⟩, htypes, e⟩ := bind_eq_ok.1 e
    dsimp only at e
    split at e
    case h_1 => cases e
    case h_2 =>
      split at e
      case h_1 =>
        cases e
        exact typeList_sound R htypes
      case h_2 => cases e
  · intro h
    rw [typeList_complete R stop h notNext_nil]
    rfl

end Lineage.Expr

import Lineage.Proofs.Grammar
import Lineage.Proofs.Wrapping

/-!
# Derivations

A derivation is a tree over the productions of the grammar, with the tokens themselves as leaves:

    whole      ::=  atom   |  VAR `>:` atoms  |  VAR `<:` atoms  |  atoms `<:` VAR `<:` atoms
    arguments  ::=  atoms  |  (atoms `,`)? VAR `>:` atoms  |  (atoms `,`)? VAR `<:` atoms
                           |  atoms `<:` VAR `<:` atoms
    atoms      ::=  atom (`,` atom)*
    atom       ::=  VAR  |  NAME  |  NAME `[` arguments `]`

Its leaves from left to right are its yield, and its brackets nest to some depth. What it stands for
is read off the tree, production by production.

No two derivations have one yield (`Derivation.eq_of_yield_eq`): the atoms up to the first operator
are settled by the tokens, and so is what follows them. A text is read as its derivation says.
-/

namespace Lineage.Expr

/-! ## 1. Trees -/

/-- A token of the given class. -/
abbrev Leaf (k : Kind) := {t : Token // t.kind = k}

/-- The symbols that productions expand. -/
inductive Symbol where
  | atom
  | atoms
  | leading (p : Place)
  | types (p : Place)

/-- The trees whose root is a given symbol. -/
inductive Derivation : Symbol → Type
  | var (x : Leaf .varName) : Derivation .atom
  | name (f : Leaf .typeName) : Derivation .atom
  | apply (f : Leaf .typeName) (o : Leaf .openBracket) (args : Derivation (.types .brackets))
      (c : Leaf .closeBracket) : Derivation .atom
  | last (a : Derivation .atom) : Derivation .atoms
  | more (a : Derivation .atom) (c : Leaf .comma) (as : Derivation .atoms) : Derivation .atoms
  /-- No arguments in front of a bounded variable. -/
  | nothing {p : Place} : Derivation (.leading p)
  /-- The arguments in front of a bounded variable. -/
  | behind (as : Derivation .atoms) (c : Leaf .comma) : Derivation (.leading .brackets)
  | one (a : Derivation .atom) : Derivation (.types .whole)
  | several (as : Derivation .atoms) : Derivation (.types .brackets)
  | low {p : Place} (front : Derivation (.leading p)) (x : Leaf .varName) (o : Leaf .supertype)
      (lower : Derivation .atoms) : Derivation (.types p)
  | high {p : Place} (front : Derivation (.leading p)) (x : Leaf .varName) (o : Leaf .subtype)
      (upper : Derivation .atoms) : Derivation (.types p)
  | between {p : Place} (lower : Derivation .atoms) (o : Leaf .subtype) (x : Leaf .varName)
      (o' : Leaf .subtype) (upper : Derivation .atoms) : Derivation (.types p)

namespace Derivation

/-- The tokens at the leaves, from left to right. -/
def yield : {s : Symbol} → Derivation s → List Token
  | _, var x => [x.1]
  | _, name f => [f.1]
  | _, apply f o args c => f.1 :: o.1 :: (args.yield ++ [c.1])
  | _, last a => a.yield
  | _, more a c as => a.yield ++ c.1 :: as.yield
  | _, nothing => []
  | _, behind as c => as.yield ++ [c.1]
  | _, one a => a.yield
  | _, several as => as.yield
  | _, low front x o lower => front.yield ++ x.1 :: o.1 :: lower.yield
  | _, high front x o upper => front.yield ++ x.1 :: o.1 :: upper.yield
  | _, between lower o x o' upper => lower.yield ++ o.1 :: x.1 :: o'.1 :: upper.yield

/-- How deep the brackets nest. -/
def nesting : {s : Symbol} → Derivation s → Nat
  | _, var _ => 0
  | _, name _ => 0
  | _, apply _ _ args _ => args.nesting + 1
  | _, last a => a.nesting
  | _, more a _ as => max a.nesting as.nesting
  | _, nothing => 0
  | _, behind as _ => as.nesting
  | _, one a => a.nesting
  | _, several as => as.nesting
  | _, low front _ _ lower => max front.nesting lower.nesting
  | _, high front _ _ upper => max front.nesting upper.nesting
  | _, between lower _ _ _ upper => max lower.nesting upper.nesting

/-- What the tree stands for. Of the types in a list of bounds only the applications count. -/
def reading : {s : Symbol} → Derivation s → List Ty
  | _, var x => [.var ⟨x.1.text, [], []⟩]
  | _, name f => [.app ⟨f.1.text, []⟩]
  | _, apply f _ args _ => [.app ⟨f.1.text, args.reading⟩]
  | _, last a => a.reading
  | _, more a _ as => a.reading ++ as.reading
  | _, nothing => []
  | _, behind as _ => as.reading
  | _, one a => a.reading
  | _, several as => as.reading
  | _, low front x _ lower =>
      front.reading ++ [.var ⟨x.1.text, lower.reading.filterMap Ty.app?, []⟩]
  | _, high front x _ upper =>
      front.reading ++ [.var ⟨x.1.text, [], upper.reading.filterMap Ty.app?⟩]
  | _, between lower _ x _ upper =>
      [.var ⟨x.1.text, lower.reading.filterMap Ty.app?, upper.reading.filterMap Ty.app?⟩]

/-! ## 2. The tokens settle the tree -/

/-- The atoms of a tree that stand outside its brackets. -/
def members : {s : Symbol} → Derivation s → List (Derivation .atom)
  | _, var x => [var x]
  | _, name f => [name f]
  | _, apply f o args c => [apply f o args c]
  | _, last a => a.members
  | _, more a _ as => a.members ++ as.members
  | _, nothing => []
  | _, behind as _ => as.members
  | _, one a => a.members
  | _, several as => as.members
  | _, low front x _ lower => front.members ++ var x :: lower.members
  | _, high front x _ upper => front.members ++ var x :: upper.members
  | _, between lower _ _ _ upper => lower.members ++ upper.members

theorem members_atom (a : Derivation .atom) : a.members = [a] := by
  cases a <;> rfl

/-- No other atom stands at the start of the same tokens, if neither could go on. -/
def Settled (a : Derivation .atom) : Prop :=
  ∀ a' r r', NotNext afterAtom r → NotNext afterAtom r' → a.yield ++ r = a'.yield ++ r' →
    a = a' ∧ r = r'

theorem leaf_ne {k k' : Kind} (hk : k ≠ k') (x : Leaf k) (y : Leaf k') : x.1 ≠ y.1 := by
  intro h
  exact hk (x.2.symm.trans ((congrArg Token.kind h).trans y.2))

/-! ### Lists of atoms -/

/-- Two lists of atoms at the start of the same tokens are one. -/
theorem atoms_settled {as as' : Derivation .atoms} {r r' : List Token}
    (h : ∀ a ∈ as.members, a.Settled) (hr : NotNext afterAtoms r) (hr' : NotNext afterAtoms r')
    (e : as.yield ++ r = as'.yield ++ r') : as = as' ∧ r = r' := by
  have hr₁ : NotNext afterAtom r := hr.mono (List.subset_cons_self _ _)
  have hr₁' : NotNext afterAtom r' := hr'.mono (List.subset_cons_self _ _)
  have hcomma (c : Leaf .comma) (ts : List Token) : NotNext afterAtom (c.1 :: ts) :=
    notNext_of_kind c.2 (by decide)
  match as, as' with
  | last a, last a' =>
      obtain ⟨rfl, rfl⟩ := h a (by simp [members, members_atom]) a' r r' hr₁ hr₁' e
      exact ⟨rfl, rfl⟩
  | last a, more a' c' as' =>
      -- the second list goes on with a comma, and the first one does not
      simp only [yield, List.append_assoc, List.cons_append] at e
      obtain ⟨-, rfl⟩ := h a (by simp [members, members_atom]) a' _ _ hr₁ (hcomma c' _) e
      exact absurd c'.2 (hr.kind_ne (by decide))
  | more a c as, last a' =>
      simp only [yield, List.append_assoc, List.cons_append] at e
      obtain ⟨-, rfl⟩ := h a (by simp [members, members_atom]) a' _ _ (hcomma c _) hr₁' e
      exact absurd c.2 (hr'.kind_ne (by decide))
  | more a c as, more a' c' as' =>
      simp only [yield, List.append_assoc, List.cons_append] at e
      obtain ⟨rfl, hrest⟩ :=
        h a (by simp [members, members_atom]) a' _ _ (hcomma c _) (hcomma c' _) e
      obtain ⟨hc, hrest⟩ := List.cons.inj hrest
      obtain ⟨rfl, rfl⟩ := atoms_settled (fun b hb => h b (by simp [members, hb])) hr hr' hrest
      exact ⟨by rw [Subtype.ext hc], rfl⟩

/-- A list of atoms with one more behind it. -/
def snoc : Derivation .atoms → Leaf .comma → Derivation .atom → Derivation .atoms
  | last a, c, b => more a c (last b)
  | more a c' as, c, b => more a c' (as.snoc c b)

theorem yield_snoc : ∀ (as : Derivation .atoms) (c : Leaf .comma) (b : Derivation .atom),
    (as.snoc c b).yield = as.yield ++ c.1 :: b.yield
  | last a, c, b => by simp [snoc, yield]
  | more a c' as, c, b => by simp [snoc, yield, yield_snoc as c b]

theorem members_snoc : ∀ (as : Derivation .atoms) (c : Leaf .comma) (b : Derivation .atom),
    (as.snoc c b).members = as.members ++ [b]
  | last a, c, b => by simp [snoc, members, members_atom]
  | more a c' as, c, b => by simp [snoc, members, members_snoc as c b]

theorem snoc_ne_last (as : Derivation .atoms) (c : Leaf .comma) (a b : Derivation .atom) :
    as.snoc c b ≠ last a := by
  cases as <;> simp [snoc]

theorem snoc_inj : ∀ {as as' : Derivation .atoms} {c c' : Leaf .comma} {b b' : Derivation .atom},
    as.snoc c b = as'.snoc c' b' → as = as' ∧ c = c' ∧ b = b'
  | last a, last a', c, c', b, b', e => by
      simp only [snoc, more.injEq, last.injEq] at e
      obtain ⟨rfl, rfl, rfl⟩ := e
      exact ⟨rfl, rfl, rfl⟩
  | last a, more a' d as', c, c', b, b', e => by
      simp only [snoc, more.injEq] at e
      exact absurd e.2.2.symm (snoc_ne_last as' c' b b')
  | more a d as, last a', c, c', b, b', e => by
      simp only [snoc, more.injEq] at e
      exact absurd e.2.2 (snoc_ne_last as c b' b)
  | more a d as, more a' d' as', c, c', b, b', e => by
      simp only [snoc, more.injEq] at e
      obtain ⟨rfl, rfl, e⟩ := e
      obtain ⟨rfl, rfl, rfl⟩ := snoc_inj e
      exact ⟨rfl, rfl, rfl⟩

/-! ### Lists of types -/

variable {p : Place}

/-- The atoms in front of a bounded variable and the variable behind them. -/
def headed : {p : Place} → Derivation (.leading p) → Leaf .varName → Derivation .atoms
  | _, nothing, x => last (var x)
  | _, behind as c, x => as.snoc c (var x)

theorem yield_headed (front : Derivation (.leading p)) (x : Leaf .varName) :
    (front.headed x).yield = front.yield ++ [x.1] := by
  cases front with
  | nothing => rfl
  | behind as c => simp [headed, yield_snoc, yield]

theorem members_headed (front : Derivation (.leading p)) (x : Leaf .varName) :
    (front.headed x).members = front.members ++ [var x] := by
  cases front with
  | nothing => rfl
  | behind as c => simp [headed, members_snoc, members]

theorem headed_inj {front front' : Derivation (.leading p)} {x x' : Leaf .varName}
    (e : front.headed x = front'.headed x') : front = front' ∧ x = x' := by
  cases front with
  | nothing =>
      cases front' with
      | nothing => simpa [headed] using e
      | behind as' c' => exact absurd e.symm (snoc_ne_last as' c' _ _)
  | behind as c =>
      cases front' with
      | nothing => exact absurd e (snoc_ne_last as c _ _)
      | behind as' c' =>
          obtain ⟨rfl, rfl, hx⟩ := snoc_inj e
          exact ⟨rfl, by simpa using hx⟩

/-- What stands behind the first list of atoms. -/
inductive Ending where
  | plain
  | low (o : Leaf .supertype) (lower : Derivation .atoms)
  | high (o : Leaf .subtype) (upper : Derivation .atoms)
  | between (o : Leaf .subtype) (x : Leaf .varName) (o' : Leaf .subtype) (upper : Derivation .atoms)

/-- The tokens of an ending. -/
def Ending.yield : Ending → List Token
  | plain => []
  | low o lower => o.1 :: lower.yield
  | high o upper => o.1 :: upper.yield
  | between o x o' upper => o.1 :: x.1 :: o'.1 :: upper.yield

/-- The atoms of an ending. -/
def Ending.members : Ending → List (Derivation .atom)
  | plain => []
  | low _ lower => lower.members
  | high _ upper => upper.members
  | between _ _ _ upper => upper.members

/-- The atoms up to the first operator. -/
def opening : {p : Place} → Derivation (.types p) → Derivation .atoms
  | _, one a => last a
  | _, several as => as
  | _, low front x _ _ => front.headed x
  | _, high front x _ _ => front.headed x
  | _, between lower _ _ _ _ => lower

/-- What stands behind these atoms. -/
def ending : {p : Place} → Derivation (.types p) → Ending
  | _, one _ => .plain
  | _, several _ => .plain
  | _, low _ _ o lower => .low o lower
  | _, high _ _ o upper => .high o upper
  | _, between _ o x o' upper => .between o x o' upper

theorem yield_eq (d : Derivation (.types p)) : d.yield = d.opening.yield ++ d.ending.yield := by
  cases d <;> simp [opening, ending, yield, Ending.yield, yield_headed]

theorem mem_members_of_opening {d : Derivation (.types p)} {a : Derivation .atom}
    (ha : a ∈ d.opening.members) : a ∈ d.members := by
  cases d with
  | one | several => exact ha
  | between => exact List.mem_append_left _ ha
  | low | high =>
      rw [opening, members_headed] at ha
      simp only [members, List.mem_append, List.mem_cons] at ha ⊢
      tauto

theorem mem_members_of_ending {d : Derivation (.types p)} {a : Derivation .atom}
    (ha : a ∈ d.ending.members) : a ∈ d.members := by
  cases d with
  | one | several => cases ha
  | between => exact List.mem_append_right _ ha
  | low | high => exact List.mem_append_right _ (List.mem_cons_of_mem _ ha)

/-- A list of types is settled by its first atoms and its ending. -/
theorem eq_of_opening_ending {d d' : Derivation (.types p)} (ho : d.opening = d'.opening)
    (he : d.ending = d'.ending) : d = d' := by
  cases d <;> cases d' <;> cases he
  case one.one => cases ho; rfl
  case several.several => cases ho; rfl
  case low.low =>
      obtain ⟨rfl, rfl⟩ := headed_inj ho
      rfl
  case high.high =>
      obtain ⟨rfl, rfl⟩ := headed_inj ho
      rfl
  case between.between => cases ho; rfl

theorem settled_var (x : Leaf .varName) : (var x).Settled := by
  intro a' r r' _ _ e
  cases a' with
  | var x' =>
      obtain ⟨hx, rfl⟩ := List.cons.inj e
      exact ⟨by rw [Subtype.ext hx], rfl⟩
  | name f => exact absurd (List.cons.inj e).1 (leaf_ne (by decide) x f)
  | apply f => exact absurd (List.cons.inj e).1 (leaf_ne (by decide) x f)

/-- Behind the first atoms, the operators tell the endings apart. The variable between two operators
    could also be an upper bound, but then the second operator would be left over. -/
theorem ending_settled {z z' : Ending} {r r' : List Token} (h : ∀ a ∈ z.members, a.Settled)
    (hr : NotNext afterTypes r) (hr' : NotNext afterTypes r')
    (e : z.yield ++ r = z'.yield ++ r') : z = z' ∧ r = r' := by
  have hs : NotNext afterAtoms r := hr.mono (by simp [afterTypes])
  have hs' : NotNext afterAtoms r' := hr'.mono (by simp [afterTypes])
  -- a variable before an operator is a whole list of atoms
  have hvar (x : Leaf .varName) (o : Leaf .subtype) {as : Derivation .atoms} {us r : List Token}
      (hr : NotNext afterTypes r) (e : (last (var x)).yield ++ o.1 :: us = as.yield ++ r) :
      False := by
    have hx : ∀ a ∈ (last (var x)).members, a.Settled :=
      List.forall_mem_singleton.2 (settled_var x)
    obtain ⟨-, rfl⟩ := atoms_settled hx (notNext_of_kind o.2 (by decide))
      (hr.mono (by simp [afterTypes])) e
    exact hr.kind_ne (by decide) o.2
  cases z with
  | plain =>
      cases z' with
      | plain => exact ⟨rfl, e⟩
      | low o | high o | between o =>
          subst e
          exact absurd o.2 (hr.kind_ne (by decide))
  | low o lower =>
      cases z' with
      | plain =>
          subst e
          exact absurd o.2 (hr'.kind_ne (by decide))
      | low o' lower' =>
          obtain ⟨ho, e⟩ := List.cons.inj e
          obtain ⟨rfl, rfl⟩ := atoms_settled h hs hs' e
          exact ⟨by rw [Subtype.ext ho], rfl⟩
      | high o' | between o' => exact absurd (List.cons.inj e).1 (leaf_ne (by decide) o o')
  | high o upper =>
      cases z' with
      | plain =>
          subst e
          exact absurd o.2 (hr'.kind_ne (by decide))
      | low o' => exact absurd (List.cons.inj e).1 (leaf_ne (by decide) o o')
      | high o' upper' =>
          obtain ⟨ho, e⟩ := List.cons.inj e
          obtain ⟨rfl, rfl⟩ := atoms_settled h hs hs' e
          exact ⟨by rw [Subtype.ext ho], rfl⟩
      | between _ x o' => exact (hvar x o' hr (List.cons.inj e).2.symm).elim
  | between o x o₂ upper =>
      cases z' with
      | plain =>
          subst e
          exact absurd o.2 (hr'.kind_ne (by decide))
      | low o' => exact absurd (List.cons.inj e).1 (leaf_ne (by decide) o o')
      | high _ upper' => exact (hvar x o₂ hr' (List.cons.inj e).2).elim
      | between o' x' o₂' upper' =>
          simp only [Ending.yield, List.cons_append, List.cons.injEq] at e
          obtain ⟨ho, hx, ho₂, e⟩ := e
          obtain ⟨rfl, rfl⟩ := atoms_settled h hs hs' e
          exact ⟨by rw [Subtype.ext ho, Subtype.ext hx, Subtype.ext ho₂], rfl⟩

/-- Two lists of types at the start of the same tokens are one. -/
theorem types_settled {d d' : Derivation (.types p)} {r r' : List Token}
    (h : ∀ a ∈ d.members, a.Settled) (hr : NotNext afterTypes r) (hr' : NotNext afterTypes r')
    (e : d.yield ++ r = d'.yield ++ r') : d = d' ∧ r = r' := by
  have hending (z : Ending) {r : List Token} (hr : NotNext afterTypes r) :
      NotNext afterAtoms (z.yield ++ r) := by
    cases z with
    | plain => exact hr.mono (by simp [afterTypes])
    | low o => exact notNext_of_kind o.2 (by decide)
    | high o => exact notNext_of_kind o.2 (by decide)
    | between o => exact notNext_of_kind o.2 (by decide)
  rw [yield_eq d, yield_eq d', List.append_assoc, List.append_assoc] at e
  obtain ⟨ho, e⟩ := atoms_settled (fun a ha => h a (mem_members_of_opening ha))
    (hending d.ending hr) (hending d'.ending hr') e
  obtain ⟨hz, hrest⟩ := ending_settled (fun a ha => h a (mem_members_of_ending ha)) hr hr' e
  exact ⟨eq_of_opening_ending ho hz, hrest⟩

theorem settled_name (f : Leaf .typeName) : (name f).Settled := by
  intro a' r r' hr _ e
  cases a' with
  | var x => exact absurd (List.cons.inj e).1 (leaf_ne (by decide) f x)
  | name f' =>
      obtain ⟨hf, rfl⟩ := List.cons.inj e
      exact ⟨by rw [Subtype.ext hf], rfl⟩
  | apply f' o =>
      obtain ⟨-, rfl⟩ := List.cons.inj e
      exact absurd o.2 (hr.kind_ne (by decide))

theorem settled_apply {args : Derivation (.types .brackets)} (h : ∀ a ∈ args.members, a.Settled)
    (f : Leaf .typeName) (o : Leaf .openBracket) (c : Leaf .closeBracket) :
    (apply f o args c).Settled := by
  intro a' r r' _ hr' e
  cases a' with
  | var x => exact absurd (List.cons.inj e).1 (leaf_ne (by decide) f x)
  | name f' =>
      obtain ⟨-, rfl⟩ := List.cons.inj e
      exact absurd o.2 (hr'.kind_ne (by decide))
  | apply f' o' args' c' =>
      simp only [yield, List.cons_append, List.append_assoc, List.nil_append, List.cons.injEq] at e
      obtain ⟨hf, ho, e⟩ := e
      obtain ⟨rfl, hrest⟩ := types_settled h (notNext_of_kind c.2 (by decide))
        (notNext_of_kind c'.2 (by decide)) e
      obtain ⟨hc, rfl⟩ := List.cons.inj hrest
      exact ⟨by rw [Subtype.ext hf, Subtype.ext ho, Subtype.ext hc], rfl⟩

/-- Every atom of every tree is settled. -/
theorem members_settled {s : Symbol} (d : Derivation s) : ∀ a ∈ d.members, a.Settled := by
  induction d with
  | var x => exact List.forall_mem_singleton.2 (settled_var x)
  | name f => exact List.forall_mem_singleton.2 (settled_name f)
  | apply f o args c ih => exact List.forall_mem_singleton.2 (settled_apply ih f o c)
  | last _ ih | behind _ _ ih | one _ ih | several _ ih => exact ih
  | nothing => exact List.forall_mem_nil _
  | more _ _ _ iha ihs => exact List.forall_mem_append.2 ⟨iha, ihs⟩
  | low _ x _ _ ihf ihs | high _ x _ _ ihf ihs =>
      exact List.forall_mem_append.2 ⟨ihf, List.forall_mem_cons.2 ⟨settled_var x, ihs⟩⟩
  | between _ _ _ _ _ ihl ihu => exact List.forall_mem_append.2 ⟨ihl, ihu⟩

/-- **No two derivations have one yield.** -/
theorem eq_of_yield_eq {d d' : Derivation (.types p)} (e : d.yield = d'.yield) : d = d' :=
  (types_settled (members_settled d) notNext_nil notNext_nil (by rw [e])).1

/-! ## 3. Trees and phrases -/

variable {n : Nat} {ts rest : List Token} {tys : List Ty} {t : Ty}

/-- The phrase that the trees of a symbol derive, while brackets nest at most so deep. -/
def Derives (n : Nat) : Symbol → Phrase (List Ty)
  | .atom => fun ts tys rest => ∃ t, tys = [t] ∧ Atom (Arguments n) ts t rest
  | .atoms => Atoms (Arguments n)
  | .leading p => fun ts tys rest => (tys = [] ∧ ts = rest) ∨
      p = .brackets ∧ ∃ c : Token, c.kind = .comma ∧ Atoms (Arguments n) ts tys (c :: rest)
  | .types p => TypeList (Arguments n) p

/-- A bounded variable behind what stands in front of it. -/
theorem derives_bounded (hf : Derives n (.leading p) ts tys rest)
    {rest' : List Token} (hb : Bounded (Arguments n) rest t rest') :
    TypeList (Arguments n) p ts (tys ++ [t]) rest' := by
  obtain ⟨rfl, rfl⟩ | ⟨rfl, c, hc, hf⟩ := hf
  · exact .bounded hb
  · exact .behind hf hc hb

/-- What a tree yields is a phrase that stands for what the tree says. -/
theorem derives {s : Symbol} (d : Derivation s) (hn : d.nesting ≤ n) (rest : List Token) :
    Derives n s (d.yield ++ rest) d.reading rest := by
  induction d generalizing n rest with
  | var x => exact ⟨_, rfl, .var x.2⟩
  | name f => exact ⟨_, rfl, .name f.2⟩
  | apply f o args c ih =>
      -- a level is left for the brackets
      obtain ⟨m, rfl⟩ := Nat.exists_eq_add_one.2 (Nat.lt_of_lt_of_le (Nat.succ_pos _) hn)
      have hargs := ih (Nat.le_of_succ_le_succ hn) (c.1 :: rest)
      refine ⟨_, rfl, ?_⟩
      simp only [yield, List.cons_append, List.append_assoc, List.nil_append]
      exact .apply f.2 o.2 hargs c.2
  | last a ih =>
      obtain ⟨t, ht, ha⟩ := ih hn rest
      simp only [yield, reading, ht]
      exact .last ha
  | more a c as iha ihs =>
      obtain ⟨hna, hns⟩ := Nat.max_le.1 hn
      obtain ⟨t, ht, ha⟩ := iha hna (c.1 :: (as.yield ++ rest))
      simp only [yield, reading, ht, List.append_assoc, List.cons_append]
      exact .more ha c.2 (ihs hns rest)
  | nothing => exact .inl ⟨rfl, rfl⟩
  | behind as c ih =>
      refine .inr ⟨rfl, c.1, c.2, ?_⟩
      simp only [yield, List.append_assoc, List.cons_append, List.nil_append]
      exact ih hn (c.1 :: rest)
  | one a ih =>
      obtain ⟨t, ht, ha⟩ := ih hn rest
      simp only [yield, reading, ht]
      exact .atom ha
  | several as ih => exact .atoms (ih hn rest)
  | low front x o lower ihf ihs =>
      obtain ⟨hnf, hns⟩ := Nat.max_le.1 hn
      simp only [yield, List.append_assoc, List.cons_append]
      exact derives_bounded (ihf hnf _) (.low x.2 o.2 (ihs hns rest))
  | high front x o upper ihf ihs =>
      obtain ⟨hnf, hns⟩ := Nat.max_le.1 hn
      simp only [yield, List.append_assoc, List.cons_append]
      exact derives_bounded (ihf hnf _) (.high x.2 o.2 (ihs hns rest))
  | between lower o x o' upper ihl ihu =>
      obtain ⟨hnl, hnu⟩ := Nat.max_le.1 hn
      simp only [yield, List.append_assoc, List.cons_append]
      exact .between (ihl hnl _) o.2 x.2 o'.2 (ihu hnu rest)

/-- Some tree of the symbol stands for the types and yields the tokens before the rest. -/
def Derived (n : Nat) (s : Symbol) : Phrase (List Ty) := fun ts tys rest =>
  ∃ d : Derivation s, ts = d.yield ++ rest ∧ d.nesting ≤ n ∧ d.reading = tys

section Derived

variable (hI : ∀ {ts tys rest}, Arguments n ts tys rest →
  ∃ m, m + 1 = n ∧ Derived m (.types .brackets) ts tys rest)
include hI

theorem derived_atom (h : Atom (Arguments n) ts t rest) : Derived n .atom ts [t] rest := by
  cases h with
  | @var x _ hx => exact ⟨.var ⟨x, hx⟩, rfl, Nat.zero_le n, rfl⟩
  | @name f _ hf => exact ⟨.name ⟨f, hf⟩, rfl, Nat.zero_le n, rfl⟩
  | @apply f o c _ _ _ hf ho ha hc =>
      obtain ⟨m, rfl, args, rfl, hn, rfl⟩ := hI ha
      exact ⟨.apply ⟨f, hf⟩ ⟨o, ho⟩ args ⟨c, hc⟩, by simp [yield], Nat.succ_le_succ hn, rfl⟩

theorem derived_atoms (h : Atoms (Arguments n) ts tys rest) : Derived n .atoms ts tys rest := by
  induction h with
  | last h =>
      obtain ⟨a, rfl, hn, ha⟩ := derived_atom hI h
      exact ⟨.last a, rfl, hn, ha⟩
  | @more c _ _ _ _ _ h hc _ ih =>
      obtain ⟨a, rfl, hna, ha⟩ := derived_atom hI h
      obtain ⟨as, rfl, hns, rfl⟩ := ih
      exact ⟨.more a ⟨c, hc⟩ as, by simp [yield], Nat.max_le.2 ⟨hna, hns⟩, by simp [reading, ha]⟩

theorem derived_bounded {rest' : List Token} (hf : Derived n (.leading p) ts tys rest)
    (h : Bounded (Arguments n) rest t rest') : Derived n (.types p) ts (tys ++ [t]) rest' := by
  obtain ⟨front, rfl, hnf, rfl⟩ := hf
  cases h with
  | @low x o _ _ _ hx ho hs =>
      obtain ⟨lower, rfl, hns, rfl⟩ := derived_atoms hI hs
      exact ⟨.low front ⟨x, hx⟩ ⟨o, ho⟩ lower, by simp [yield], Nat.max_le.2 ⟨hnf, hns⟩, rfl⟩
  | @high x o _ _ _ hx ho hs =>
      obtain ⟨upper, rfl, hns, rfl⟩ := derived_atoms hI hs
      exact ⟨.high front ⟨x, hx⟩ ⟨o, ho⟩ upper, by simp [yield], Nat.max_le.2 ⟨hnf, hns⟩, rfl⟩

theorem derived_types (h : TypeList (Arguments n) p ts tys rest) :
    Derived n (.types p) ts tys rest := by
  cases h with
  | atom h =>
      obtain ⟨a, rfl, hn, ha⟩ := derived_atom hI h
      exact ⟨.one a, rfl, hn, ha⟩
  | atoms h =>
      obtain ⟨as, rfl, hn, rfl⟩ := derived_atoms hI h
      exact ⟨.several as, rfl, hn, rfl⟩
  | bounded h =>
      have hnone : Derived n (.leading p) ts [] ts := ⟨.nothing, rfl, Nat.zero_le n, rfl⟩
      exact derived_bounded hI hnone h
  | @behind c _ _ _ _ _ h hc hb =>
      obtain ⟨as, rfl, hn, rfl⟩ := derived_atoms hI h
      exact derived_bounded hI ⟨.behind as ⟨c, hc⟩, by simp [yield], hn, rfl⟩ hb
  | @between _ o x o' _ _ _ _ _ hl ho hx ho' hu =>
      obtain ⟨lower, rfl, hnl, rfl⟩ := derived_atoms hI hl
      obtain ⟨upper, rfl, hnu, rfl⟩ := derived_atoms hI hu
      exact ⟨.between lower ⟨o, ho⟩ ⟨x, hx⟩ ⟨o', ho'⟩ upper, by simp [yield],
        Nat.max_le.2 ⟨hnl, hnu⟩, rfl⟩

end Derived

/-- Every phrase in brackets has a tree that opens fewer levels. -/
theorem derived_arguments (h : Arguments n ts tys rest) :
    ∃ m, m + 1 = n ∧ Derived m (.types .brackets) ts tys rest := by
  induction n generalizing ts tys rest with
  | zero => exact h.elim
  | succ m ih => exact ⟨m, rfl, derived_types ih h⟩

/-- **The phrases are the yields of trees**, with what the trees stand for. -/
theorem typeList_iff : TypeList (Arguments n) p ts tys [] ↔
    ∃ d : Derivation (.types p), d.yield = ts ∧ d.nesting ≤ n ∧ d.reading = tys := by
  constructor
  · intro h
    obtain ⟨d, rfl, hn, rfl⟩ := derived_types derived_arguments h
    exact ⟨d, (List.append_nil _).symm, hn, rfl⟩
  · rintro ⟨d, rfl, hn, rfl⟩
    have h := derives d hn []
    rwa [List.append_nil] at h

/-- As the whole text, one type is derived. -/
theorem exists_reading (d : Derivation (.types .whole)) : ∃ t, d.reading = [t] := by
  have hatom (a : Derivation .atom) : ∃ t, a.reading = [t] := by
    cases a <;> exact ⟨_, rfl⟩
  cases d with
  | one a => exact hatom a
  | low front => cases front; exact ⟨_, rfl⟩
  | high front => cases front; exact ⟨_, rfl⟩
  | between => exact ⟨_, rfl⟩

/-- No leaf is garbage. -/
theorem yield_clean {s : Symbol} (d : Derivation s) : ∀ t ∈ d.yield, t.kind ≠ .garbage := by
  have hcons {k : Kind} (x : Leaf k) {ts : List Token} (hk : k ≠ .garbage)
      (hts : ∀ t ∈ ts, t.kind ≠ .garbage) : ∀ t ∈ x.1 :: ts, t.kind ≠ .garbage :=
    List.forall_mem_cons.2 ⟨x.2.symm ▸ hk, hts⟩
  have hnil : ∀ t ∈ ([] : List Token), t.kind ≠ .garbage := List.forall_mem_nil _
  induction d with
  | var x => exact hcons x (by decide) hnil
  | name f => exact hcons f (by decide) hnil
  | apply f o _ c ih =>
      have hinside := List.forall_mem_append.2 ⟨ih, hcons c (by decide) hnil⟩
      exact hcons f (by decide) (hcons o (by decide) hinside)
  | last _ ih | one _ ih | several _ ih => exact ih
  | more _ c _ iha ihs => exact List.forall_mem_append.2 ⟨iha, hcons c (by decide) ihs⟩
  | nothing => exact hnil
  | behind _ c ih => exact List.forall_mem_append.2 ⟨ih, hcons c (by decide) hnil⟩
  | low _ x o _ ihf ihs | high _ x o _ ihf ihs =>
      have hbehind := hcons x (by decide) (hcons o (by decide) ihs)
      exact List.forall_mem_append.2 ⟨ihf, hbehind⟩
  | between _ o x o' _ ihl ihu =>
      have hbehind := hcons o (by decide) (hcons x (by decide) (hcons o' (by decide) ihu))
      exact List.forall_mem_append.2 ⟨ihl, hbehind⟩

end Derivation

/-- What is read from a text is derived from its pieces, and there is no garbage among them. -/
theorem exists_derivation {text : String} {t : Ty} (e : Ty.ofText text = some (.ok t)) :
    ∃ ps, lex text = some ps ∧ (∀ p ∈ ps, p.kind ≠ .garbage) ∧
      ∃ d : Derivation (.types .whole),
        d.yield = (ps.filter (!·.kind.isTrivia)).map (Piece.filled text.toList) ∧
          d.nesting ≤ maxDepth ∧ d.reading = [t] := by
  obtain ⟨ps, hps, e⟩ := Option.bind_eq_some_iff.1 e
  obtain h | ⟨h, -⟩ := walkAlong_eq (shows_filled hps (narrow (Text.byteLength text.toList)))
  · -- the walk has come to an instance, so the reader has read it from the same pieces
    have hread := mapError_eq_ok.1 (Option.some.inj (h.symm.trans e))
    obtain ⟨d, hy, hd⟩ := Derivation.typeList_iff.1 (single_eq_ok.1 hread)
    refine ⟨ps, hps, fun p hp hk => ?_, d, hy, hd⟩
    have hmem : p.filled text.toList ∈ d.yield := by
      rw [hy]
      exact List.mem_map_of_mem (List.mem_filter.2 ⟨hp, by rw [hk]; rfl⟩)
    exact d.yield_clean _ hmem hk
  · rw [h] at e
    cases e

/-- **What is read from any text is read from its pieces.** -/
theorem ofText_eq_ok_iff {text : String} {t : Ty} : Ty.ofText text = some (.ok t) ↔
    ∃ ts, lexed text = some ts ∧ TypeList (Arguments maxDepth) .whole ts [t] [] := by
  constructor
  · intro e
    obtain ⟨ps, hps, hclean, d, hy, hn, hr⟩ := exists_derivation e
    exact ⟨d.yield, hy ▸ lexed_of_clean hps hclean, Derivation.typeList_iff.2 ⟨d, rfl, hn, hr⟩⟩
  · rintro ⟨ts, hts, h⟩
    rw [ofText_of_lexed hts, single_eq_ok.2 h]
    rfl

end Lineage.Expr

namespace Lineage

open Lineage.Expr

/-- **A text is read if and only if its tokens have a derivation** whose brackets nest at most
    `maxDepth` deep. There is then no other derivation of them, and what is read is what the
    derivation stands for. The tokens are the pieces that the lexer finds, with the texts they have
    in the source; in a text shorter than 4 GiB these are the longest matches from left to right. -/
theorem ofText_ok_iff_reading (text : String) :
    ((∃ t, Ty.ofText text = some (.ok t)) ↔ ∃ ts, lexed text = some ts ∧
      ∃ d : Derivation (.types .whole), d.yield = ts ∧ d.nesting ≤ maxDepth) ∧
    (∀ ts, lexed text = some ts → ∀ d : Derivation (.types .whole), d.yield = ts →
      d.nesting ≤ maxDepth → (∀ d' : Derivation (.types .whole), d'.yield = ts → d' = d) ∧
        ∃ t, d.reading = [t] ∧ Ty.ofText text = some (.ok t)) ∧
    (Text.byteLength text.toList < UInt32.size → lexed text = some (meaningful text)) := by
  have hread {ts : List Token} (hts : lexed text = some ts) {d : Derivation (.types .whole)}
      (hy : d.yield = ts) (hn : d.nesting ≤ maxDepth) :
      ∃ t, d.reading = [t] ∧ Ty.ofText text = some (.ok t) := by
    obtain ⟨t, ht⟩ := d.exists_reading
    exact ⟨t, ht, ofText_eq_ok_iff.2 ⟨ts, hts, Derivation.typeList_iff.2 ⟨d, hy, hn, ht⟩⟩⟩
  refine ⟨⟨?_, ?_⟩, ?_, lexed_of_short⟩
  · rintro ⟨t, e⟩
    obtain ⟨ts, hts, h⟩ := ofText_eq_ok_iff.1 e
    obtain ⟨d, hy, hn, -⟩ := Derivation.typeList_iff.1 h
    exact ⟨ts, hts, d, hy, hn⟩
  · rintro ⟨ts, hts, d, hy, hn⟩
    obtain ⟨t, -, e⟩ := hread hts hy hn
    exact ⟨t, e⟩
  · intro ts hts d hy hn
    exact ⟨fun d' hy' => Derivation.eq_of_yield_eq (hy'.trans hy.symm), hread hts hy hn⟩

/-- The derivation of `pair[k, t <: num, u]`: the first argument stands in front of the bounded
    variable, and the second bound belongs to it. -/
def boundedPair : Derivation (.types .whole) :=
  .one (.apply ⟨⟨.typeName, 0, "pair"⟩, rfl⟩ ⟨⟨.openBracket, 4, "["⟩, rfl⟩
    (.high (.behind (.last (.var ⟨⟨.varName, 5, "k"⟩, rfl⟩)) ⟨⟨.comma, 6, ","⟩, rfl⟩)
      ⟨⟨.varName, 8, "t"⟩, rfl⟩ ⟨⟨.subtype, 10, "<:"⟩, rfl⟩
      (.more (.name ⟨⟨.typeName, 13, "num"⟩, rfl⟩) ⟨⟨.comma, 16, ","⟩, rfl⟩
        (.last (.var ⟨⟨.varName, 18, "u"⟩, rfl⟩))))
    ⟨⟨.closeBracket, 19, "]"⟩, rfl⟩)

/-- The variable among the bounds is read and dropped. -/
theorem boundedPair_reading : lexed "pair[k, t <: num, u]" = some boundedPair.yield ∧
    boundedPair.nesting ≤ maxDepth ∧ Ty.ofText "pair[k, t <: num, u]" = some (.ok (.app ⟨"pair",
      [.var ⟨"k", [], []⟩, .var ⟨"t", [], [⟨"num", []⟩]⟩]⟩)) := by
  obtain ⟨-, hunique, hshort⟩ := ofText_ok_iff_reading "pair[k, t <: num, u]"
  have hy : lexed "pair[k, t <: num, u]" = some boundedPair.yield := hshort (by decide)
  have hn : boundedPair.nesting ≤ maxDepth := by decide
  obtain ⟨t, ht, e⟩ := (hunique _ hy boundedPair rfl hn).2
  refine ⟨hy, hn, e.trans ?_⟩
  cases ht
  rfl

end Lineage

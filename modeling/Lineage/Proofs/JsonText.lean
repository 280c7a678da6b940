import Lineage.Json.Skip
import Lineage.Json.Writer

/-!
# JSON texts are read back

Values whose scalars are strings are written with one element or member a line, and read back from
this text whatever follows it.

* `stringBody_written`: a string is read back, whatever characters it has.
* `value_written`: a value is read back if its lists and objects are nested no deeper than the
  reader may go, and refused if they are (`Reads`).
* `Value.nests_render`: how deep a value is nested is seen in its text, as the greatest number of
  brackets that are open at once (`nesting`).

Readers are compared by what they take from a text (`taken`): places and problems do not count.
-/

namespace Lineage.Json

variable {α β : Type}

/-! ## 1. What is taken from a text -/

/-- What has been read and the characters left, if the text was not refused. -/
def taken : Scan (α × Cursor) → Option (α × List Char)
  | .ok (x, c) => some (x, c.rest)
  | .error _ => none

/-- The reader makes `x` of the text, whatever follows it, if the text fits. Otherwise it refuses
    the text. -/
def Reads (read : Cursor → Scan (α × Cursor)) (text : List Char) (x : α) (fits : Bool) : Prop :=
  ∀ offset rest, taken (read ⟨offset, text ++ rest⟩) = if fits then some (x, rest) else none

theorem taken_eq_some {x : Scan (α × Cursor)} {a : α} {rest : List Char} :
    taken x = some (a, rest) ↔ ∃ offset, x = .ok (a, ⟨offset, rest⟩) := by
  cases x with
  | error f => simp [taken]
  | ok r =>
      obtain ⟨b, o, cs⟩ := r
      simp [taken]

section Bind

variable {x : Scan (α × Cursor)} {f : α × Cursor → Scan (β × Cursor)} {a : α} {rest : List Char}

theorem taken_bind {r : Option (β × List Char)} (hx : taken x = some (a, rest))
    (hf : ∀ offset, taken (f (a, ⟨offset, rest⟩)) = r) : taken (x >>= f) = r := by
  obtain ⟨offset, rfl⟩ := taken_eq_some.1 hx
  exact hf offset

/-- Two steps in a row fit if both do. -/
theorem taken_bind_ite {b : β} {p q : Bool} {rest' : List Char}
    (hx : taken x = if p then some (a, rest) else none)
    (hf : ∀ offset, taken (f (a, ⟨offset, rest⟩)) = if q then some (b, rest') else none) :
    taken (x >>= f) = if p && q then some (b, rest') else none := by
  cases p with
  | true => exact taken_bind hx hf
  | false =>
      cases x with
      | error e => rfl
      | ok r => cases hx

/-- A step that only changes the form of what has been read. -/
theorem taken_map_ite {b : β} {p : Bool} (hx : taken x = if p then some (a, rest) else none)
    (hf : ∀ offset, taken (f (a, ⟨offset, rest⟩)) = some (b, rest)) :
    taken (x >>= f) = if p then some (b, rest) else none := by
  rw [← Bool.and_true p]
  exact taken_bind_ite hx hf

end Bind

/-- The end of a list or object is there. -/
theorem taken_enclosed {close : Cursor → Cursor × Option Fault} {inside : Scan (α × Cursor)}
    {bracket : Char} {a : α} {p : Bool} {rest : List Char}
    (hclose : ∀ offset, close ⟨offset, bracket :: rest⟩ = (⟨offset + 1, rest⟩, none))
    (hin : taken inside = if p then some (a, bracket :: rest) else none) :
    taken (enclosed close inside) = if p then some (a, rest) else none := by
  cases p with
  | true =>
      obtain ⟨offset, rfl⟩ := taken_eq_some.1 hin
      simp [enclosed, hclose, taken]
  | false =>
      cases inside with
      | ok r => cases hin
      | error f =>
          rw [enclosed]
          split <;> rfl

/-! ## 2. Strings -/

theorem hexValue?_hexDigit {n : Nat} (hn : n < 16) : hexValue? (hexDigit n) = some n := by
  have hall : ∀ n : Fin 16, hexValue? (hexDigit n) = some n.val := by decide
  exact hall ⟨n, hn⟩

/-- A control character is read back from its number. -/
theorem unicodeEscape_control {c : Char} (hc : isControl c = true) (offset : Nat)
    (rest : List Char) :
    unicodeEscape ⟨offset, '0' :: '0' :: hexDigit (c.toNat / 16) :: hexDigit (c.toNat % 16) ::
      rest⟩ = .ok (c, ⟨offset + 4, rest⟩) := by
  have hlt : c.toNat < 32 := of_decide_eq_true hc
  have hhigh : hexValue? (hexDigit (c.toNat / 16)) = some (c.toNat / 16) :=
    hexValue?_hexDigit (by omega)
  have hlow : hexValue? (hexDigit (c.toNat % 16)) = some (c.toNat % 16) :=
    hexValue?_hexDigit (by omega)
  have hzero : hexValue? '0' = some 0 := rfl
  have hquad : ((0 * 16 + 0) * 16 + c.toNat / 16) * 16 + c.toNat % 16 = c.toNat := by omega
  have hread : hexEscape ⟨offset, '0' :: '0' :: hexDigit (c.toNat / 16) ::
      hexDigit (c.toNat % 16) :: rest⟩ = .ok (c.toNat, ⟨offset + 4, rest⟩) := by
    simp only [hexEscape, hexQuad?, hzero, hhigh, hlow, Option.bind_eq_bind, Option.bind_some,
      Option.pure_def, hquad]
    rfl
  -- the number is far below the surrogates
  have hlone : ¬ (0xDC00 ≤ c.toNat ∧ c.toNat ≤ 0xDFFF) := by omega
  have hhalf : ¬ (0xD800 ≤ c.toNat ∧ c.toNat ≤ 0xDBFF) := by omega
  rw [unicodeEscape, hread]
  show (if 0xDC00 ≤ c.toNat ∧ c.toNat ≤ 0xDFFF then _ else _) = _
  rw [if_neg hlone, if_neg hhalf, Char.ofNat_toNat]

/-- A character is read back from the way it is written. -/
theorem stringUpTo_escapedChar (n : Nat) (c : Char) (offset : Nat) (rest : List Char) :
    ∃ offset', stringUpTo (n + 1) ⟨offset, escapedChar c ++ rest⟩ =
      (stringUpTo n ⟨offset', rest⟩ >>= fun r => .ok (c :: r.1, r.2)) := by
  unfold escapedChar
  split
  -- the characters that have a letter of their own
  iterate 7 · exact ⟨_, rfl⟩
  rename_i hquote hbackslash _ _ _ _ _
  split
  · rename_i hc
    refine ⟨offset + 6, ?_⟩
    show (unicodeEscape ⟨offset + 2, '0' :: '0' :: hexDigit (c.toNat / 16) ::
      hexDigit (c.toNat % 16) :: rest⟩ >>= _) = _
    rw [unicodeEscape_control hc]
    rfl
  · rename_i hc
    refine ⟨offset + c.utf8Size, ?_⟩
    show (if c = '"' then _ else if c = '\\' then _ else if isControl c = true then _ else _) = _
    rw [if_neg hquote, if_neg hbackslash, if_neg hc]
    rfl

theorem stringUpTo_written {s : List Char} {n : Nat} (hn : s.length < n) (offset : Nat)
    (rest : List Char) :
    taken (stringUpTo n ⟨offset, s.flatMap escapedChar ++ '"' :: rest⟩) = some (s, rest) := by
  induction s generalizing n offset with
  | nil =>
      obtain ⟨n, rfl⟩ := Nat.exists_eq_add_one_of_ne_zero (Nat.ne_zero_of_lt hn)
      rfl
  | cons c s ih =>
      obtain ⟨n, rfl⟩ := Nat.exists_eq_add_one_of_ne_zero (Nat.ne_zero_of_lt hn)
      obtain ⟨offset', e⟩ :=
        stringUpTo_escapedChar n c offset (s.flatMap escapedChar ++ '"' :: rest)
      rw [List.flatMap_cons, List.append_assoc, e]
      exact taken_bind (ih (Nat.lt_of_succ_lt_succ hn) offset') fun _ => rfl

theorem length_le_escaped (s : List Char) : s.length ≤ (s.flatMap escapedChar).length := by
  induction s with
  | nil => exact Nat.le_refl 0
  | cons c s ih =>
      have hpos : 1 ≤ (escapedChar c).length := by
        unfold escapedChar
        split
        iterate 7 · exact Nat.le_add_left 1 1
        split <;> simp
      rw [List.flatMap_cons, List.length_append, List.length_cons]
      omega

/-- **A string is read back from the way it is written**, whatever characters it has. -/
theorem stringBody_written (s : String) (offset : Nat) (rest : List Char) :
    taken (stringBody ⟨offset, s.toList.flatMap escapedChar ++ '"' :: rest⟩) = some (s, rest) := by
  have hle := length_le_escaped s.toList
  refine taken_bind (stringUpTo_written ?_ offset rest) fun offset' => ?_
  · rw [List.length_append, List.length_cons]
    omega
  · simp [taken]

theorem toList_stringText (s : String) :
    (stringText s).toList = '"' :: (s.toList.flatMap escapedChar ++ ['"']) := by
  simp [stringText]

/-! ## 3. Separated items -/

/-- Nothing but blanks. -/
def AllBlank (cs : List Char) : Prop := ∀ c ∈ cs, isBlank c = true

theorem skipBlanks_append {bs : List Char} (hb : AllBlank bs) {c : Char} (hc : isBlank c = false)
    (offset : Nat) (cs : List Char) :
    skipBlanks offset (bs ++ c :: cs) = ⟨offset + bs.length, c :: cs⟩ := by
  induction bs generalizing offset with
  | nil => simp [skipBlanks, hc]
  | cons b bs ih =>
      obtain ⟨hb, hbs⟩ := List.forall_mem_cons.1 hb
      rw [List.cons_append, skipBlanks, if_pos hb, ih hbs, List.length_cons]
      congr 1
      omega

theorem toList_newline (level : Nat) :
    (newline level).toList = '\n' :: List.replicate (2 * level) ' ' := by
  simp [newline]

theorem allBlank_newline (level : Nat) : AllBlank (newline level).toList := by
  intro b hb
  rw [toList_newline, List.mem_cons, List.mem_replicate] at hb
  rcases hb with rfl | ⟨-, rfl⟩
  · rfl
  · rfl

/-- What stands before an item: blanks, and a comma unless it is the first one. -/
def lead (blanks : List Char) (first : Bool) : List Char :=
  if first then blanks else ',' :: blanks

/-- Items one after the other. -/
def run (blanks : List Char) : (first : Bool) → List (List Char) → List Char
  | _, [] => []
  | first, item :: items => lead blanks first ++ (item ++ run blanks false items)

theorem run_cons (blanks item : List Char) (items : List (List Char)) (first : Bool) :
    run blanks first (item :: items) =
      lead blanks first ++ (',' :: blanks).intercalate (item :: items) := by
  induction items generalizing item first with
  | nil => simp [run]
  | cons i items ih =>
      rw [run, ih, List.intercalate_cons_cons]
      simp [lead]

/-- Every item takes a character, so their number is bounded by that of the characters. -/
theorem length_lt_run (level : Nat) (items : List (List Char)) (rest : List Char) :
    items.length < (run (newline level).toList true items ++ rest).length + 1 := by
  suffices hle : ∀ first, items.length ≤ (run (newline level).toList first items).length by
    have := hle true
    rw [List.length_append]
    omega
  intro first
  induction items generalizing first with
  | nil => exact Nat.zero_le _
  | cons item items ih =>
      have hlead : 1 ≤ (lead (newline level).toList first).length := by
        cases first <;> simp [lead, toList_newline]
      have := ih false
      rw [run, List.length_append, List.length_append, List.length_cons]
      omega

/-- Items between brackets: the last one is followed by blanks. -/
theorem toList_bracketed (left right : String) (level : Nat) (items : List String) :
    ∃ bs, AllBlank bs ∧ (bracketed left right level items).toList = left.toList ++
      (run (newline (level + 1)).toList true (items.map String.toList) ++
        (bs ++ right.toList)) := by
  cases items with
  | nil => exact ⟨[], nofun, by simp [bracketed, run]⟩
  | cons item items =>
      refine ⟨(newline level).toList, allBlank_newline level, ?_⟩
      rw [bracketed, List.map_cons, run_cons]
      simp [lead]

/-- A text that starts as a value does which is no number and no word. -/
def Opens (text : List Char) : Prop :=
  ∃ c cs, (c = '"' ∨ c = '[' ∨ c = '\x7b') ∧ text = c :: cs

theorem Opens.append {text : List Char} (ht : Opens text) (rest : List Char) :
    Opens (text ++ rest) := by
  obtain ⟨c, cs, hc, rfl⟩ := ht
  exact ⟨c, cs ++ rest, hc, rfl⟩

section Items

variable {blanks bs : List Char} (hblanks : AllBlank blanks) (hbs : AllBlank bs) (first : Bool)
  (offset : Nat)

include hblanks in
theorem nextElement_item {text : List Char} (ht : Opens text) :
    taken (nextElement first ⟨offset, lead blanks first ++ text⟩) = some (true, text) := by
  obtain ⟨c, cs, hc, rfl⟩ := ht
  have hcb : isBlank c = false := by
    rcases hc with rfl | rfl | rfl <;> rfl
  have hclose : c ≠ ']' := by
    rcases hc with rfl | rfl | rfl <;> decide
  have hcomma : isBlank ',' = false := rfl
  cases first with
  | true => simp [nextElement, lead, Cursor.trim, skipBlanks_append hblanks hcb, hclose, taken]
  | false =>
      simp [nextElement, lead, Cursor.trim, skipBlanks, hcomma, Cursor.advance,
        skipBlanks_append hblanks hcb, hclose, taken]

include hbs in
theorem nextElement_end (rest : List Char) :
    taken (nextElement first ⟨offset, bs ++ ']' :: rest⟩) = some (false, ']' :: rest) := by
  simp [nextElement, Cursor.trim, skipBlanks_append hbs (c := ']') rfl, taken]

include hblanks in
theorem nextKey_item (name : String) (rest : List Char) :
    taken (nextKey first ⟨offset, lead blanks first ++ ((stringText name).toList ++ rest)⟩) =
      some (some name, rest) := by
  have hquote : isBlank '"' = false := rfl
  have hcomma : isBlank ',' = false := rfl
  -- the key stands at its opening quote, behind a comma or not
  have hat (cs : List Char) : ∃ offset', nextKey first ⟨offset, lead blanks first ++ '"' :: cs⟩ =
      key ⟨offset', '"' :: cs⟩ := by
    cases first with
    | true =>
        exact ⟨offset + blanks.length, by
          simp [nextKey, lead, Cursor.trim, skipBlanks_append hblanks hquote]⟩
    | false =>
        exact ⟨offset + 1 + blanks.length, by
          simp [nextKey, lead, Cursor.trim, skipBlanks, hcomma, Cursor.advance,
            skipBlanks_append hblanks hquote]⟩
  rw [toList_stringText, List.cons_append, List.append_assoc]
  obtain ⟨offset', e⟩ := hat (name.toList.flatMap escapedChar ++ (['"'] ++ rest))
  rw [e]
  exact taken_bind (stringBody_written name (offset' + 1) rest) fun _ => rfl

include hbs in
theorem nextKey_end (rest : List Char) :
    taken (nextKey first ⟨offset, bs ++ '\x7d' :: rest⟩) = some (none, '\x7d' :: rest) := by
  simp [nextKey, Cursor.trim, skipBlanks_append hbs (c := '\x7d') rfl, taken]

end Items

theorem taken_colon (f : Cursor → Scan (α × Cursor)) (offset : Nat) (cs : List Char) :
    taken (colon ⟨offset, ':' :: cs⟩ >>= f) = taken (f ⟨offset + 1, cs⟩) := rfl

/-! ## 4. Lists and objects -/

theorem elementsUpTo_written {blanks bs : List Char} (hblanks : AllBlank blanks)
    (hbs : AllBlank bs) {item : Cursor → Scan (α × Cursor)} {text : α → List Char}
    {fits : α → Bool} {xs : List α} (hopen : ∀ x ∈ xs, Opens (text x))
    (hitem : ∀ x ∈ xs, Reads item (text x) x (fits x)) (first : Bool) {n : Nat}
    (hn : xs.length < n) (offset : Nat) (rest : List Char) :
    taken (elementsUpTo item n first
      ⟨offset, run blanks first (xs.map text) ++ (bs ++ ']' :: rest)⟩) =
      if xs.all fits then some (xs, ']' :: rest) else none := by
  induction xs generalizing first n offset with
  | nil =>
      obtain ⟨n, rfl⟩ := Nat.exists_eq_add_one_of_ne_zero (Nat.ne_zero_of_lt hn)
      rw [elementsUpTo]
      exact taken_bind (nextElement_end hbs first offset rest) fun _ => rfl
  | cons x xs ih =>
      obtain ⟨n, rfl⟩ := Nat.exists_eq_add_one_of_ne_zero (Nat.ne_zero_of_lt hn)
      rw [List.forall_mem_cons] at hopen hitem
      rw [List.map_cons, run, List.append_assoc, List.append_assoc, elementsUpTo, List.all_cons]
      refine taken_bind (nextElement_item hblanks first offset (hopen.1.append _))
        fun offset' => ?_
      refine taken_bind_ite (hitem.1 offset' _) fun offset'' => ?_
      have hrest := ih hopen.2 hitem.2 false (Nat.lt_of_succ_lt_succ hn) offset''
      exact taken_map_ite hrest fun _ => rfl

/-- **A list is read back behind its opening bracket** if its elements are. -/
theorem list_written {bs : List Char} (hbs : AllBlank bs) {item : Cursor → Scan (α × Cursor)}
    {text : α → List Char} {fits : α → Bool} {xs : List α} (hopen : ∀ x ∈ xs, Opens (text x))
    (hitem : ∀ x ∈ xs, Reads item (text x) x (fits x)) (level : Nat) :
    Reads (fun c => enclosed closeList (elements item true c))
      (run (newline level).toList true (xs.map text) ++ (bs ++ [']'])) xs (xs.all fits) := by
  intro offset rest
  have hclose : ∀ offset, closeList ⟨offset, ']' :: rest⟩ = (⟨offset + 1, rest⟩, none) :=
    fun _ => rfl
  have hlt := length_lt_run level (xs.map text) (bs ++ ']' :: rest)
  rw [List.length_map] at hlt
  rw [List.append_assoc, List.append_assoc]
  exact taken_enclosed hclose
    (elementsUpTo_written (allBlank_newline level) hbs hopen hitem true hlt offset rest)

/-- A member of an object in writing. -/
def memberText (level : Nat) (m : String × Value) : List Char :=
  (stringText m.1).toList ++ ':' :: ' ' :: (m.2.render level).toList

theorem membersUpTo_written {blanks bs : List Char} (hblanks : AllBlank blanks)
    (hbs : AllBlank bs) {item : Cursor → Scan (Value × Cursor)} {level : Nat}
    {fits : Value → Bool} {ms : List (String × Value)}
    (hitem : ∀ m ∈ ms, Reads item (' ' :: (m.2.render level).toList) m.2 (fits m.2))
    (first : Bool) {n : Nat} (hn : ms.length < n) (offset : Nat) (rest : List Char) :
    taken (membersUpTo item n first
      ⟨offset, run blanks first (ms.map (memberText level)) ++ (bs ++ '\x7d' :: rest)⟩) =
      if ms.all (fits ·.2) then some (ms, '\x7d' :: rest) else none := by
  induction ms generalizing first n offset with
  | nil =>
      obtain ⟨n, rfl⟩ := Nat.exists_eq_add_one_of_ne_zero (Nat.ne_zero_of_lt hn)
      rw [membersUpTo]
      exact taken_bind (nextKey_end hbs first offset rest) fun _ => rfl
  | cons m ms ih =>
      obtain ⟨n, rfl⟩ := Nat.exists_eq_add_one_of_ne_zero (Nat.ne_zero_of_lt hn)
      rw [List.forall_mem_cons] at hitem
      rw [List.map_cons, run, List.append_assoc, List.append_assoc, memberText, List.append_assoc,
        membersUpTo, List.all_cons]
      refine taken_bind (nextKey_item hblanks first offset m.1 _) fun offset' => ?_
      rw [List.cons_append, taken_colon]
      refine taken_bind_ite (hitem.1 _ _) fun offset'' => ?_
      have hrest := ih hitem.2 false (Nat.lt_of_succ_lt_succ hn) offset''
      exact taken_map_ite hrest fun _ => rfl

/-- **An object is read back behind its opening bracket** if its members are. -/
theorem object_written {bs : List Char} (hbs : AllBlank bs)
    {item : Cursor → Scan (Value × Cursor)} {level : Nat} {fits : Value → Bool}
    {ms : List (String × Value)}
    (hitem : ∀ m ∈ ms, Reads item (' ' :: (m.2.render level).toList) m.2 (fits m.2)) :
    Reads (fun c => enclosed closeObject (members item c))
      (run (newline level).toList true (ms.map (memberText level)) ++ (bs ++ ['\x7d'])) ms
      (ms.all (fits ·.2)) := by
  intro offset rest
  have hclose : ∀ offset, closeObject ⟨offset, '\x7d' :: rest⟩ = (⟨offset + 1, rest⟩, none) :=
    fun _ => rfl
  have hlt := length_lt_run level (ms.map (memberText level)) (bs ++ '\x7d' :: rest)
  rw [List.length_map] at hlt
  rw [List.append_assoc, List.append_assoc]
  exact taken_enclosed hclose
    (membersUpTo_written (allBlank_newline level) hbs hitem true hlt offset rest)

/-! ## 5. Values -/

namespace Value

/-- Induction on values. -/
theorem induct {P : Value → Prop} (scalar : ∀ s, P (.scalar s))
    (list : ∀ vs, (∀ v ∈ vs, P v) → P (.list vs))
    (object : ∀ fields, (∀ m ∈ fields, P m.2) → P (.object fields)) (v : Value) : P v :=
  @Value.rec P (fun vs => ∀ v ∈ vs, P v) (fun fields => ∀ m ∈ fields, P m.2) (fun m => P m.2)
    scalar list object
    (fun _ h => nomatch h)
    (fun _ _ hv hvs => List.forall_mem_cons.2 ⟨hv, hvs⟩)
    (fun _ h => nomatch h)
    (fun _ _ hm hms => List.forall_mem_cons.2 ⟨hm, hms⟩)
    (fun _ _ hv => hv)
    v

mutual
/-- How many levels of lists and objects are nested in a value. -/
def levels : Value → Nat
  | .scalar _ => 0
  | .list vs => levelsAll vs + 1
  | .object fields => levelsFields fields + 1
/-- The most levels among some values. -/
def levelsAll : List Value → Nat
  | [] => 0
  | v :: vs => max v.levels (levelsAll vs)
/-- The most levels among the members of an object. -/
def levelsFields : List (String × Value) → Nat
  | [] => 0
  | (_, v) :: fields => max v.levels (levelsFields fields)
end

mutual
/-- Whether all scalars in a value are strings. -/
def isTextual : Value → Bool
  | .scalar (.str _) => true
  | .scalar _ => false
  | .list vs => areTextual vs
  | .object fields => fieldsTextual fields
/-- `Value.isTextual` for some values. -/
def areTextual : List Value → Bool
  | [] => true
  | v :: vs => v.isTextual && areTextual vs
/-- `Value.isTextual` for the members of an object. -/
def fieldsTextual : List (String × Value) → Bool
  | [] => true
  | (_, v) :: fields => v.isTextual && fieldsTextual fields
end

theorem isTextual_list {vs : List Value} :
    (Value.list vs).isTextual = true ↔ ∀ v ∈ vs, v.isTextual = true := by
  rw [isTextual]
  induction vs with
  | nil => simp [areTextual]
  | cons v vs ih => rw [areTextual, Bool.and_eq_true, ih, List.forall_mem_cons]

theorem isTextual_object {fields : List (String × Value)} :
    (Value.object fields).isTextual = true ↔ ∀ m ∈ fields, m.2.isTextual = true := by
  rw [isTextual]
  induction fields with
  | nil => simp [fieldsTextual]
  | cons m fields ih =>
      obtain ⟨name, v⟩ := m
      rw [fieldsTextual, Bool.and_eq_true, ih, List.forall_mem_cons]

theorem levelsAll_eq (vs : List Value) : levelsAll vs = (vs.map levels).foldr max 0 := by
  induction vs with
  | nil => rfl
  | cons v vs ih => rw [levelsAll, ih, List.map_cons, List.foldr_cons]

theorem levelsFields_eq (fields : List (String × Value)) :
    levelsFields fields = (fields.map (·.2.levels)).foldr max 0 := by
  induction fields with
  | nil => rfl
  | cons m fields ih => rw [levelsFields, ih, List.map_cons, List.foldr_cons]

/-- Whether a value nests no more than `depth` levels. -/
def fits (depth : Nat) (v : Value) : Bool := decide (v.levels ≤ depth)

theorem decide_foldr_max {f : α → Nat} {xs : List α} {k : Nat} :
    decide ((xs.map f).foldr max 0 + 1 ≤ k + 1) = xs.all fun x => decide (f x ≤ k) := by
  induction xs with
  | nil => simp
  | cons x xs ih =>
      rw [List.all_cons, ← ih, List.map_cons, List.foldr_cons, ← Bool.decide_and]
      refine decide_eq_decide.2 ?_
      omega

theorem fits_list (depth : Nat) (vs : List Value) :
    (Value.list vs).fits (depth + 1) = vs.all (fits depth) := by
  rw [fits, levels, levelsAll_eq, decide_foldr_max]
  rfl

theorem fits_object (depth : Nat) (fields : List (String × Value)) :
    (Value.object fields).fits (depth + 1) = fields.all (·.2.fits depth) := by
  rw [fits, levels, levelsFields_eq, decide_foldr_max]
  rfl

theorem renderAll_eq_map (level : Nat) (vs : List Value) :
    renderAll level vs = vs.map (render level) := by
  induction vs with
  | nil => rw [renderAll, List.map_nil]
  | cons v vs ih => rw [renderAll, ih, List.map_cons]

theorem map_toList_renderFields (level : Nat) (fields : List (String × Value)) :
    (renderFields level fields).map String.toList = fields.map (memberText level) := by
  induction fields with
  | nil => rw [renderFields, List.map_nil, List.map_nil]
  | cons m fields ih =>
      obtain ⟨name, v⟩ := m
      rw [renderFields, List.map_cons, ih, List.map_cons]
      simp [memberText]

/-- A list in writing. -/
theorem toList_list (level : Nat) (vs : List Value) : ∃ bs, AllBlank bs ∧
    ((Value.list vs).render level).toList = '[' :: (run (newline (level + 1)).toList true
      (vs.map fun v => (v.render (level + 1)).toList) ++ (bs ++ [']'])) := by
  obtain ⟨bs, hbs, e⟩ := toList_bracketed "[" "]" level (renderAll (level + 1) vs)
  refine ⟨bs, hbs, ?_⟩
  rw [render, e, renderAll_eq_map, List.map_map]
  rfl

/-- An object in writing. -/
theorem toList_object (level : Nat) (fields : List (String × Value)) : ∃ bs, AllBlank bs ∧
    ((Value.object fields).render level).toList = '\x7b' :: (run (newline (level + 1)).toList true
      (fields.map (memberText (level + 1))) ++ (bs ++ ['\x7d'])) := by
  obtain ⟨bs, hbs, e⟩ := toList_bracketed "\x7b" "\x7d" level (renderFields (level + 1) fields)
  refine ⟨bs, hbs, ?_⟩
  rw [render, e, map_toList_renderFields]
  rfl

/-- A value without numbers and words starts with a quote or a bracket. -/
theorem opens_render {v : Value} (hv : v.isTextual = true) (level : Nat) :
    Opens (v.render level).toList := by
  cases v with
  | scalar s =>
      cases s with
      | str s =>
          rw [render, Scalar.text, toList_stringText]
          exact ⟨'"', _, Or.inl rfl, rfl⟩
      | _ => cases hv
  | list vs =>
      obtain ⟨bs, -, e⟩ := toList_list level vs
      exact ⟨'[', _, Or.inr (Or.inl rfl), e⟩
  | object fields =>
      obtain ⟨bs, -, e⟩ := toList_object level fields
      exact ⟨'\x7b', _, Or.inr (Or.inr rfl), e⟩

end Value

theorem value_blank (depth offset : Nat) (cs : List Char) :
    value depth ⟨offset, ' ' :: cs⟩ = value depth ⟨offset + 1, cs⟩ := by
  cases depth <;> rfl

theorem scalar_written (depth : Nat) (s : String) :
    Reads (value depth) (stringText s).toList (.scalar (.str s)) true := by
  intro offset rest
  have hbody := stringBody_written s (offset + 1) rest
  rw [toList_stringText, List.cons_append, List.append_assoc]
  cases depth <;> exact taken_bind (taken_bind hbody fun _ => rfl) fun _ => rfl

/-- **A value is read back from its text** if its lists and objects are nested no deeper than the
    reader may go, and refused if they are. -/
theorem value_written (depth level : Nat) {v : Value} (hv : v.isTextual = true) :
    Reads (value depth) (v.render level).toList v (v.fits depth) := by
  -- every level of the value takes one of the levels that may still be opened
  induction depth generalizing level v with
  | zero =>
      cases v with
      | scalar s =>
          cases s with
          | str s => exact scalar_written 0 s
          | _ => cases hv
      | list vs =>
          obtain ⟨bs, -, e⟩ := Value.toList_list level vs
          rw [e]
          exact fun _ _ => rfl
      | object fields =>
          obtain ⟨bs, -, e⟩ := Value.toList_object level fields
          rw [e]
          exact fun _ _ => rfl
  | succ depth ih =>
      cases v with
      | scalar s =>
          cases s with
          | str s => exact scalar_written (depth + 1) s
          | _ => cases hv
      | list vs =>
          rw [Value.isTextual_list] at hv
          obtain ⟨bs, hbs, e⟩ := Value.toList_list level vs
          have hread := list_written hbs (fun v hm => Value.opens_render (hv v hm) (level + 1))
            (fun v hm => ih (level + 1) (hv v hm)) (level + 1)
          intro offset rest
          rw [e, Value.fits_list]
          exact taken_map_ite (hread (offset + 1) rest) fun _ => rfl
      | object fields =>
          rw [Value.isTextual_object] at hv
          obtain ⟨bs, hbs, e⟩ := Value.toList_object level fields
          have hitem : ∀ m ∈ fields, Reads (value depth) (' ' :: (m.2.render (level + 1)).toList)
              m.2 (m.2.fits depth) := by
            intro m hm offset rest
            rw [List.cons_append, value_blank]
            exact ih (level + 1) (hv m hm) (offset + 1) rest
          have hread := object_written hbs hitem
          intro offset rest
          rw [e, Value.fits_object]
          exact taken_map_ite (hread (offset + 1) rest) fun _ => rfl

/-! ## 6. Nesting in the text -/

/-- The greatest number of brackets that are open at once, if `level` are open before. Brackets
    within strings do not count. -/
def nesting : (level : Nat) → (quoted : Bool) → List Char → Nat
  | level, _, [] => level
  | level, true, '\\' :: _ :: cs => nesting level true cs
  | level, true, c :: cs => nesting level (c != '"') cs
  | level, false, c :: cs =>
      if c = '"' then nesting level true cs
      else if c = '[' ∨ c = '\x7b' then nesting (level + 1) false cs
      else if c = ']' ∨ c = '\x7d' then max level (nesting (level - 1) false cs)
      else nesting level false cs

/-- The text opens and closes brackets `k` deep. -/
def Nests (text : List Char) (k : Nat) : Prop :=
  ∀ level rest, nesting level false (text ++ rest) = max (level + k) (nesting level false rest)

theorem le_nesting (level : Nat) (quoted : Bool) (cs : List Char) :
    level ≤ nesting level quoted cs := by
  fun_induction nesting level quoted cs <;> omega

theorem nests_nil : Nests [] 0 := by
  intro level rest
  have := le_nesting level false rest
  rw [List.nil_append]
  omega

theorem Nests.append {s s' : List Char} {k k' : Nat} (hs : Nests s k) (hs' : Nests s' k') :
    Nests (s ++ s') (max k k') := by
  intro level rest
  rw [List.append_assoc, hs, hs']
  omega

/-- Characters between the items open and close nothing. -/
theorem nests_of_all {s : List Char} (hs : ∀ c ∈ s, isBlank c = true ∨ c = ',' ∨ c = ':') :
    Nests s 0 := by
  induction s with
  | nil => exact nests_nil
  | cons c s ih =>
      rw [List.forall_mem_cons] at hs
      intro level rest
      have hskip : nesting level false (c :: (s ++ rest)) = nesting level false (s ++ rest) := by
        have hc : c = ' ' ∨ c = '\n' ∨ c = '\t' ∨ c = '\r' ∨ c = ',' ∨ c = ':' := by
          simpa [isBlank, or_assoc] using hs.1
        rcases hc with rfl | rfl | rfl | rfl | rfl | rfl <;> simp [nesting]
      rw [List.cons_append, hskip, ih hs.2]

theorem nesting_quoted {c : Char} (hquote : c ≠ '"') (hbackslash : c ≠ '\\') (level : Nat)
    (cs : List Char) : nesting level true (c :: cs) = nesting level true cs := by
  rw [nesting.eq_3 _ _ _ fun _ _ e => absurd e hbackslash, bne_iff_ne.2 hquote]

theorem nesting_escapedChar (level : Nat) (c : Char) (rest : List Char) :
    nesting level true (escapedChar c ++ rest) = nesting level true rest := by
  have hdigit {n : Nat} (hn : n < 16) : hexDigit n ≠ '"' ∧ hexDigit n ≠ '\\' := by
    have hall : ∀ n : Fin 16, hexDigit n ≠ '"' ∧ hexDigit n ≠ '\\' := by decide
    exact hall ⟨n, hn⟩
  unfold escapedChar
  split
  iterate 7 · rfl
  rename_i hquote hbackslash _ _ _ _ _
  split
  · rename_i hc
    have hlt : c.toNat < 32 := of_decide_eq_true hc
    obtain ⟨hq, hb⟩ := hdigit (n := c.toNat / 16) (by omega)
    obtain ⟨hq', hb'⟩ := hdigit (n := c.toNat % 16) (by omega)
    show nesting level true (hexDigit (c.toNat / 16) :: hexDigit (c.toNat % 16) :: rest) = _
    rw [nesting_quoted hq hb, nesting_quoted hq' hb']
  · exact nesting_quoted hquote hbackslash level rest

theorem nests_stringText (s : String) : Nests (stringText s).toList 0 := by
  intro level rest
  have hinside (cs : List Char) : nesting level true (cs.flatMap escapedChar ++ '"' :: rest) =
      nesting level false rest := by
    induction cs with
    | nil => simp [nesting]
    | cons c cs ih => rw [List.flatMap_cons, List.append_assoc, nesting_escapedChar, ih]
  have hnil := nests_nil level rest
  rw [toList_stringText, List.cons_append, List.append_assoc, nesting, if_pos rfl]
  exact (hinside s.toList).trans hnil

/-- Items nest as deep as the deepest of them. -/
theorem nests_run {blanks : List Char} (hblanks : AllBlank blanks) {text : α → List Char}
    {k : α → Nat} {xs : List α} (hx : ∀ x ∈ xs, Nests (text x) (k x)) (first : Bool) :
    Nests (run blanks first (xs.map text)) ((xs.map k).foldr max 0) := by
  induction xs generalizing first with
  | nil => exact nests_nil
  | cons x xs ih =>
      rw [List.forall_mem_cons] at hx
      have hlead : Nests (lead blanks first) 0 := by
        refine nests_of_all fun c hc => ?_
        cases first with
        | true => exact Or.inl (hblanks c hc)
        | false =>
            rcases List.mem_cons.1 hc with rfl | hc
            · exact Or.inr (Or.inl rfl)
            · exact Or.inl (hblanks c hc)
      have hall := hlead.append (hx.1.append (ih hx.2 false))
      rwa [Nat.zero_max] at hall

/-- Brackets around items add a level. -/
theorem nests_brackets {left right : Char} (hl : left = '[' ∨ left = '\x7b')
    (hr : right = ']' ∨ right = '\x7d') {text : α → List Char} {k : α → Nat} {xs : List α}
    (hx : ∀ x ∈ xs, Nests (text x) (k x)) {bs : List Char} (hbs : AllBlank bs) (level : Nat) :
    Nests (left :: (run (newline level).toList true (xs.map text) ++ (bs ++ [right])))
      ((xs.map k).foldr max 0 + 1) := by
  have hblank : Nests bs 0 := nests_of_all fun c hc => Or.inl (hbs c hc)
  have hinside := (nests_run (allBlank_newline level) hx true).append hblank
  rw [Nat.max_zero] at hinside
  intro outer rest
  have hopen (cs : List Char) :
      nesting outer false (left :: cs) = nesting (outer + 1) false cs := by
    rcases hl with rfl | rfl <;> simp [nesting]
  have hclose : nesting (outer + 1) false (right :: rest) =
      max (outer + 1) (nesting outer false rest) := by
    rcases hr with rfl | rfl <;> simp [nesting]
  rw [List.cons_append, hopen, ← List.append_assoc, List.append_assoc, hinside,
    List.singleton_append, hclose]
  omega

/-- **The text of a value nests as deep as the value does.** -/
theorem Value.nests_render {v : Value} (hv : v.isTextual = true) (level : Nat) :
    Nests (v.render level).toList v.levels := by
  induction v using Value.induct generalizing level with
  | scalar s =>
      cases s with
      | str s => exact nests_stringText s
      | _ => cases hv
  | list vs ih =>
      rw [Value.isTextual_list] at hv
      obtain ⟨bs, hbs, e⟩ := Value.toList_list level vs
      rw [e, Value.levels, Value.levelsAll_eq]
      exact nests_brackets (Or.inl rfl) (Or.inl rfl)
        (fun v hm => ih v hm (hv v hm) (level + 1)) hbs (level + 1)
  | object fields ih =>
      rw [Value.isTextual_object] at hv
      obtain ⟨bs, hbs, e⟩ := Value.toList_object level fields
      rw [e, Value.levels, Value.levelsFields_eq]
      refine nests_brackets (Or.inr rfl) (Or.inr rfl) (fun m hm => ?_) hbs (level + 1)
      have hcolon : Nests [':', ' '] 0 := by
        refine nests_of_all fun c hc => ?_
        rw [List.mem_cons, List.mem_singleton] at hc
        rcases hc with rfl | rfl
        · exact Or.inr (Or.inr rfl)
        · exact Or.inl rfl
      have hall := (nests_stringText m.1).append (hcolon.append (ih m hm (hv m hm) (level + 1)))
      rwa [Nat.zero_max, Nat.zero_max] at hall

end Lineage.Json

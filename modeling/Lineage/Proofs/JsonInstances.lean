import Lineage.Listing
import Lineage.Proofs.JsonText
import Lineage.Ty.Reader

/-!
# Instances are read back from their JSON texts

A list of instances written as JSON is read back as it was, whatever names, arguments and bounds
its instances have. The only texts of such lists that are refused are those nested too deep.

* `Ty.ofValue_toValue`: an instance is made back from its value, where `kind` stands in front and
  empty lists are left out.
* `Ty.scan_written`: an instance is read back from its text, though `kind` and the other members
  are read in two steps.
-/

namespace Lineage

open Json (Value taken Reads AllBlank run newline memberText)

/-! ## 1. Members -/

theorem Ty.toValues_eq_map (ts : List Ty) : Ty.toValues ts = ts.map Ty.toValue := by
  induction ts with
  | nil => rfl
  | cons t ts ih => rw [Ty.toValues, ih, List.map_cons]

theorem App.toValues_eq_map (as : List (App Ty)) : App.toValues as = as.map App.toValue := by
  induction as with
  | nil => rfl
  | cons a as ih => rw [App.toValues, ih, List.map_cons, App.toValue]

theorem Ty.toValue_app (a : App Ty) :
    (Ty.app a).toValue = .object (("kind", .str "explicit") :: a.members) := by
  rw [Ty.toValue]

theorem Ty.toValue_var (v : Var Ty) :
    (Ty.var v).toValue = .object (("kind", .str "generic") :: v.members) := by
  rw [Ty.toValue]

theorem mem_listMember {name : String} {vs : List Value} {m : String × Value}
    (hm : m ∈ Json.listMember name vs) : m = (name, .list vs) := by
  cases vs with
  | nil => cases hm
  | cons v vs => exact List.mem_singleton.1 hm

theorem App.mem_members {a : App Ty} {m : String × Value} (hm : m ∈ a.members) :
    m = ("name", .str a.head) ∨ m = ("params", .list (a.args.map Ty.toValue)) := by
  obtain ⟨head, args⟩ := a
  rw [App.members, Ty.toValues_eq_map] at hm
  rcases List.mem_cons.1 hm with rfl | hm
  · exact Or.inl rfl
  · exact Or.inr (mem_listMember hm)

theorem Var.mem_members {v : Var Ty} {m : String × Value} (hm : m ∈ v.members) :
    m = ("name", .str v.name) ∨ m = ("lower_bounds", .list (v.lower.map App.toValue)) ∨
      m = ("upper_bounds", .list (v.upper.map App.toValue)) := by
  obtain ⟨name, lower, upper⟩ := v
  rw [Var.members, App.toValues_eq_map, App.toValues_eq_map] at hm
  rcases List.mem_cons.1 hm with rfl | hm
  · exact Or.inl rfl
  · rcases List.mem_append.1 hm with hm | hm
    · exact Or.inr (Or.inl (mem_listMember hm))
    · exact Or.inr (Or.inr (mem_listMember hm))

theorem App.kind_ne {a : App Ty} : ∀ m ∈ a.members, m.1 ≠ "kind" := by
  intro m hm
  rcases App.mem_members hm with rfl | rfl <;> simp

theorem Var.kind_ne {v : Var Ty} : ∀ m ∈ v.members, m.1 ≠ "kind" := by
  intro m hm
  rcases Var.mem_members hm with rfl | rfl | rfl <;> simp

/-! ## 2. All scalars are strings -/

theorem isTextual_list_map {α : Type} {f : α → Value} {xs : List α}
    (hx : ∀ x ∈ xs, (f x).isTextual = true) : (Value.list (xs.map f)).isTextual = true := by
  rw [Value.isTextual_list, List.forall_mem_map]
  exact hx

theorem App.isTextual_members {a : App Ty} (ha : ∀ t ∈ a.args, t.toValue.isTextual = true) :
    ∀ m ∈ a.members, m.2.isTextual = true := by
  intro m hm
  rcases App.mem_members hm with rfl | rfl
  · rfl
  · exact isTextual_list_map ha

theorem App.isTextual_toValue {a : App Ty} (ha : ∀ t ∈ a.args, t.toValue.isTextual = true) :
    a.toValue.isTextual = true := by
  rw [App.toValue, Value.isTextual_object]
  exact App.isTextual_members ha

theorem Var.isTextual_members {v : Var Ty} (hl : ∀ b ∈ v.lower, b.toValue.isTextual = true)
    (hu : ∀ b ∈ v.upper, b.toValue.isTextual = true) : ∀ m ∈ v.members, m.2.isTextual = true := by
  intro m hm
  rcases Var.mem_members hm with rfl | rfl | rfl
  · rfl
  · exact isTextual_list_map hl
  · exact isTextual_list_map hu

theorem Ty.isTextual_toValue (t : Ty) : t.toValue.isTextual = true := by
  induction t using Ty.induct with
  | app head args ih =>
      rw [Ty.toValue_app, Value.isTextual_object]
      exact List.forall_mem_cons.2 ⟨rfl, App.isTextual_members ih⟩
  | var name lower upper hl hu =>
      rw [Ty.toValue_var, Value.isTextual_object]
      refine List.forall_mem_cons.2 ⟨rfl, Var.isTextual_members ?_ ?_⟩
      · exact fun b hb => App.isTextual_toValue (hl b hb)
      · exact fun b hb => App.isTextual_toValue (hu b hb)

/-! ## 3. Instances from their values -/

theorem Ty.listOfValue_eq_ok {ts : List Ty} (hts : ∀ t ∈ ts, Ty.ofValue t.toValue = .ok t) :
    Ty.listOfValue (.list (ts.map Ty.toValue)) = .ok ts := by
  rw [Ty.listOfValue]
  induction ts with
  | nil => rw [List.map_nil, Ty.ofValues]
  | cons t ts ih =>
      rw [List.forall_mem_cons] at hts
      rw [List.map_cons, Ty.ofValues, hts.1, ih hts.2]
      rfl

theorem App.ofMembers_members {a : App Ty} (ha : ∀ t ∈ a.args, Ty.ofValue t.toValue = .ok t) :
    App.ofMembers none none a.members = .ok a := by
  obtain ⟨head, args⟩ := a
  have hargs := Ty.listOfValue_eq_ok ha
  rw [App.members, Ty.toValues_eq_map]
  cases args with
  | nil => rfl
  | cons t ts =>
      rw [List.map_cons] at hargs ⊢
      rw [Json.listMember, App.ofMembers]
      show App.ofMembers (some head) none [("params", _)] = _
      rw [App.ofMembers]
      show (Ty.listOfValue _ >>= _) = _
      rw [hargs]
      rfl

theorem App.listOfValue_eq_ok {as : List (App Ty)}
    (has : ∀ a ∈ as, ∀ t ∈ a.args, Ty.ofValue t.toValue = .ok t) :
    App.listOfValue (.list (as.map App.toValue)) = .ok as := by
  rw [App.listOfValue]
  induction as with
  | nil => rw [List.map_nil, App.ofValues]
  | cons a as ih =>
      rw [List.forall_mem_cons] at has
      rw [List.map_cons, App.ofValues, App.toValue, App.ofValue, App.ofMembers_members has.1,
        ih has.2]
      rfl

theorem Var.ofMembers_upper {name : String} {lower : Option (List (App Ty))} {us : List (App Ty)}
    (hu : App.listOfValue (.list (us.map App.toValue)) = .ok us) :
    Var.ofMembers (some name) lower none (Json.listMember "upper_bounds" (us.map App.toValue)) =
      .ok ⟨name, lower.getD [], us⟩ := by
  cases us with
  | nil => rfl
  | cons u us =>
      rw [List.map_cons] at hu ⊢
      rw [Json.listMember, Var.ofMembers]
      show (App.listOfValue _ >>= _) = _
      rw [hu]
      rfl

theorem Var.ofMembers_members {v : Var Ty}
    (hl : ∀ b ∈ v.lower, ∀ t ∈ b.args, Ty.ofValue t.toValue = .ok t)
    (hu : ∀ b ∈ v.upper, ∀ t ∈ b.args, Ty.ofValue t.toValue = .ok t) :
    Var.ofMembers none none none v.members = .ok v := by
  obtain ⟨name, lower, upper⟩ := v
  have hlower := App.listOfValue_eq_ok hl
  have hupper := App.listOfValue_eq_ok hu
  rw [Var.members, App.toValues_eq_map, App.toValues_eq_map, Var.ofMembers]
  show Var.ofMembers (some name) none none _ = _
  cases lower with
  | nil => exact Var.ofMembers_upper hupper
  | cons b bs =>
      rw [List.map_cons] at hlower ⊢
      rw [Json.listMember, List.singleton_append, Var.ofMembers]
      show (App.listOfValue _ >>= _) = _
      rw [hlower]
      exact Var.ofMembers_upper hupper

theorem Ty.Kind.ofMembers_some (k : Ty.Kind) {ms : List (String × Value)}
    (hms : ∀ m ∈ ms, m.1 ≠ "kind") : Ty.Kind.ofMembers (some k) ms = .ok k := by
  induction ms with
  | nil => rfl
  | cons m ms ih =>
      obtain ⟨name, v⟩ := m
      rw [List.forall_mem_cons] at hms
      rw [Ty.Kind.ofMembers, if_neg hms.1]
      exact ih hms.2

/-- **An instance is made back from its value.** -/
theorem Ty.ofValue_toValue (t : Ty) : Ty.ofValue t.toValue = .ok t := by
  -- the members are gone through twice, once for `kind` and once for all others
  induction t using Ty.induct with
  | app head args ih =>
      rw [Ty.toValue_app, Ty.ofValue]
      show (Ty.Kind.ofMembers (some .app) (App.members ⟨head, args⟩) >>= _) = _
      rw [Ty.Kind.ofMembers_some _ App.kind_ne]
      show (App.ofMembers none none (("kind", _) :: _) >>= _) = _
      rw [App.ofMembers]
      show (App.ofMembers none none (App.members ⟨head, args⟩) >>= _) = _
      rw [App.ofMembers_members ih]
      rfl
  | var name lower upper hl hu =>
      rw [Ty.toValue_var, Ty.ofValue]
      show (Ty.Kind.ofMembers (some .var) (Var.members ⟨name, lower, upper⟩) >>= _) = _
      rw [Ty.Kind.ofMembers_some _ Var.kind_ne]
      show (Var.ofMembers none none none (("kind", _) :: _) >>= _) = _
      rw [Var.ofMembers]
      show (Var.ofMembers none none none (Var.members ⟨name, lower, upper⟩) >>= _) = _
      rw [Var.ofMembers_members hl hu]
      rfl

theorem Ty.ofBody_app (a : App Ty) : Ty.ofBody .app (.object a.members) = .ok (.app a) := by
  rw [Ty.ofBody, App.ofValue, App.ofMembers_members fun t _ => t.ofValue_toValue]
  rfl

theorem Ty.ofBody_var (v : Var Ty) : Ty.ofBody .var (.object v.members) = .ok (.var v) := by
  rw [Ty.ofBody, Var.ofMembers_members (fun _ _ t _ => t.ofValue_toValue)
    fun _ _ t _ => t.ofValue_toValue]
  rfl

/-! ## 4. Instances from their texts -/

namespace Json

theorem choice_written {α : Type} {names : List (String × α)} {name : String} {x : α}
    (hx : names.lookup name = some x) (offset : Nat) (rest : List Char) :
    taken (choice names ⟨offset, ' ' :: ((stringText name).toList ++ rest)⟩) = some (x, rest) := by
  rw [toList_stringText, List.cons_append, List.append_assoc, choice]
  refine taken_bind (stringBody_written name (offset + 2) rest) fun offset' => ?_
  simp only [hx]
  rfl

section Members

variable (depth level : Nat) {ms : List (String × Value)} (hkind : ∀ m ∈ ms, m.1 ≠ "kind")
  (htext : ∀ m ∈ ms, m.2.isTextual = true) {blanks bs : List Char} (hblanks : AllBlank blanks)
  (hbs : AllBlank bs)

include hkind htext hblanks hbs

/-- The members of an instance behind `kind`. -/
theorem scanMembers_written (k : Ty.Kind) {n : Nat} (hn : ms.length < n) (offset : Nat)
    (rest : List Char) :
    taken (Ty.scanMembers depth n false (some k)
      ⟨offset, run blanks false (ms.map (memberText level)) ++ (bs ++ '\x7d' :: rest)⟩) =
      if ms.all (·.2.fits depth) then some ((k, ms), '\x7d' :: rest) else none := by
  induction ms generalizing n offset with
  | nil =>
      obtain ⟨n, rfl⟩ := Nat.exists_eq_add_one_of_ne_zero (Nat.ne_zero_of_lt hn)
      rw [Ty.scanMembers]
      exact taken_bind (nextKey_end hbs false offset rest) fun _ => rfl
  | cons m ms ih =>
      obtain ⟨n, rfl⟩ := Nat.exists_eq_add_one_of_ne_zero (Nat.ne_zero_of_lt hn)
      rw [List.forall_mem_cons] at hkind htext
      rw [List.map_cons, run, List.append_assoc, List.append_assoc, memberText, List.append_assoc,
        Ty.scanMembers, List.all_cons]
      refine taken_bind (nextKey_item hblanks false offset m.1 _) fun offset' => ?_
      dsimp only
      rw [if_neg hkind.1, List.cons_append, taken_colon, List.cons_append, value_blank]
      refine taken_bind_ite (value_written depth level htext.1 _ _) fun offset'' => ?_
      have hrest := ih hkind.2 htext.2 (Nat.lt_of_succ_lt_succ hn) offset''
      exact taken_map_ite hrest fun _ => rfl

/-- The members of an instance, `kind` in front. -/
theorem scanMembers_kind {name : String} {k : Ty.Kind} (hk : Ty.Kind.names.lookup name = some k)
    {n : Nat} (hn : ms.length + 1 < n) (offset : Nat) (rest : List Char) :
    taken (Ty.scanMembers depth n true none
      ⟨offset, run blanks true ((("kind", .str name) :: ms).map (memberText level)) ++
        (bs ++ '\x7d' :: rest)⟩) =
      if ms.all (·.2.fits depth) then some ((k, ms), '\x7d' :: rest) else none := by
  obtain ⟨n, rfl⟩ := Nat.exists_eq_add_one_of_ne_zero (Nat.ne_zero_of_lt hn)
  rw [List.map_cons, run, List.append_assoc, List.append_assoc, memberText, List.append_assoc,
    Ty.scanMembers]
  refine taken_bind (nextKey_item hblanks true offset "kind" _) fun offset' => ?_
  dsimp only
  rw [if_pos rfl, Option.isSome_none, if_neg Bool.false_ne_true, List.cons_append, taken_colon]
  refine taken_bind (choice_written hk (offset' + 1) _) fun offset'' => ?_
  exact scanMembers_written depth level hkind htext hblanks hbs k (Nat.lt_of_succ_lt_succ hn)
    offset'' rest

end Members

/-- An object with `kind` in front is read as its kind and its other members. -/
theorem scanBody_written {name : String} {k : Ty.Kind} (hk : Ty.Kind.names.lookup name = some k)
    (depth level : Nat) {ms : List (String × Value)} (hkind : ∀ m ∈ ms, m.1 ≠ "kind")
    (htext : ∀ m ∈ ms, m.2.isTextual = true) :
    Reads (Ty.scanBody depth) ((Value.object (("kind", .str name) :: ms)).render level).toList
      (k, .object ms) ((Value.object (("kind", .str name) :: ms)).fits depth) := by
  obtain ⟨bs, hbs, e⟩ := Value.toList_object level (("kind", .str name) :: ms)
  intro offset rest
  rw [e, List.cons_append, List.append_assoc, List.append_assoc, List.singleton_append]
  cases depth with
  | zero => rfl
  | succ depth =>
      have hlt := length_lt_run (level + 1)
        ((("kind", .str name) :: ms).map (memberText (level + 1))) (bs ++ '\x7d' :: rest)
      rw [List.length_map, List.length_cons] at hlt
      have hin := scanMembers_kind depth (level + 1) hkind htext (allBlank_newline (level + 1)) hbs
        hk hlt (offset + 1) rest
      have hclose : ∀ offset, closeObject ⟨offset, '\x7d' :: rest⟩ = (⟨offset + 1, rest⟩, none) :=
        fun _ => rfl
      rw [Value.fits_object]
      exact taken_map_ite (taken_enclosed hclose hin) fun _ => rfl

end Json

/-- **An instance is read back from its text.** -/
theorem Ty.scan_written (depth level : Nat) (t : Ty) :
    Reads (Ty.scan depth) (t.toValue.render level).toList t (t.toValue.fits depth) := by
  intro offset rest
  cases t with
  | app a =>
      have htext : ∀ m ∈ a.members, m.2.isTextual = true :=
        App.isTextual_members fun t _ => t.isTextual_toValue
      have hk : Ty.Kind.names.lookup "explicit" = some .app := rfl
      have hbody := Json.scanBody_written hk depth level App.kind_ne htext offset rest
      rw [Ty.scan, Ty.toValue_app]
      refine Json.taken_map_ite hbody fun offset' => ?_
      simp only [Ty.ofBody_app]
      rfl
  | var v =>
      have hbound (b : App Ty) : b.toValue.isTextual = true :=
        App.isTextual_toValue fun t _ => t.isTextual_toValue
      have htext : ∀ m ∈ v.members, m.2.isTextual = true :=
        Var.isTextual_members (fun b _ => hbound b) fun b _ => hbound b
      have hk : Ty.Kind.names.lookup "generic" = some .var := rfl
      have hbody := Json.scanBody_written hk depth level Var.kind_ne htext offset rest
      rw [Ty.scan, Ty.toValue_var]
      refine Json.taken_map_ite hbody fun offset' => ?_
      simp only [Ty.ofBody_var]
      rfl

/-- A list of instances is read back from its text. -/
theorem Ty.listOf_written (depth level : Nat) (ts : List Ty) :
    Reads (Json.listOf Ty.scan depth) ((Value.list (ts.map Ty.toValue)).render level).toList ts
      ((Value.list (ts.map Ty.toValue)).fits depth) := by
  obtain ⟨bs, hbs, e⟩ := Value.toList_list level (ts.map Ty.toValue)
  intro offset rest
  rw [e]
  cases depth with
  | zero => rfl
  | succ depth =>
      have hread := Json.list_written hbs
        (fun (t : Ty) (_ : t ∈ ts) => Value.opens_render t.isTextual_toValue (level + 1))
        (fun t _ => Ty.scan_written depth (level + 1) t) (level + 1)
      rw [Value.fits_list, List.all_map, List.map_map]
      exact hread (offset + 1) rest

theorem Ty.toList_listing (ts : List Ty) : (Ty.listingAs true ts).toList =
    ((Value.list (ts.map Ty.toValue)).render 0).toList ++ ['\n'] := by
  rw [Ty.listingAs, if_pos rfl, Ty.jsonListing, lines, Value.text, Ty.toValues_eq_map]
  simp

/-- The text of a list is nested as deep as its value. -/
theorem Ty.nesting_listing (ts : List Ty) : Json.nesting 0 false (Ty.listingAs true ts).toList =
    (Value.list (ts.map Ty.toValue)).levels := by
  have htext : (Value.list (ts.map Ty.toValue)).isTextual = true :=
    isTextual_list_map fun t _ => t.isTextual_toValue
  have hend : Json.nesting 0 false ['\n'] = 0 := rfl
  rw [Ty.toList_listing, Value.nests_render htext 0 0 ['\n'], hend]
  omega

/-- **Instances are read back from their JSON text** exactly if the text opens no more than 127
    lists and objects at once. -/
theorem Ty.listOfJson_listing (ts : List Ty) :
    Ty.listOfJson (Ty.listingAs true ts) = .ok ts ↔
      Json.nesting 0 false (Ty.listingAs true ts).toList ≤ 127 := by
  have hread := Ty.listOf_written Json.maxDepth 0 ts 0 ['\n']
  rw [← Ty.toList_listing, Value.fits] at hread
  have hstart : Json.Cursor.start (Ty.listingAs true ts) = ⟨0, (Ty.listingAs true ts).toList⟩ := rfl
  rw [Ty.nesting_listing, Ty.listOfJson, Json.document, hstart]
  show _ ↔ _ ≤ Json.maxDepth
  by_cases hfit : (Value.list (ts.map Ty.toValue)).levels ≤ Json.maxDepth
  · rw [decide_eq_true hfit] at hread
    obtain ⟨offset, e⟩ := Json.taken_eq_some.1 hread
    rw [e]
    -- nothing is left but the line feed
    exact ⟨fun _ => hfit, fun _ => rfl⟩
  · rw [decide_eq_false hfit] at hread
    cases e : Json.listOf Ty.scan Json.maxDepth ⟨0, (Ty.listingAs true ts).toList⟩ with
    | ok r =>
        rw [e] at hread
        cases hread
    | error f =>
        constructor
        · intro h
          cases h
        · intro h
          exact absurd h hfit

end Lineage

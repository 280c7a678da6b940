import Lineage.Proofs.Reachable

/-!
# What adding a parent does

A new parent writes into many nodes at once: every descendant of the child may get a record of
every ancestor of the parent. This file reads the result off node by node.

* `getElem?_connect`: each node after `connect` is its old self with its own share of the legacies;
* `inheritAll_eq_ok`: the legacies of one heir are the joins of what it had with what comes in;
* `exists_inheritAll_eq_ok`: they are found if all these joins exist.
-/

namespace Lineage

/-! ## 1. Rosters without repeated keys -/

namespace Roster

variable {α β : Type} [DecidableEq α]

theorem nodup_keys_insert {r : Roster α β} (hr : r.keys.Nodup) (k : α) (v : β) :
    (r.insert k v).keys.Nodup := by
  rw [keys_insert]
  split
  · exact hr
  · rename_i hk
    exact List.nodup_append.2 ⟨hr, by simp, by
      intro a ha b hb e
      rw [List.mem_singleton] at hb
      exact hk (hb ▸ e ▸ ha)⟩

theorem contains_insert (r : Roster α β) (k k' : α) (v : β) :
    (r.insert k v).contains k' = true ↔ r.contains k' = true ∨ k' = k := by
  rw [contains, get?_insert]
  by_cases hk : k = k'
  · simp [hk]
  · simp [hk, Ne.symm hk, contains]

theorem lookup_of_mem {k : α} {v : β} : ∀ {es : List (α × β)}, (es.map Prod.fst).Nodup →
    (k, v) ∈ es → lookup k es = some v
  | [], _, h => by simp at h
  | (k₀, v₀) :: es, hn, h => by
      rw [List.map_cons, List.nodup_cons] at hn
      rcases List.mem_cons.1 h with e | hm
      · cases e
        simp [lookup]
      · have hne : k₀ ≠ k := fun e => hn.1 (e ▸ List.mem_map.2 ⟨_, hm, rfl⟩)
        simp [lookup, hne, lookup_of_mem hn.2 hm]

theorem mem_of_lookup {k : α} {v : β} : ∀ {es : List (α × β)}, lookup k es = some v → (k, v) ∈ es
  | [], h => by simp [lookup] at h
  | (k₀, v₀) :: es, h => by
      rw [lookup] at h
      split at h
      · rename_i e
        cases h
        subst e
        exact List.mem_cons_self
      · exact List.mem_cons_of_mem _ (mem_of_lookup h)

/-- **Without repeated keys, the entries are the values.** -/
theorem mem_entries_iff {r : Roster α β} (hr : r.keys.Nodup) {k : α} {v : β} :
    (k, v) ∈ r.entries ↔ r.get? k = some v :=
  ⟨lookup_of_mem hr, mem_of_lookup⟩

end Roster

theorem nodup_addNew {α : Type} [DecidableEq α] {xs : List α} (hx : xs.Nodup) (x : α) :
    (addNew xs x).Nodup := by
  unfold addNew
  split
  · exact hx
  · rename_i h
    exact List.nodup_append.2 ⟨hx, by simp, by
      intro a ha b hb e
      rw [List.mem_singleton] at hb
      exact h (hb ▸ e ▸ ha)⟩

theorem mem_foldl_addNew {xs acc : List Nat} {y : Nat} :
    y ∈ xs.foldl addNew acc ↔ y ∈ acc ∨ y ∈ xs := by
  induction xs generalizing acc with
  | nil => simp
  | cons x xs ih => simp [ih, or_assoc]

theorem nodup_foldl_addNew {xs acc : List Nat} (ha : acc.Nodup) :
    (xs.foldl addNew acc).Nodup := by
  induction xs generalizing acc with
  | nil => exact ha
  | cons x xs ih => exact ih (nodup_addNew ha x)

namespace Hierarchy

variable {h h' : Hierarchy}

/-! ## 2. Recording the legacies -/

/-- What a legacy does to the node of a number. -/
def settle (i : Nat) (n : Node) (l : Legacy) : Node :=
  let n := if l.heir = i then n.addAncestor l.ancestor l.record else n
  if l.ancestor = i then n.addDescendant l.heir else n

theorem getElem?_bequeath (nodes : List Node) (l : Legacy) (i : Nat) :
    (bequeath nodes l)[i]? = nodes[i]?.map (settle i · l) := by
  rw [bequeath, List.getElem?_modify, List.getElem?_modify]
  cases nodes[i]? with
  | none => rfl
  | some n => rfl

theorem getElem?_foldl_bequeath (ls : List Legacy) (nodes : List Node) (i : Nat) :
    (ls.foldl bequeath nodes)[i]? = nodes[i]?.map fun n => ls.foldl (settle i) n := by
  induction ls generalizing nodes with
  | nil => simp
  | cons l ls ih =>
      rw [List.foldl_cons, ih, getElem?_bequeath, Option.map_map]
      rfl

/-- What a new parent does to the node of a number, legacies apart. -/
def link (child parent : Nat) (record : App Ty) (i : Nat) (n : Node) : Node :=
  let n := if child = i then n.addParent parent record else n
  if parent = i then n.addChild child else n

/-- **Every node after `connect` is its old self with its share of the news.** -/
theorem getElem?_connect (nodes : List Node) (child parent : Nat) (record : App Ty)
    (ls : List Legacy) (i : Nat) : (connect nodes child parent record ls)[i]? =
      nodes[i]?.map fun n => ls.foldl (settle i) (link child parent record i n) := by
  rw [connect, getElem?_foldl_bequeath, List.getElem?_modify, List.getElem?_modify]
  cases nodes[i]? with
  | none => rfl
  | some n => rfl

/-! ## 3. A node's share -/

section Share

variable (i : Nat) (n : Node) (l : Legacy) (ls : List Legacy)

theorem bare_settle : (settle i n l).bare = n.bare := by
  unfold settle
  split <;> split <;> rfl

theorem parents_settle : (settle i n l).parents = n.parents := by
  unfold settle
  split <;> split <;> rfl

theorem children_settle : (settle i n l).children = n.children := by
  unfold settle
  split <;> split <;> rfl

theorem ancestors_settle : (settle i n l).ancestors =
    if l.heir = i then n.ancestors.insert l.ancestor l.record else n.ancestors := by
  unfold settle
  split <;> split <;> rfl

theorem descendants_settle : (settle i n l).descendants =
    if l.ancestor = i then addNew n.descendants l.heir else n.descendants := by
  unfold settle
  split <;> split <;> rfl

/-- A reading of a node that no legacy changes is not changed by a list of them. -/
theorem foldl_settle_eq {β : Type} {f : Node → β} (hf : ∀ n l, f (settle i n l) = f n) :
    f (ls.foldl (settle i) n) = f n := by
  induction ls generalizing n with
  | nil => rfl
  | cons l ls ih => rw [List.foldl_cons, ih, hf]

theorem nodup_ancestors_foldl (hn : n.ancestors.keys.Nodup) :
    (ls.foldl (settle i) n).ancestors.keys.Nodup := by
  induction ls generalizing n with
  | nil => exact hn
  | cons l ls ih =>
      refine ih _ ?_
      rw [ancestors_settle]
      split
      · exact Roster.nodup_keys_insert hn _ _
      · exact hn

theorem mem_descendants_foldl {x : Nat} : x ∈ (ls.foldl (settle i) n).descendants ↔
    x ∈ n.descendants ∨ ∃ l ∈ ls, l.ancestor = i ∧ l.heir = x := by
  induction ls generalizing n with
  | nil => simp
  | cons l ls ih =>
      rw [List.foldl_cons, ih, descendants_settle]
      by_cases hl : l.ancestor = i
      · simp only [hl, if_true, mem_addNew, List.exists_mem_cons_iff, true_and]
        constructor
        · rintro ((hx | rfl) | hx)
          · exact Or.inl hx
          · exact Or.inr (Or.inl rfl)
          · exact Or.inr (Or.inr hx)
        · rintro (hx | rfl | hx)
          · exact Or.inl (Or.inl hx)
          · exact Or.inl (Or.inr rfl)
          · exact Or.inr hx
      · simp [hl]

/-- A key that no legacy of the node writes keeps its record. -/
theorem get?_foldl_of_forall {a : Nat} (hl : ∀ l ∈ ls, l.heir = i → l.ancestor ≠ a) :
    (ls.foldl (settle i) n).ancestors.get? a = n.ancestors.get? a := by
  induction ls generalizing n with
  | nil => rfl
  | cons l ls ih =>
      rw [List.forall_mem_cons] at hl
      rw [List.foldl_cons, ih _ hl.2, ancestors_settle]
      split
      · rename_i hi
        rw [Roster.get?_insert, if_neg (hl.1 hi)]
      · rfl

/-- A key that the legacies of the node write, always with one record, has that record. -/
theorem get?_foldl_of_mem {a : Nat} {r : App Ty}
    (hl : ∀ l ∈ ls, l.heir = i → l.ancestor = a → l.record = r)
    (hm : n.ancestors.get? a = some r ∨ ∃ l ∈ ls, l.heir = i ∧ l.ancestor = a) :
    (ls.foldl (settle i) n).ancestors.get? a = some r := by
  induction ls generalizing n with
  | nil =>
      rcases hm with hm | ⟨l, hl, -⟩
      · exact hm
      · cases hl
  | cons l ls ih =>
      rw [List.forall_mem_cons] at hl
      refine ih _ hl.2 ?_
      rw [ancestors_settle]
      rcases hm with hm | ⟨l', hl', hi, ha⟩
      · left
        split
        · rename_i hi
          rw [Roster.get?_insert]
          split
          · rename_i ha
            rw [hl.1 hi ha]
          · exact hm
        · exact hm
      · rcases List.mem_cons.1 hl' with rfl | hl'
        · left
          rw [if_pos hi, Roster.get?_insert, if_pos ha, hl.1 hi ha]
        · exact Or.inr ⟨l', hl', hi, ha⟩

end Share

theorem bare_link (c p i : Nat) (r : App Ty) (n : Node) : (link c p r i n).bare = n.bare := by
  unfold link
  split <;> split <;> rfl

theorem parents_link (c p i : Nat) (r : App Ty) (n : Node) :
    (link c p r i n).parents = if c = i then n.parents.insert p r else n.parents := by
  unfold link
  split <;> split <;> rfl

theorem children_link (c p i : Nat) (r : App Ty) (n : Node) :
    (link c p r i n).children = if p = i then addNew n.children c else n.children := by
  unfold link
  split <;> split <;> rfl

theorem ancestors_link (c p i : Nat) (r : App Ty) (n : Node) :
    (link c p r i n).ancestors = n.ancestors := by
  unfold link
  split <;> split <;> rfl

theorem descendants_link (c p i : Nat) (r : App Ty) (n : Node) :
    (link c p r i n).descendants = n.descendants := by
  unfold link
  split <;> split <;> rfl

/-! ## 4. The legacies -/

/-- A record joined with what comes in; a missing record gives way to it. -/
def Joined (old : Option (App Ty)) (incoming joined : App Ty) : Prop :=
  match old with
  | none => joined = incoming
  | some existing => existing.refine incoming = some joined

namespace Joined

variable {old : Option (App Ty)} {incoming r r' z : App Ty}

theorem unique (e : Joined old incoming r) (e' : Joined old incoming r') : r = r' := by
  cases old with
  | none => exact Eq.trans e (Eq.symm e')
  | some existing => exact Option.some_inj.1 (Eq.trans (Eq.symm e) e')

theorem incoming_covers (e : Joined old incoming r) : incoming.Covers r := by
  cases old with
  | none =>
      obtain rfl : r = incoming := e
      exact App.covers_refl _
  | some existing => exact (App.covers_refine e).2

theorem old_covers {x : App Ty} (e : Joined (some x) incoming r) : x.Covers r :=
  (App.covers_refine e).1

/-- Below a common bound the join exists. -/
theorem exists_of_covers (hi : incoming.Covers z) (ho : ∀ x, old = some x → x.Covers z) :
    ∃ r, Joined old incoming r := by
  cases old with
  | none => exact ⟨incoming, rfl⟩
  | some x => exact Option.isSome_iff_exists.1 (App.refine_isSome (ho x rfl) hi)

/-- The join is the least common bound. -/
theorem covers (e : Joined old incoming r) (hi : incoming.Covers z)
    (ho : ∀ x, old = some x → x.Covers z) : r.Covers z := by
  cases old with
  | none =>
      obtain rfl : r = incoming := e
      exact hi
  | some x => exact App.refine_covers e (ho x rfl) hi

end Joined

/-- An ancestor's record in the parent, carried over to a heir of the child. -/
def carried (child parent : Node) (link asChild record : App Ty) : App Ty :=
  child.substitute (parent.substitute record link.args) asChild.args

theorem inherit_eq_ok {heir : Node} {a : Nat} {incoming : App Ty} {o : Option Legacy}
    (e : inherit heir a incoming = .ok o) :
    ∃ r, Joined (heir.ancestors.get? a) incoming r ∧
      ((heir.ancestors.get? a = some r ∧ o = none) ∨ o = some ⟨heir.id, a, r⟩) := by
  unfold inherit at e
  split at e
  · rename_i hg
    cases e
    exact ⟨incoming, by rw [hg]; rfl, Or.inr rfl⟩
  · rename_i existing hg
    split at e
    · cases e
    · rename_i refined hr
      cases e
      refine ⟨refined, by rw [hg]; exact hr, ?_⟩
      split
      · rename_i he
        exact Or.inl ⟨by rw [hg, he], rfl⟩
      · exact Or.inr rfl

theorem exists_inherit_eq_ok {heir : Node} {a : Nat} {incoming r : App Ty}
    (hj : Joined (heir.ancestors.get? a) incoming r) : ∃ o, inherit heir a incoming = .ok o := by
  unfold inherit
  split
  · exact ⟨_, rfl⟩
  · rename_i existing hg
    rw [hg] at hj
    have hr : existing.refine incoming = some r := hj
    rw [hr]
    exact ⟨_, rfl⟩

section Legacies

variable {child parent heir : Node} {record asChild : App Ty} {ls : List Legacy}

theorem inheritAll_eq_ok (hc : heir.ancestors.get? child.id = some asChild)
    (e : inheritAll child parent record heir = .ok ls) :
    (∀ l ∈ ls, l.heir = heir.id ∧ ∃ y, (l.ancestor, y) ∈ parent.ancestors.entries ∧
      Joined (heir.ancestors.get? l.ancestor) (carried child parent record asChild y) l.record) ∧
    ∀ a y, (a, y) ∈ parent.ancestors.entries →
      ∃ r, Joined (heir.ancestors.get? a) (carried child parent record asChild y) r ∧
        (heir.ancestors.get? a = some r ∨ ⟨heir.id, a, r⟩ ∈ ls) := by
  rw [inheritAll, hc] at e
  obtain ⟨os, hos, e⟩ := bind_eq_ok.1 e
  obtain rfl := pure_eq_ok.1 e
  have hos := mapM_eq_ok.1 hos
  constructor
  · intro l hl
    obtain ⟨o, ho, rfl⟩ := List.mem_filterMap.1 hl
    obtain ⟨⟨a, y⟩, hy, e⟩ := forall₂_exists_left hos ho
    obtain ⟨r, hj, ⟨-, h⟩ | h⟩ := inherit_eq_ok e
    · cases h
    · cases h
      exact ⟨rfl, y, hy, hj⟩
  · intro a y hy
    obtain ⟨o, ho, e⟩ := forall₂_exists_right hos hy
    obtain ⟨r, hj, ⟨h, -⟩ | h⟩ := inherit_eq_ok e
    · exact ⟨r, hj, Or.inl h⟩
    · exact ⟨r, hj, Or.inr (List.mem_filterMap.2 ⟨o, ho, h⟩)⟩

theorem exists_inheritAll_eq_ok
    (hj : ∀ asChild, heir.ancestors.get? child.id = some asChild →
      ∀ a y, (a, y) ∈ parent.ancestors.entries →
        ∃ r, Joined (heir.ancestors.get? a) (carried child parent record asChild y) r) :
    ∃ ls, inheritAll child parent record heir = .ok ls := by
  unfold inheritAll
  split
  · exact ⟨_, rfl⟩
  · rename_i asChild hc
    refine exists_bind_eq_ok (exists_mapM_eq_ok fun p hp => ?_) fun os => ⟨_, rfl⟩
    obtain ⟨a, y⟩ := p
    obtain ⟨r, hr⟩ := hj asChild hc a y hp
    exact exists_inherit_eq_ok hr

end Legacies

end Hierarchy

end Lineage

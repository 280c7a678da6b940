/-!
# Rosters

A roster is a table that keeps its keys in the order in which they first came. Writing a key that
is already there replaces its value and leaves it at its place. `List.addNew` is the same for a
list of keys alone.
-/

namespace Lineage

/-- A table with its keys in the order of their first writing. -/
structure Roster (α β : Type) where
  entries : List (α × β)
  deriving DecidableEq

namespace Roster

variable {α β : Type} [DecidableEq α]

/-- The roster without entries. -/
def empty : Roster α β := ⟨[]⟩

/-- The keys in order. -/
def keys (r : Roster α β) : List α := r.entries.map Prod.fst

/-- The first value written beside a key in a list of entries. -/
def lookup (k : α) : List (α × β) → Option β
  | [] => none
  | (k', v) :: rest => if k' = k then some v else lookup k rest

/-- A list of entries with a value written beside a key. -/
def write (k : α) (v : β) : List (α × β) → List (α × β)
  | [] => [(k, v)]
  | (k', v') :: rest => if k' = k then (k, v) :: rest else (k', v') :: write k v rest

/-- The value of a key. -/
def get? (r : Roster α β) (k : α) : Option β := lookup k r.entries

/-- Whether a key has a value. -/
def contains (r : Roster α β) (k : α) : Bool := (r.get? k).isSome

/-- The roster after writing a value beside a key. -/
def insert (r : Roster α β) (k : α) (v : β) : Roster α β := ⟨write k v r.entries⟩

theorem lookup_write (k k' : α) (v : β) :
    ∀ es : List (α × β), lookup k' (write k v es) = if k = k' then some v else lookup k' es
  | [] => by simp [write, lookup]
  | (k₀, v₀) :: es => by
      unfold write
      split
      · rename_i h
        subst h
        by_cases hk : k₀ = k' <;> simp [lookup, hk]
      · rename_i h
        by_cases hk : k₀ = k'
        · subst hk
          simp [lookup, Ne.symm h]
        · simp [lookup, hk, lookup_write k k' v es]

/-- **Writing changes the value of the written key only.** -/
theorem get?_insert (r : Roster α β) (k k' : α) (v : β) :
    (r.insert k v).get? k' = if k = k' then some v else r.get? k' :=
  lookup_write k k' v r.entries

theorem map_fst_write (k : α) (v : β) :
    ∀ es : List (α × β), (write k v es).map Prod.fst =
      if k ∈ es.map Prod.fst then es.map Prod.fst else es.map Prod.fst ++ [k]
  | [] => by simp [write]
  | (k₀, v₀) :: es => by
      unfold write
      split
      · rename_i h
        subst h
        simp
      · rename_i h
        rw [List.map_cons, map_fst_write k v es]
        by_cases hk : k ∈ es.map Prod.fst
        · simp [hk]
        · simp [hk, Ne.symm h]

/-- **A new key comes last, an old one stays at its place.** -/
theorem keys_insert (r : Roster α β) (k : α) (v : β) :
    (r.insert k v).keys = if k ∈ r.keys then r.keys else r.keys ++ [k] :=
  map_fst_write k v r.entries

theorem lookup_isSome (k : α) :
    ∀ es : List (α × β), (lookup k es).isSome = true ↔ k ∈ es.map Prod.fst
  | [] => by simp [lookup]
  | (k₀, v₀) :: es => by
      by_cases hk : k₀ = k
      · simp [lookup, hk]
      · simp [lookup, hk, lookup_isSome k es, Ne.symm hk]

theorem contains_iff (r : Roster α β) (k : α) : r.contains k = true ↔ k ∈ r.keys :=
  lookup_isSome k r.entries

end Roster

/-- A list with an element at its end, unless it is there already. -/
def addNew {α : Type} [DecidableEq α] (xs : List α) (x : α) : List α :=
  if x ∈ xs then xs else xs ++ [x]

@[simp] theorem mem_addNew {α : Type} [DecidableEq α] {xs : List α} {x y : α} :
    y ∈ addNew xs x ↔ y ∈ xs ∨ y = x := by
  unfold addNew
  split
  · rename_i h
    constructor
    · exact Or.inl
    · rintro (hy | rfl)
      · exact hy
      · exact h
  · simp

end Lineage

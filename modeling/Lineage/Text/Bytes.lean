/-!
# Texts in bytes

Places in a text are counted in bytes of its UTF-8 form. A text can be cut at the places between its
characters only.
-/

namespace Lineage.Text

/-- The number of bytes a text takes in UTF-8. -/
def byteLength : List Char → Nat
  | [] => 0
  | c :: cs => c.utf8Size + byteLength cs

theorem byteLength_append (cs ds : List Char) :
    byteLength (cs ++ ds) = byteLength cs + byteLength ds := by
  induction cs with
  | nil => simp [byteLength]
  | cons c cs ih => simp [byteLength, ih, Nat.add_assoc]

/-- The text from a place on. There is none inside a character or behind the end. -/
def dropBytes : List Char → Nat → Option (List Char)
  | [], n => if n = 0 then some [] else none
  | c :: cs, n =>
      if n = 0 then some (c :: cs)
      else if c.utf8Size ≤ n then dropBytes cs (n - c.utf8Size)
      else none

/-- The text up to a place. -/
def takeBytes : List Char → Nat → Option (List Char)
  | [], n => if n = 0 then some [] else none
  | c :: cs, n =>
      if n = 0 then some []
      else if c.utf8Size ≤ n then (takeBytes cs (n - c.utf8Size)).map (c :: ·)
      else none

/-- The text between two places. -/
def slice (cs : List Char) (start stop : Nat) : Option (List Char) :=
  if start ≤ stop then (dropBytes cs start).bind (takeBytes · (stop - start)) else none

theorem dropBytes_zero (cs : List Char) : dropBytes cs 0 = some cs := by
  cases cs <;> rfl

theorem takeBytes_zero (cs : List Char) : takeBytes cs 0 = some [] := by
  cases cs <;> rfl

theorem dropBytes_append (cs ds : List Char) : dropBytes (cs ++ ds) (byteLength cs) = some ds := by
  induction cs with
  | nil => exact dropBytes_zero ds
  | cons c cs ih =>
      have hpos := c.utf8Size_pos
      rw [List.cons_append, dropBytes, byteLength, if_neg (by omega), if_pos (by omega),
        Nat.add_sub_cancel_left, ih]

theorem takeBytes_append (cs ds : List Char) : takeBytes (cs ++ ds) (byteLength cs) = some cs := by
  induction cs with
  | nil => exact takeBytes_zero ds
  | cons c cs ih =>
      have hpos := c.utf8Size_pos
      rw [List.cons_append, takeBytes, byteLength, if_neg (by omega), if_pos (by omega),
        Nat.add_sub_cancel_left, ih, Option.map_some]

/-- What is written between two places is cut out. -/
theorem slice_append (before cs after : List Char) :
    slice (before ++ (cs ++ after)) (byteLength before) (byteLength before + byteLength cs) =
      some cs := by
  rw [slice, if_pos (Nat.le_add_right _ _), dropBytes_append, Option.bind_some,
    Nat.add_sub_cancel_left, takeBytes_append]

/-- What is cut out has the length of the range. -/
theorem byteLength_of_takeBytes {cs s : List Char} {n : Nat} (e : takeBytes cs n = some s) :
    byteLength s = n := by
  induction cs generalizing n s with
  | nil =>
      rw [takeBytes] at e
      split at e
      · cases e
        exact (‹n = 0›).symm
      · cases e
  | cons c cs ih =>
      rw [takeBytes] at e
      split at e
      · cases e
        exact (‹n = 0›).symm
      · split at e
        · obtain ⟨t, ht, rfl⟩ := Option.map_eq_some_iff.1 e
          rw [byteLength, ih ht]
          omega
        · cases e

theorem byteLength_of_slice {cs s : List Char} {start stop : Nat}
    (e : slice cs start stop = some s) : start + byteLength s = stop := by
  rw [slice] at e
  split at e
  · obtain ⟨ds, -, e⟩ := Option.bind_eq_some_iff.1 e
    rw [byteLength_of_takeBytes e]
    omega
  · cases e

end Lineage.Text

import Lineage.Proofs.Table

/-!
# First common relatives

The nodes that lie in a direction from each of some nodes are their common relatives, and the first
ones are those before which no other lies. A list that has exactly the first common relatives of
some nodes (`Lists`) leads to one that has exactly those of more nodes (`Lists.merge`): before every
common relative of all of them there is one of the first, and before that one among what is found
for it. So nothing that a later node needs is thrown away.
-/

namespace Lineage

open Nearest

/-! ## 1. Lists of numbers -/

/-- Numbers that are all new are put behind the others. -/
theorem foldl_addNew_of_nodup {xs acc : List Nat} (hx : (acc ++ xs).Nodup) :
    xs.foldl addNew acc = acc ++ xs := by
  induction xs generalizing acc with
  | nil => simp
  | cons x xs ih =>
      have hnew : x ∉ acc := fun hm =>
        (List.nodup_append.1 hx).2.2 x hm x List.mem_cons_self rfl
      rw [List.foldl_cons, addNew, if_neg hnew, ih (by simpa using hx), List.append_assoc]
      rfl

namespace Hierarchy

variable {h : Hierarchy} {d : Direction} {S T is js : List Nat} {c i j : Nat}

/-! ## 2. First common relatives -/

/-- A node that is reached from each of the given ones. -/
def FromAll (h : Hierarchy) (d : Direction) (S : List Nat) (c : Nat) : Prop :=
  ∀ s ∈ S, h.Reaches d s c

/-- A common relative that lies beyond no other one. -/
def IsFirst (h : Hierarchy) (d : Direction) (S : List Nat) (c : Nat) : Prop :=
  h.FromAll d S c ∧ ∀ x, h.FromAll d S x → h.Reaches d x c → x = c

/-- The list has the first common relatives, each of them once. -/
structure Lists (h : Hierarchy) (d : Direction) (S is : List Nat) : Prop where
  nodup : is.Nodup
  mem : ∀ {c : Nat}, c ∈ is ↔ h.IsFirst d S c

/-- Those of the given numbers that lie beyond no other one. -/
def firsts (h : Hierarchy) (d : Direction) (is : List Nat) : List Nat :=
  is.filter fun x => !is.any fun y => y != x && Table.beyond h.nodes d x y

/-- The first ones among what is found for each of the given numbers. -/
def merged (h : Hierarchy) (d : Direction) (is : List Nat) (found : Nat → List Nat) : List Nat :=
  h.firsts d ((is.flatMap found).foldl addNew [])

theorem fromAll_append : h.FromAll d (S ++ T) c ↔ h.FromAll d S c ∧ h.FromAll d T c :=
  List.forall_mem_append

theorem fromAll_cons : h.FromAll d (i :: S) c ↔ h.Reaches d i c ∧ h.FromAll d S c :=
  List.forall_mem_cons

section First

variable (hs : Sound h)
include hs

theorem FromAll.lt (hc : h.FromAll d S c) (hS : S ≠ []) : c < h.nodes.length := by
  obtain ⟨s, S, rfl⟩ := List.exists_cons_of_ne_nil hS
  exact hs.lt_of_reaches (fromAll_cons.1 hc).1

theorem mem_firsts {x : Nat} : x ∈ h.firsts d is ↔
    x ∈ is ∧ ∀ y ∈ is, h.Reaches d y x → y = x := by
  unfold firsts
  rw [List.mem_filter, Bool.not_eq_true', List.any_eq_false]
  refine and_congr Iff.rfl (forall_congr' fun y => forall_congr' fun _ => ?_)
  rw [Bool.and_eq_true, beyond_iff hs, bne_iff_ne, not_and]
  constructor
  · intro hy hyx
    by_contra hne
    exact hy hne hyx
  · intro hy hne hyx
    exact hne (hy hyx)

/-- A list of first common relatives stays as it is. -/
theorem Lists.firsts_eq (hi : h.Lists d S is) : h.firsts d (is.foldl addNew []) = is := by
  have hadd : is.foldl addNew [] = is := foldl_addNew_of_nodup hi.nodup
  rw [hadd]
  have hself : ∀ x ∈ is, x ∈ h.firsts d is := by
    intro x hx
    refine (mem_firsts hs).2 ⟨hx, fun y hy hyx => ?_⟩
    exact (hi.mem.1 hx).2 y (hi.mem.1 hy).1 hyx
  show is.filter _ = is
  refine List.filter_eq_self.2 fun x hx => ?_
  exact (List.mem_filter.1 (hself x hx)).2

theorem lists_self (hi : i < h.nodes.length) : h.Lists d [i] [i] where
  nodup := List.nodup_singleton i
  mem := fun {c} => by
    have hii : h.Reaches d i i := hs.reaches_refl (List.getElem?_eq_getElem hi)
    rw [List.mem_singleton]
    constructor
    · rintro rfl
      refine ⟨by simpa [FromAll] using hii, fun x hx hxc => ?_⟩
      exact hs.reaches_antisymm hxc (hx c List.mem_cons_self)
    · intro hc
      have hi' : h.FromAll d [i] i := by simpa [FromAll] using hii
      exact (hc.2 i hi' (hc.1 i List.mem_cons_self)).symm

/-- A cell of the table has the first common relatives of its two nodes. -/
theorem lists_cell (hi : i < h.nodes.length) (hj : j < h.nodes.length) :
    h.Lists d [i, j] ((Table.build h.nodes d).get i j) := by
  have hcell := filled_build (d := d) hs hi hj
  refine ⟨hcell.1.imp Nat.ne_of_lt, fun {c} => ?_⟩
  have hcommon {x : Nat} : h.Common d i j x ↔ h.FromAll d [i, j] x := by
    simp [Common, FromAll]
  rw [hcell.2]
  constructor
  · intro hc
    exact ⟨hcommon.1 hc.1, fun x hx => hc.2 (hcommon.2 hx)⟩
  · intro hc
    exact ⟨hcommon.2 hc.1, fun {x} hx => hc.2 x (hcommon.1 hx)⟩

/-- **The first among what is found for first common relatives are the first common relatives of
    everything.** -/
theorem Lists.merge {found : Nat → List Nat} (hi : h.Lists d S is) (hS : S ≠ [])
    (hf : ∀ i ∈ is, h.Lists d (i :: T) (found i)) :
    h.Lists d (S ++ T) (h.merged d is found) := by
  have hcommon : ∀ u ∈ is.flatMap found, h.FromAll d (S ++ T) u := by
    intro u hu
    obtain ⟨i, hmem, hu⟩ := List.mem_flatMap.1 hu
    have hfrom := fromAll_cons.1 ((hf i hmem).mem.1 hu).1
    have hstart := (hi.mem.1 hmem).1
    refine fromAll_append.2 ⟨fun s hs' => ?_, hfrom.2⟩
    exact hs.reaches_trans (hstart s hs') hfrom.1
  -- before every common relative of all there is one that is found
  have hbefore : ∀ x, h.FromAll d (S ++ T) x → ∃ u ∈ is.flatMap found, h.Reaches d u x := by
    intro x hx
    obtain ⟨hxS, hxT⟩ := fromAll_append.1 hx
    obtain ⟨i, hiS, hix, hfirst⟩ := hs.exists_first (fun y hy => FromAll.lt hs hy hS) hxS
    have hmem : i ∈ is := hi.mem.2 ⟨hiS, hfirst⟩
    have hxi : h.FromAll d (i :: T) x := fromAll_cons.2 ⟨hix, hxT⟩
    obtain ⟨u, hu, hux, hfirst'⟩ :=
      hs.exists_first (fun y hy => FromAll.lt hs hy (List.cons_ne_nil i T)) hxi
    exact ⟨u, List.mem_flatMap.2 ⟨i, hmem, (hf i hmem).mem.2 ⟨hu, hfirst'⟩⟩, hux⟩
  refine ⟨(nodup_foldl_addNew List.nodup_nil).filter _, fun {c} => ?_⟩
  have hmem {y : Nat} : y ∈ (is.flatMap found).foldl addNew [] ↔ y ∈ is.flatMap found := by
    rw [mem_foldl_addNew]
    simp
  rw [merged, mem_firsts hs, hmem]
  constructor
  · intro hc
    refine ⟨hcommon c hc.1, fun x hx hxc => ?_⟩
    obtain ⟨u, hu, hux⟩ := hbefore x hx
    have huc : u = c := hc.2 u (hmem.2 hu) (hs.reaches_trans hux hxc)
    subst huc
    exact hs.reaches_antisymm hxc hux
  · intro hc
    obtain ⟨u, hu, huc⟩ := hbefore c hc.1
    have hu' : u = c := hc.2 u (hcommon u hu) huc
    subst hu'
    exact ⟨hu, fun y hy hyu => hc.2 y (hcommon y (hmem.1 hy)) hyu⟩

end First

end Hierarchy

end Lineage

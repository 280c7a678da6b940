import Lineage.Proofs.Order
import Mathlib.Data.List.Sort

/-!
# The tables are exact

A cell of a table holds the nearest common relatives of its two nodes and nothing else.

* `IsNearest`: a common relative with no other common relative before it;
* `exists_nearest`: one comes before every common relative;
* `nearest_eq`: the nearest of some candidates, found by sorting, are those met in a search through
  all nodes;
* `nearest_of_reaches`, `nearest_of_steps`: the two ways in which a cell is filled are right;
* `filled_build`: so every cell of a table is exact.
-/

namespace Lineage.Hierarchy

open Relation Nearest

variable {h : Hierarchy} {d : Direction} {a b c : Nat}

/-! ## 1. Nearest common relatives -/

/-- A node that is reached from both. -/
def Common (h : Hierarchy) (d : Direction) (a b c : Nat) : Prop :=
  h.Reaches d a c ∧ h.Reaches d b c

/-- A common relative that lies beyond no other one. -/
def IsNearest (h : Hierarchy) (d : Direction) (a b c : Nat) : Prop :=
  h.Common d a b c ∧ ∀ {x : Nat}, h.Common d a b x → h.Reaches d x c → x = c

theorem Common.symm (hc : h.Common d a b c) : h.Common d b a c := And.symm hc

theorem isNearest_comm : h.IsNearest d a b c ↔ h.IsNearest d b a c :=
  ⟨fun hc => ⟨hc.1.symm, fun hx => hc.2 hx.symm⟩, fun hc => ⟨hc.1.symm, fun hx => hc.2 hx.symm⟩⟩

section Nearest

variable (hs : Sound h)
include hs

/-- **Before every common relative there is a nearest one.** -/
theorem exists_nearest (hc : h.Common d a b c) : ∃ x, h.IsNearest d a b x ∧ h.Reaches d x c := by
  have hlt : ∀ x, h.Common d a b x → x < h.nodes.length := fun x hx => hs.lt_of_reaches hx.1
  obtain ⟨x, hx, hxc, hfirst⟩ := hs.exists_first hlt hc
  exact ⟨x, ⟨hx, fun {y} hy => hfirst y hy⟩, hxc⟩

/-- A node that is reached from the other is the only nearest common relative. -/
theorem nearest_of_reaches (hba : h.Reaches d b a) : h.IsNearest d a b c ↔ c = a := by
  obtain ⟨n, hn⟩ := hs.node_of_reaches hba
  have haa : h.Reaches d a a := hs.reaches_refl hn
  constructor
  · rintro ⟨hc, hmin⟩
    exact (hmin ⟨haa, hba⟩ hc.1).symm
  · rintro rfl
    exact ⟨⟨haa, hba⟩, fun hx hxa => hs.reaches_antisymm hxa hx.1⟩

/-- If a node is not reached from the other, common relatives lie beyond one of its steps. -/
theorem common_iff_steps (hba : ¬ h.Reaches d b a) :
    h.Common d a b c ↔ ∃ s, h.Step d a s ∧ h.Common d s b c := by
  constructor
  · rintro ⟨hac, hbc⟩
    rcases hs.reaches_cases hac with rfl | ⟨s, has, hsc⟩
    · exact absurd hbc hba
    · exact ⟨s, has, hsc, hbc⟩
  · rintro ⟨s, has, hsc, hbc⟩
    exact ⟨hs.reaches_trans (hs.reaches_of_step has) hsc, hbc⟩

/-- **The nearest common relatives are the nearest among those of the steps.** -/
theorem nearest_of_steps (hba : ¬ h.Reaches d b a) : h.IsNearest d a b c ↔
    (∃ s, h.Step d a s ∧ h.IsNearest d s b c) ∧
      ∀ {x : Nat}, (∃ s, h.Step d a s ∧ h.IsNearest d s b x) → h.Reaches d x c → x = c := by
  constructor
  · rintro ⟨hc, hmin⟩
    obtain ⟨s, has, hsc⟩ := (common_iff_steps hs hba).1 hc
    refine ⟨⟨s, has, hsc, fun hx => hmin ((common_iff_steps hs hba).2 ⟨s, has, hx⟩)⟩, ?_⟩
    rintro x ⟨t, hat, htx⟩
    exact hmin ((common_iff_steps hs hba).2 ⟨t, hat, htx.1⟩)
  · rintro ⟨⟨s, has, hsc⟩, hmin⟩
    refine ⟨(common_iff_steps hs hba).2 ⟨s, has, hsc.1⟩, fun {x} hx hxc => ?_⟩
    obtain ⟨t, hat, htx⟩ := (common_iff_steps hs hba).1 hx
    obtain ⟨y, hy, hyx⟩ := exists_nearest hs htx
    obtain rfl := hmin ⟨t, hat, hy⟩ (hs.reaches_trans hyx hxc)
    exact hs.reaches_antisymm hxc hyx

end Nearest

/-! ## 2. One cell -/

/-- The cell lists the nearest common relatives in increasing order. -/
def Exact (h : Hierarchy) (d : Direction) (a b : Nat) (cell : List Nat) : Prop :=
  cell.Pairwise (· < ·) ∧ ∀ {c : Nat}, c ∈ cell ↔ h.IsNearest d a b c

/-- An increasing list is settled by its members. -/
theorem eq_of_increasing {xs ys : List Nat} (hx : xs.Pairwise (· < ·)) (hy : ys.Pairwise (· < ·))
    (hmem : ∀ c, c ∈ xs ↔ c ∈ ys) : xs = ys := by
  refine List.Perm.eq_of_pairwise (fun _ _ _ _ hxy hyx => absurd hxy (Nat.lt_asymm hyx)) hx hy
    ((List.perm_ext_iff_of_nodup ?_ ?_).2 hmem)
  · exact hx.imp Nat.ne_of_lt
  · exact hy.imp Nat.ne_of_lt

theorem Exact.unique {xs ys : List Nat} (hx : h.Exact d a b xs) (hy : h.Exact d a b ys) :
    xs = ys :=
  eq_of_increasing hx.1 hy.1 fun _ => hx.2.trans hy.2.symm

theorem Exact.symm {xs : List Nat} (hx : h.Exact d a b xs) : h.Exact d b a xs :=
  ⟨hx.1, hx.2.trans isNearest_comm⟩

/-! ### Sorting -/

theorem insertSorted_eq (x : Nat) (xs : List Nat) :
    Table.insertSorted x xs = xs.orderedInsert (· ≤ ·) x := by
  induction xs with
  | nil => rfl
  | cons y ys ih => rw [Table.insertSorted, ih, List.orderedInsert_cons]

theorem sorted_eq (xs : List Nat) : Table.sorted xs = xs.insertionSort (· ≤ ·) := by
  induction xs with
  | nil => rfl
  | cons x xs ih =>
      rw [Table.sorted] at ih ⊢
      rw [List.foldr_cons, ih, insertSorted_eq, List.insertionSort_cons]

theorem mem_sorted {xs : List Nat} {x : Nat} : x ∈ Table.sorted xs ↔ x ∈ xs := by
  rw [sorted_eq, List.mem_insertionSort]

/-- Different numbers are sorted into an increasing list. -/
theorem pairwise_sorted {xs : List Nat} (hx : xs.Nodup) :
    (Table.sorted xs).Pairwise (· < ·) := by
  rw [sorted_eq]
  have hle := List.pairwise_insertionSort (· ≤ ·) xs
  have hne : (xs.insertionSort (· ≤ ·)).Nodup := (List.perm_insertionSort _ xs).nodup_iff.2 hx
  exact (hle.and hne).imp fun hxy => Nat.lt_of_le_of_ne hxy.1 hxy.2

/-- **The nearest among candidates, by a search through all nodes.** -/
theorem nearest_eq {nodes : List Node} {candidates : List Nat} (hc : candidates.Nodup)
    (hlt : ∀ x ∈ candidates, x < nodes.length) :
    Table.nearest nodes d candidates = (List.range nodes.length).filter fun x =>
      candidates.contains x && !candidates.any fun y => y != x && Table.beyond nodes d x y := by
  refine eq_of_increasing (pairwise_sorted (hc.filter _)) (List.pairwise_lt_range.filter _) ?_
  intro x
  rw [Table.nearest, mem_sorted, List.mem_filter, List.mem_filter, List.mem_range,
    Bool.and_eq_true, List.contains_iff_mem]
  exact ⟨fun hx => ⟨hlt x hx.1, hx⟩, fun hx => hx.2⟩

theorem nodup_table_candidates {t : Table} {n : Node} : (Table.candidates d t n b).Nodup :=
  nodup_foldl_addNew List.nodup_nil

theorem mem_table_candidates {t : Table} {n : Node} {x : Nat} :
    x ∈ Table.candidates d t n b ↔ ∃ s ∈ d.steps n, x ∈ t.get s b := by
  rw [Table.candidates, mem_foldl_addNew, or_iff_right List.not_mem_nil, List.mem_flatMap]

section Cells

variable (hs : Sound h)
include hs

theorem beyond_iff {x y : Nat} : Table.beyond h.nodes d x y = true ↔ h.Reaches d y x := by
  unfold Table.beyond
  cases hn : h.nodes[x]? with
  | none =>
      simp only [Option.map_none, Option.getD_none, Bool.false_eq_true, false_iff]
      intro hyx
      obtain ⟨n, hn'⟩ := hs.node_of_reaches hyx
      rw [hn] at hn'
      cases hn'
  | some n => exact reachedFrom_iff hs hn

theorem mem_nearest {candidates : List Nat} {x : Nat} :
    x ∈ Table.nearest h.nodes d candidates ↔ x ∈ candidates ∧
      ∀ y ∈ candidates, h.Reaches d y x → y = x := by
  rw [Table.nearest, mem_sorted, List.mem_filter]
  refine and_congr Iff.rfl ?_
  rw [Bool.not_eq_true', List.any_eq_false]
  refine forall_congr' fun y => forall_congr' fun _ => ?_
  rw [Bool.and_eq_true, beyond_iff hs, bne_iff_ne]
  exact ⟨fun hy hyx => Classical.byContradiction fun hne => hy ⟨hne, hyx⟩,
    fun hy ⟨hne, hyx⟩ => hne (hy hyx)⟩

/-- **A cell is exact if those of the steps are.** -/
theorem exact_cell {t : Table} {n : Node} (hn : h.nodes[a]? = some n)
    (ht : ∀ {s : Nat}, h.Step d a s → h.Exact d s b (t.get s b)) :
    h.Exact d a b (Table.cell h.nodes d t n b) := by
  unfold Table.cell
  split
  · rename_i hr
    refine ⟨List.pairwise_singleton _ _, fun {c} => ?_⟩
    rw [nearest_of_reaches hs ((reachedFrom_iff hs hn).1 hr), List.mem_singleton, hs.id_eq hn]
  · rename_i hr
    have hba : ¬ h.Reaches d b a := mt (reachedFrom_iff hs hn).2 hr
    have hcand {c : Nat} : c ∈ Table.candidates d t n b ↔
        ∃ s, h.Step d a s ∧ h.IsNearest d s b c := by
      rw [mem_table_candidates]
      constructor
      · rintro ⟨s, hs', hc⟩
        have has := (mem_steps hn).1 hs'
        exact ⟨s, has, (ht has).2.1 hc⟩
      · rintro ⟨s, has, hc⟩
        exact ⟨s, (mem_steps hn).2 has, (ht has).2.2 hc⟩
    have hlt : ∀ x ∈ Table.candidates d t n b, x < h.nodes.length := by
      intro x hx
      obtain ⟨s, -, hsx⟩ := hcand.1 hx
      exact hs.lt_of_reaches hsx.1.1
    refine ⟨?_, fun {c} => ?_⟩
    · rw [nearest_eq nodup_table_candidates hlt]
      exact List.pairwise_lt_range.filter _
    · rw [mem_nearest hs, nearest_of_steps hs hba, hcand]
      refine and_congr Iff.rfl ⟨fun hmin {x} hx => hmin x (hcand.2 hx), fun hmin x hx => ?_⟩
      exact hmin (hcand.1 hx)

end Cells

/-! ## 3. The whole table -/

section Fill

variable {t : Table} {i : Nat}

theorem length_fill : (Table.fill h.nodes d t i).rows.length = t.rows.length := by
  unfold Table.fill
  split
  · rfl
  · exact List.length_set

theorem get_fill_of_ne (hi : a ≠ i) : (Table.fill h.nodes d t i).get a b = t.get a b := by
  unfold Table.fill
  split
  · rfl
  · rw [Table.get, Table.get, List.getElem?_set_ne hi.symm]

theorem get_fill_self {n : Node} (hn : h.nodes[i]? = some n) (hi : i < t.rows.length)
    (hb : b < h.nodes.length) :
    (Table.fill h.nodes d t i).get i b = Table.cell h.nodes d t n b := by
  rw [Table.fill, hn]
  simp [Table.get, Table.row, hi, hb]

end Fill

section Build

variable (hs : Sound h)
include hs

/-- Filling in row after row in the order of visits keeps all rows exact. -/
theorem filled_foldl {before after : List Nat} (hv : visitOrder h.nodes d = before ++ after)
    {t : Table} (hl : t.rows.length = h.nodes.length)
    (ht : ∀ a ∈ before, ∀ b < h.nodes.length, h.Exact d a b (t.get a b)) :
    ∀ a ∈ before ++ after, ∀ b < h.nodes.length,
      h.Exact d a b ((after.foldl (Table.fill h.nodes d) t).get a b) := by
  induction after generalizing before t with
  | nil => simpa using ht
  | cons x after ih =>
      have hperm := visitOrder_perm (d := d) hs
      rw [hv] at hperm
      have hx : x < h.nodes.length := List.mem_range.1 (hperm.subset (by simp))
      have hx' : x ∉ before := fun hm =>
        (List.nodup_append.1 (hperm.nodup_iff.2 List.nodup_range)).2.2 x hm x
          List.mem_cons_self rfl
      have hv' : visitOrder h.nodes d = (before ++ [x]) ++ after := by simp [hv]
      rw [List.append_cons]
      refine ih hv' (length_fill.trans hl) fun a ha b hb => ?_
      rcases List.mem_append.1 ha with ha | ha
      · have hax : a ≠ x := fun e => hx' (e ▸ ha)
        rw [get_fill_of_ne hax]
        exact ht a ha b hb
      · obtain rfl := List.mem_singleton.1 ha
        rw [get_fill_self (List.getElem?_eq_getElem hx) (hl ▸ hx) hb]
        exact exact_cell hs (List.getElem?_eq_getElem hx) fun hst =>
          ht _ (visitOrder_behind hs hv hst) b hb

/-- **Every cell of a table is exact.** -/
theorem filled_build (ha : a < h.nodes.length) (hb : b < h.nodes.length) :
    h.Exact d a b ((Table.build h.nodes d).get a b) := by
  have hv : visitOrder h.nodes d = [] ++ visitOrder h.nodes d := rfl
  refine filled_foldl hs hv (by simp [Table.blank]) (by simp) a ?_ b hb
  exact (visitOrder_perm hs).mem_iff.2 (List.mem_range.2 ha)

omit hs in
theorem rows_build : (Table.build h.nodes d).rows.length = h.nodes.length ∧
    ∀ r ∈ (Table.build h.nodes d).rows, r.length = h.nodes.length := by
  refine List.foldlRecOn (motive := fun t : Table => t.rows.length = h.nodes.length ∧
    ∀ r ∈ t.rows, r.length = h.nodes.length) _ _ ?_ fun t ht i _ => ?_
  · simp [Table.blank]
  · refine ⟨length_fill.trans ht.1, fun r hr => ?_⟩
    unfold Table.fill at hr
    split at hr
    · exact ht.2 r hr
    · rcases List.mem_or_eq_of_mem_set hr with hr | rfl
      · exact ht.2 r hr
      · simp [Table.row]

/-- **The tables are a matter of what is reached from where**, in whatever direction. -/
theorem build_congr {h' : Hierarchy} {d' : Direction} (hs' : Sound h')
    (hl : h'.nodes.length = h.nodes.length)
    (hr : ∀ {x y : Nat}, h'.Reaches d' x y ↔ h.Reaches d x y) :
    Table.build h'.nodes d' = Table.build h.nodes d := by
  have hnear {a b c : Nat} : h'.IsNearest d' a b c ↔ h.IsNearest d a b c := by
    simp only [IsNearest, Common, hr]
  have hrows := rows_build (h := h) (d := d)
  have hrows' := rows_build (h := h') (d := d')
  suffices (Table.build h'.nodes d').rows = (Table.build h.nodes d).rows from
    congrArg Table.mk this
  refine List.ext_getElem (by omega) fun a ha ha' => ?_
  have hra := hrows.2 _ (List.getElem_mem ha')
  have hra' := hrows'.2 _ (List.getElem_mem ha)
  refine List.ext_getElem (by omega) fun b hb hb' => ?_
  have hcell := filled_build (d := d) hs (a := a) (b := b) (by omega) (by omega)
  have hcell' := filled_build (d := d') hs' (a := a) (b := b) (by omega) (by omega)
  have heq := Exact.unique ⟨hcell'.1, hcell'.2.trans hnear⟩ hcell
  simpa [Table.get, ha, ha', hb, hb'] using heq

/-! ## 4. In terms of parents -/

theorem Sound.hasAncestor_iff_path (ha : a < h.nodes.length) :
    h.HasAncestor b a ↔ ReflTransGen h.HasParent b a := by
  rw [hs.closure]
  refine and_iff_right_of_imp fun hp => ?_
  rcases hp.cases_head with rfl | ⟨x, ⟨n, hn, -⟩, -⟩
  · exact ha
  · exact (List.getElem?_eq_some_iff.1 hn).1

/-- Nearest common ancestors, in terms of parents. -/
theorem isNearest_up_iff (ha : a < h.nodes.length) (hb : b < h.nodes.length) :
    h.IsNearest .up a b c ↔
      ReflTransGen h.HasParent a c ∧ ReflTransGen h.HasParent b c ∧
        ∀ x, ReflTransGen h.HasParent a x → ReflTransGen h.HasParent b x →
          ReflTransGen h.HasParent x c → x = c := by
  have hup {x y : Nat} (hx : x < h.nodes.length) :
      h.Reaches .up x y ↔ ReflTransGen h.HasParent x y := hs.closure.trans (and_iff_right hx)
  constructor
  · rintro ⟨⟨hac, hbc⟩, hmin⟩
    refine ⟨(hup ha).1 hac, (hup hb).1 hbc, fun x hax hbx hxc => ?_⟩
    have hax := (hup ha).2 hax
    exact hmin ⟨hax, (hup hb).2 hbx⟩ ((hup (hs.lt_of_reaches hax)).2 hxc)
  · rintro ⟨hac, hbc, hmin⟩
    refine ⟨⟨(hup ha).2 hac, (hup hb).2 hbc⟩, fun {x} hx hxc => ?_⟩
    exact hmin x ((hup ha).1 hx.1) ((hup hb).1 hx.2) ((hup (hs.lt_of_reaches hx.1)).1 hxc)

/-- Nearest common descendants, in terms of parents. -/
theorem isNearest_down_iff (ha : a < h.nodes.length) (hb : b < h.nodes.length) :
    h.IsNearest .down a b c ↔
      ReflTransGen h.HasParent c a ∧ ReflTransGen h.HasParent c b ∧
        ∀ x, ReflTransGen h.HasParent x a → ReflTransGen h.HasParent x b →
          ReflTransGen h.HasParent c x → x = c := by
  have hdown {x y : Nat} (hx : x < h.nodes.length) :
      h.Reaches .down x y ↔ ReflTransGen h.HasParent y x :=
    hs.ancestor_descendant.symm.trans (hs.hasAncestor_iff_path hx)
  constructor
  · rintro ⟨⟨hac, hbc⟩, hmin⟩
    refine ⟨(hdown ha).1 hac, (hdown hb).1 hbc, fun x hax hbx hxc => ?_⟩
    have hax := (hdown ha).2 hax
    exact hmin ⟨hax, (hdown hb).2 hbx⟩ ((hdown (hs.lt_of_reaches hax)).2 hxc)
  · rintro ⟨hac, hbc, hmin⟩
    refine ⟨⟨(hdown ha).2 hac, (hdown hb).2 hbc⟩, fun {x} hx hxc => ?_⟩
    exact hmin x ((hdown ha).1 hx.1) ((hdown hb).1 hx.2) ((hdown (hs.lt_of_reaches hx.1)).1 hxc)

/-- A finalized hierarchy keeps the tables of its nodes. -/
theorem get_tables {tables : Tables} (htab : h.tables = some tables) :
    tables.get d a b = (Table.build h.nodes d).get a b := by
  rw [hs.tables_eq htab]
  cases d <;> rfl

theorem get_tables_comm {tables : Tables} (htab : h.tables = some tables)
    (ha : a < h.nodes.length) (hb : b < h.nodes.length) :
    tables.get d a b = tables.get d b a := by
  rw [get_tables hs htab, get_tables hs htab]
  exact (filled_build hs ha hb).unique (filled_build hs hb ha).symm

end Build

/-- **The tables are exact.** In every reachable hierarchy the cell of two types in the upward
    table lists, in increasing order, the common ancestors that have no other common ancestor below
    them, and in the downward table the common descendants that have no other one above them. Both
    tables are symmetric, and they are the tables that a finalized hierarchy keeps. -/
theorem tables_exact (hr : Reachable h) :
    (∀ a b, a < h.size → b < h.size →
      ((Table.build h.nodes .up).get a b).Pairwise (· < ·) ∧
      (∀ c, c ∈ (Table.build h.nodes .up).get a b ↔
        ReflTransGen h.HasParent a c ∧ ReflTransGen h.HasParent b c ∧
          ∀ x, ReflTransGen h.HasParent a x → ReflTransGen h.HasParent b x →
            ReflTransGen h.HasParent x c → x = c) ∧
      ((Table.build h.nodes .down).get a b).Pairwise (· < ·) ∧
      (∀ c, c ∈ (Table.build h.nodes .down).get a b ↔
        ReflTransGen h.HasParent c a ∧ ReflTransGen h.HasParent c b ∧
          ∀ x, ReflTransGen h.HasParent x a → ReflTransGen h.HasParent x b →
            ReflTransGen h.HasParent c x → x = c) ∧
      ∀ d, (Table.build h.nodes d).get a b = (Table.build h.nodes d).get b a) ∧
    ∀ t, h.tables = some t →
      t.up = Table.build h.nodes .up ∧ t.down = Table.build h.nodes .down := by
  have hs := sound_of_reachable hr
  refine ⟨fun a b ha hb => ?_, fun t ht => ?_⟩
  · have hup := filled_build (d := .up) hs ha hb
    have hdown := filled_build (d := .down) hs ha hb
    refine ⟨hup.1, fun c => hup.2.trans (isNearest_up_iff hs ha hb), hdown.1,
      fun c => hdown.2.trans (isNearest_down_iff hs ha hb), fun d => ?_⟩
    exact (filled_build hs ha hb).unique (filled_build hs hb ha).symm
  · obtain rfl := hs.tables_eq ht
    exact ⟨rfl, rfl⟩

/-- Calls that give two types two nearest common ancestors. -/
def crossed : List Call := [
  .declare "readable" [],
  .declare "writable" [],
  .declare "file" [],
  .declare "socket" [],
  .addParent "file" (.app ⟨"readable", []⟩),
  .addParent "file" (.app ⟨"writable", []⟩),
  .addParent "socket" (.app ⟨"readable", []⟩),
  .addParent "socket" (.app ⟨"writable", []⟩),
  .finalize]

/-- Both common ancestors of `file` and `socket` are in their cell, and neither is below the
    other. -/
theorem crossed_exact :
    Reachable (crossed.foldl perform empty) ∧ 2 < (crossed.foldl perform empty).size ∧
    3 < (crossed.foldl perform empty).size ∧
    (Table.build (crossed.foldl perform empty).nodes .up).get 2 3 = [0, 1] ∧
    ReflTransGen (crossed.foldl perform empty).HasParent 2 0 ∧
    ReflTransGen (crossed.foldl perform empty).HasParent 3 0 ∧
    ¬ ReflTransGen (crossed.foldl perform empty).HasParent 1 0 := by
  have hr : Reachable (crossed.foldl perform empty) := ⟨crossed, rfl⟩
  have hcell : (Table.build (crossed.foldl perform empty).nodes .up).get 2 3 = [0, 1] := by decide
  have hexact := (tables_exact hr).1 2 3 (by decide) (by decide)
  have h0 := (hexact.2.1 0).1 (by rw [hcell]; decide)
  have h1 := (hexact.2.1 1).1 (by rw [hcell]; decide)
  refine ⟨hr, by decide, by decide, hcell, h0.1, h0.2.1, fun h10 => ?_⟩
  exact absurd (h0.2.2 1 h1.1 h1.2.1 h10) (by decide)

end Lineage.Hierarchy

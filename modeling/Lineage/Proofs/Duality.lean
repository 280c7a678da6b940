import Lineage.Hierarchy.Dump
import Lineage.Proofs.Alike
import Lineage.Proofs.Meeting
import Lineage.Proofs.Parameterless
import Lineage.Proofs.Raising

/-!
# Ancestors and descendants exchanged

Turn all parents of a hierarchy without parameters round: what was above is now below. The
hierarchy that comes out answers the question for common ancestors as the given one answers the
question for common descendants, in the same order, and the other way round.

* `Parameterless.exists_addParents`: parents that form no cycle can be added in any order;
* `exists_mirror`: so the parents turned round can;
* `Mirrors.build_eq`, `Mirrors.takeNumber_eq`: the search on numbers is the same, since it looks at
  nothing but what is reached from where.
-/

namespace Lineage.Hierarchy

open Nearest Relation

variable {h k : Hierarchy}

/-! ## 1. Parents of types without parameters -/

theorem Parameterless.congr (B : Parameterless h) (same : SameTypes h k) (hs : Sound k) :
    Parameterless k := by
  refine ⟨hs, fun {n} hn => ?_⟩
  obtain ⟨i, hi⟩ := List.mem_iff_getElem?.1 hn
  obtain ⟨m, hm, hb⟩ := same.symm.node hi
  rw [← (Node.bare_eq_iff.1 hb).2.2]
  exact B.params_nil (List.mem_of_getElem? hm)

/-- **Where no type has parameters, a parent is refused only if it descends from the child.** -/
theorem Parameterless.exists_addParent (B : Parameterless h) (hopen : h.tables = none) {c p : Nat}
    {n m : Node} (hn : h.nodes[c]? = some n) (hm : h.nodes[p]? = some m)
    (hno : ¬ h.HasAncestor p c) : ∃ h', h.addParent n.name (bareType m.name) = .ok h' ∧
      h'.tables = none ∧ ∀ {i j : Nat}, h'.HasParent i j ↔ h.HasParent i j ∨ (i = c ∧ j = p) := by
  obtain rfl := B.sound.id_eq hn
  obtain rfl := B.sound.id_eq hm
  have happ : h.appAt m.id = ⟨m.name, []⟩ := appAt_of_node hm
  have hnormal : h.isNormalApp ⟨m.name, []⟩ = true :=
    isNormalApp_iff.2 ⟨⟨m, B.sound.find_of_node hm, (B.arity_eq (List.mem_of_getElem? hm)).symm⟩,
      List.forall_mem_nil _⟩
  have hres : h.Resolves n.name (bareType m.name) n m ⟨m.name, []⟩ :=
    ⟨hopen, B.sound.find_of_node hn, ⟨_, rfl, normalizeApp_of_isNormalApp hnormal⟩, rfl,
      B.sound.find_of_node hm⟩
  have hd : m.id ∉ n.descendants := fun hmem => hno (B.sound.ancestor_descendant.2 ⟨n, hn, hmem⟩)
  have hj : Joined (n.ancestors.get? m.id) ⟨m.name, []⟩ ⟨m.name, []⟩ :=
    joined_same fun x hx => (B.record_eq hn hx).trans happ
  by_cases hget : n.parents.get? m.id = some ⟨m.name, []⟩
  · refine ⟨h, addParent_eq_ok.2 ⟨n, m, _, _, hres, hd, hj, Or.inl ⟨hget, rfl⟩⟩, hopen, ?_⟩
    intro i j
    refine ⟨Or.inl, ?_⟩
    rintro (hij | ⟨rfl, rfl⟩)
    · exact hij
    · exact ⟨n, hn, by rw [Roster.contains, hget]; rfl⟩
  · -- all records of one type are the same, so nothing conflicts
    have hall {d a : Nat} {x y : App Ty} (_ : h.record? d n.id = some x)
        (hy : h.record? m.id a = some y) :
        ∃ r, Joined (h.record? d a) (carried n m ⟨m.name, []⟩ x y) r := by
      obtain ⟨m', hm', hy⟩ := record?_eq_some.1 hy
      have hcarried : carried n m ⟨m.name, []⟩ x y = h.appAt a := by
        rw [B.record_eq hm' hy]
        rfl
      rw [hcarried]
      refine ⟨_, joined_same fun z hz => ?_⟩
      obtain ⟨n', hn', hz⟩ := record?_eq_some.1 hz
      exact B.record_eq hn' hz
    obtain ⟨ls, hls⟩ := exists_legacies B.sound hn hm hall
    refine ⟨_, addParent_eq_ok.2 ⟨n, m, _, _, hres, hd, hj, Or.inr ⟨hget, ls, hls, rfl⟩⟩, hopen, ?_⟩
    exact (extension_connected B.sound hn hm hls).hasParent hn

/-- The request gives one type another as its parent, both by their names. -/
def Joins (h : Hierarchy) (l : String × Ty) (c p : Nat) : Prop :=
  h.idOf? l.1 = some c ∧ ∃ name, l.2 = bareType name ∧ h.idOf? name = some p

theorem SameTypes.joins_iff (same : SameTypes h k) {l : String × Ty} {c p : Nat} :
    k.Joins l c p ↔ h.Joins l c p := by
  simp only [Joins, same.idOf?_eq]

theorem Joins.unique {l : String × Ty} {c p i j : Nat} (hl : h.Joins l c p) :
    h.Joins l i j ↔ i = c ∧ j = p := by
  obtain ⟨hc, name, hname, hp⟩ := hl
  constructor
  · rintro ⟨hi, name', hname', hj⟩
    rw [hc] at hi
    rw [hname] at hname'
    cases hi
    cases hname'
    rw [hp] at hj
    cases hj
    exact ⟨rfl, rfl⟩
  · rintro ⟨rfl, rfl⟩
    exact ⟨hc, name, hname, hp⟩

/-- **Parents that form no cycle can be added one after the other.** `R` is a relation without
    cycles that has them all. -/
theorem Parameterless.exists_addParents {R : Nat → Nat → Prop}
    (hR : ∀ {c p : Nat}, R c p → ¬ ReflTransGen R p c) {links : List (String × Ty)}
    (B : Parameterless h) (hopen : h.tables = none) (hpar : ∀ {c p : Nat}, h.HasParent c p → R c p)
    (hl : ∀ l ∈ links, ∃ c p, h.Joins l c p ∧ R c p) :
    ∃ k, h.addParents links = .ok k ∧ Parameterless k ∧ SameTypes h k ∧ k.tables = none ∧
      ∀ {c p : Nat}, k.HasParent c p ↔ h.HasParent c p ∨ ∃ l ∈ links, h.Joins l c p := by
  induction links generalizing h with
  | nil => exact ⟨h, rfl, B, .refl h, hopen, by simp⟩
  | cons l links ih =>
      rw [List.forall_mem_cons] at hl
      obtain ⟨⟨c, p, hjoins, hcp⟩, hl⟩ := hl
      obtain ⟨hc, name, hname, hp⟩ := id hjoins
      obtain ⟨n, hn, hcn⟩ := B.sound.idOf?_eq_some.1 hc
      obtain ⟨m, hm, rfl⟩ := B.sound.idOf?_eq_some.1 hp
      -- the parents so far are in `R`, so none of their paths closes a cycle with the new one
      have hno : ¬ h.HasAncestor p c := fun ha =>
        hR hcp (ReflTransGen.mono (fun _ _ => hpar) _ _ (B.sound.closure.1 ha).2)
      obtain ⟨h', e, hopen', hpar'⟩ := B.exists_addParent hopen hn hm hno
      have same := sameTypes_addParent B.sound e
      have hle : ∀ {i j : Nat}, h'.HasParent i j → R i j := by
        intro i j hij
        rcases hpar'.1 hij with hij | ⟨rfl, rfl⟩
        · exact hpar hij
        · exact hcp
      obtain ⟨k, ek, Bk, samek, hopenk, hpark⟩ := ih (B.congr same (B.sound.addParent e)) hopen' hle
        fun l' hl' => (hl l' hl').imp fun i hi => hi.imp fun j hj => ⟨same.joins_iff.2 hj.1, hj.2⟩
      have e' : h.addParent l.1 l.2 = .ok h' := by
        rw [hname, ← hcn]
        exact e
      refine ⟨k, addParents_cons.2 ⟨h', e', ek⟩, Bk, same.trans samek, hopenk, fun {i j} => ?_⟩
      rw [hpark, hpar', List.exists_mem_cons_iff, hjoins.unique, or_assoc]
      simp only [same.joins_iff]

/-! ## 2. Turning parents round -/

/-- The parents of the hierarchy turned round: each is given its child as a parent. -/
def reversals (h : Hierarchy) : List (String × Ty) :=
  h.nodes.flatMap fun n => (n.parents.keys.filterMap h.nameOf?).map fun p => (p, bareType n.name)

/-- Every member turns a parent round. -/
theorem joins_of_mem_reversals (hs : Sound h) {l : String × Ty} (hl : l ∈ h.reversals) :
    ∃ c p, h.Joins l c p ∧ h.HasParent p c := by
  obtain ⟨n, hn, hl⟩ := List.mem_flatMap.1 hl
  obtain ⟨name, hname, rfl⟩ := List.mem_map.1 hl
  obtain ⟨j, hj, hname⟩ := List.mem_filterMap.1 hname
  obtain ⟨m, hm, rfl⟩ := Option.map_eq_some_iff.1 hname
  have hnode := hs.node_of_mem hn
  exact ⟨j, n.id, ⟨hs.idOf?_eq_some.2 ⟨m, hm, rfl⟩, n.name, rfl,
    hs.idOf?_eq_some.2 ⟨n, hnode, rfl⟩⟩, n, hnode, (Roster.contains_iff _ _).2 hj⟩

/-- The members are those requests that turn a parent round. -/
theorem exists_mem_reversals (hs : Sound h) {c p : Nat} :
    (∃ l ∈ h.reversals, h.Joins l c p) ↔ h.HasParent p c := by
  constructor
  · rintro ⟨l, hl, hjoins⟩
    obtain ⟨c', p', hjoins', hpar⟩ := joins_of_mem_reversals hs hl
    obtain ⟨rfl, rfl⟩ := hjoins'.unique.1 hjoins
    exact hpar
  · rintro ⟨n, hn, hc⟩
    obtain ⟨m, hm⟩ := hs.node_of_ancestor (hs.hasAncestor_of_parent ⟨n, hn, hc⟩)
    refine ⟨(m.name, bareType n.name), List.mem_flatMap.2 ⟨n, List.mem_of_getElem? hn, ?_⟩,
      hs.idOf?_eq_some.2 ⟨m, hm, rfl⟩, n.name, rfl, hs.idOf?_eq_some.2 ⟨n, hn, rfl⟩⟩
    refine List.mem_map.2
      ⟨m.name, List.mem_filterMap.2 ⟨c, (Roster.contains_iff _ _).1 hc, ?_⟩, rfl⟩
    rw [nameOf?, hm]
    rfl

/-- Two hierarchies without parameters that have the same types, with parents turned round. -/
structure Mirrors (h k : Hierarchy) : Prop where
  left : Parameterless h
  right : Parameterless k
  same : SameTypes h k
  hasParent : ∀ {i j : Nat}, k.HasParent i j ↔ h.HasParent j i

/-- **The parents of a hierarchy can be turned round**, in whatever order they are added. -/
theorem exists_mirror (B : Parameterless h) {links : List (String × Ty)}
    (hl : ∀ l, l ∈ links ↔ l ∈ h.reversals) :
    ∃ k, h.typesOnly.addParents links = .ok k ∧ k.tables = none ∧ Mirrors h k := by
  have hs := B.sound
  have hsame : SameTypes h h.typesOnly := sameTypes_typesOnly
  have hbare : Parameterless h.typesOnly :=
    B.congr hsame (sound_typesOnly hs)
  have hacyclic : ∀ {c p : Nat}, h.HasParent p c →
      ¬ ReflTransGen (Function.swap h.HasParent) p c := by
    intro c p hpc hpath
    have hcp := reflTransGen_swap.1 hpath
    obtain ⟨m, hm⟩ := hs.node_of_ancestor (hs.hasAncestor_of_parent hpc)
    have hcp := hs.closure.2 ⟨(List.getElem?_eq_some_iff.1 hm).1, hcp⟩
    exact hs.parent_ne hpc (hs.acyclic hcp (hs.hasAncestor_of_parent hpc))
  obtain ⟨k, ek, Bk, samek, hopen, hpar⟩ := hbare.exists_addParents
    (R := Function.swap h.HasParent) hacyclic rfl
    (fun hcp => absurd hcp not_hasParent_typesOnly) fun l (hmem : l ∈ links) => by
      obtain ⟨c, p, hj, hpar⟩ := joins_of_mem_reversals hs ((hl l).1 hmem)
      exact ⟨c, p, hsame.joins_iff.2 hj, hpar⟩
  refine ⟨k, ek, hopen, B, Bk, hsame.trans samek, fun {i j} => ?_⟩
  rw [hpar, or_iff_right not_hasParent_typesOnly, ← exists_mem_reversals hs]
  simp only [hl, hsame.joins_iff]

/-! ## 3. The same search -/

namespace Mirrors

variable {d : Direction} (M : Mirrors h k)
include M

/-- What is above in the one is below in the other. -/
theorem hasAncestor_iff {x y : Nat} : k.HasAncestor x y ↔ h.HasAncestor y x := by
  have hswap : k.HasParent = Function.swap h.HasParent := by
    funext i j
    exact propext M.hasParent
  have hlt {g : Hierarchy} (hg : Sound g) {i j : Nat} (hij : g.HasAncestor i j) :
      j < g.nodes.length := by
    obtain ⟨n, hn⟩ := hg.node_of_ancestor hij
    exact (List.getElem?_eq_some_iff.1 hn).1
  have hk := M.right.sound.closure (d := x) (a := y)
  have hh := M.left.sound.closure (d := y) (a := x)
  rw [hswap, reflTransGen_swap] at hk
  constructor
  · intro hxy
    exact hh.2 ⟨M.same.size_eq ▸ hlt M.right.sound hxy, (hk.1 hxy).2⟩
  · intro hyx
    exact hk.2 ⟨M.same.size_eq ▸ hlt M.left.sound hyx, (hh.1 hyx).2⟩

theorem reaches_iff {x y : Nat} : k.Reaches d.flip x y ↔ h.Reaches d x y := by
  rw [M.right.sound.reaches_flip]
  cases d with
  | up => exact M.hasAncestor_iff
  | down =>
      rw [Reaches, Reaches, ← M.left.sound.ancestor_descendant,
        ← M.right.sound.ancestor_descendant]
      exact M.hasAncestor_iff

/-- The table of one direction is that of the other one. -/
theorem build_eq : Table.build k.nodes d.flip = Table.build h.nodes d :=
  build_congr M.left.sound M.right.sound M.same.size_eq M.reaches_iff

theorem beyond_eq (x y : Nat) :
    Table.beyond k.nodes d.flip x y = Table.beyond h.nodes d x y := by
  rw [Bool.eq_iff_iff, beyond_iff M.right.sound, beyond_iff M.left.sound, M.reaches_iff]

/-- A type is taken in with the same outcome. -/
theorem takeNumber_eq : k.takeNumber d.flip = h.takeNumber d := by
  funext is j
  simp only [takeNumber, merged, firsts, M.build_eq, M.beyond_eq]

theorem typeAt_eq : k.typeAt = h.typeAt := by
  funext i
  rw [typeAt, typeAt, appAt, appAt]
  cases hn : h.nodes[i]? with
  | none =>
      have hlen : k.nodes.length ≤ i := M.same.size_eq ▸ List.getElem?_eq_none_iff.1 hn
      rw [List.getElem?_eq_none_iff.2 hlen]
  | some n =>
      obtain ⟨m, hm, hb⟩ := M.same.node hn
      rw [hm, Option.map_some, Option.map_some, (Node.bare_eq_iff.1 hb).2.1]

/-- Finalizing changes nothing about parents. -/
theorem finalize : Mirrors h.finalize k.finalize := by
  have hpar {g : Hierarchy} {i j : Nat} : g.finalize.HasParent i j ↔ g.HasParent i j := by
    rw [HasParent, HasParent, nodes_finalize]
  have hsame (g : Hierarchy) : SameTypes g g.finalize := by
    rw [SameTypes, nodes_finalize]
  refine ⟨M.left.congr (hsame h) M.left.sound.finalize, M.right.congr (hsame k)
    M.right.sound.finalize, (hsame h).symm.trans (M.same.trans (hsame k)), ?_⟩
  intro i j
  rw [hpar, hpar, M.hasParent]

end Mirrors

/-- The search for common relatives of types, on their numbers. -/
def searched (h : Hierarchy) (d : Direction) : List Nat → List Nat
  | [] => []
  | i :: js => js.foldl (h.takeNumber d) [i]

theorem Mirrors.searched_eq (M : Mirrors h k) (d : Direction) (is : List Nat) :
    k.searched d.flip is = h.searched d is := by
  cases is with
  | nil => rfl
  | cons i js => rw [searched, searched, M.takeNumber_eq]

/-- Names of types, in a finalized hierarchy without parameters: the answer is the search on their
    numbers. -/
theorem Parameterless.nearestCommon_names (B : Parameterless h) (hfin : h.isFinalized = true)
    (rounds : Nat) (d : Direction) {names : List String}
    (hnames : ∀ a ∈ names, (h.find? a).isSome = true) :
    (h.nearestCommon (rounds + 1) d (names.map bareType)).run =
      some (.ok ((h.searched d (names.filterMap h.idOf?)).map h.typeAt)) := by
  obtain ⟨tables, htab⟩ := Option.isSome_iff_exists.1 hfin
  obtain rfl := B.sound.tables_eq htab
  have hnormal : ∀ a ∈ names.map fun a => (⟨a, []⟩ : App Ty), h.isNormalApp a = true := by
    intro a ha
    obtain ⟨name, hname, rfl⟩ := List.mem_map.1 ha
    obtain ⟨n, hn⟩ := Option.isSome_iff_exists.1 (hnames name hname)
    exact isNormalApp_iff.2 ⟨⟨n, hn, (B.arity_eq (List.mem_of_find?_eq_some hn)).symm⟩,
      List.forall_mem_nil _⟩
  have hsketch : ∀ t ∈ names.map bareType, h.Sketch t := by
    intro t ht
    obtain ⟨name, hname, rfl⟩ := List.mem_map.1 ht
    exact over_app_iff.2 ⟨(isNormalApp_iff.1 (hnormal _ (List.mem_map_of_mem hname))).1,
      List.forall_mem_nil _⟩
  refine (Hierarchy.nearestCommon_eq_ok hsketch).2 ⟨_, htab, ?_⟩
  have hnum : h.numbers (names.map fun a => ⟨a, []⟩) = names.filterMap h.idOf? := by
    rw [numbers, List.filterMap_map]
    rfl
  obtain ⟨hmap, hlt⟩ := B.map_numbers hnormal
  rw [hnum, List.map_map] at hmap
  rw [hnum] at hlt
  have hmap : names.map bareType = (names.filterMap h.idOf?).map h.typeAt := hmap.symm
  rw [hmap]
  cases hlist : names.filterMap h.idOf? with
  | nil => rfl
  | cons i js =>
      rw [hlist, List.forall_mem_cons] at hlt
      exact B.common_typeAt rounds hlt.1 hlt.2

/-- **Ancestors and descendants exchanged.** Take a reachable hierarchy in which no type has
    parameters. Declare its types again, and add its parents turned round, in any order and as often
    as one likes: all are accepted. Once both are finalized, every list of declared types has the
    same nearest common ancestors in the one as it has nearest common descendants in the other, in
    the same order, and the other way round. -/
theorem reversed_swaps_directions (hr : Reachable h) (hp : ∀ n ∈ h.nodes, n.params = [])
    {links : List (String × Ty)} (hl : ∀ l, l ∈ links ↔ l ∈ h.reversals) :
    ∃ h₀ k, declareAll h.types = .ok h₀ ∧ h₀.addParents links = .ok k ∧
      ∀ names : List String, (∀ a ∈ names, (h.find? a).isSome = true) → ∀ rounds d, ∃ results,
        (h.finalize.nearestCommon (rounds + 1) d (names.map bareType)).run =
          some (.ok results) ∧
        (k.finalize.nearestCommon (rounds + 1) d.flip (names.map bareType)).run =
          some (.ok results) := by
  have B : Parameterless h := ⟨sound_of_reachable hr, fun hn => hp _ hn⟩
  obtain ⟨k, ek, -, M⟩ := exists_mirror B hl
  refine ⟨h.typesOnly, k, declareAll_types B.sound, ek, fun names hnames rounds d => ?_⟩
  have hfin (g : Hierarchy) : g.finalize.isFinalized = true := by
    rw [finalize]
    split
    · assumption
    · rfl
  have hfound : ∀ a ∈ names, (h.finalize.find? a).isSome = true := by
    intro a ha
    rw [find?, nodes_finalize]
    exact hnames a ha
  have M := M.finalize
  refine ⟨_, M.left.nearestCommon_names (hfin h) rounds d hfound, ?_⟩
  have hfound' : ∀ a ∈ names, (k.finalize.find? a).isSome = true := by
    intro a ha
    obtain ⟨n, hn⟩ := Option.isSome_iff_exists.1 (hfound a ha)
    obtain ⟨n', hn', -⟩ := M.same.find? hn
    exact Option.isSome_iff_exists.2 ⟨n', hn'⟩
  have hid : k.finalize.idOf? = h.finalize.idOf? := funext M.same.idOf?_eq
  rw [M.right.nearestCommon_names (hfin k) rounds d.flip hfound', hid, M.searched_eq, M.typeAt_eq]

/-- The relations of `numerals` turned round, in some order and with one of them twice. -/
def numeralsReversed : List (String × Ty) :=
  [("printed", bareType "word"), ("ordered", bareType "int"), ("printed", bareType "int"),
    ("ordered", bareType "float"), ("printed", bareType "float"), ("ordered", bareType "int")]

/-- What lies above `int` and `float` lies below them with the parents turned round, and what lies
    below two types lies above them. -/
theorem numerals_reversed : Reachable numerals ∧ (∀ n ∈ numerals.nodes, n.params = []) ∧
    (∀ l, l ∈ numeralsReversed ↔ l ∈ numerals.reversals) ∧
    ∃ h₀ k, declareAll numerals.types = .ok h₀ ∧ h₀.addParents numeralsReversed = .ok k ∧
      (k.finalize.nearestCommon 1 .down [bareType "int", bareType "float"]).run =
        some (.ok [bareType "ordered", bareType "printed"]) ∧
      (k.finalize.nearestCommon 1 .up [bareType "printed", bareType "ordered"]).run =
        some (.ok [bareType "int", bareType "float"]) := by
  have hr : Reachable numerals := ⟨_, rfl⟩
  have hp : ∀ n ∈ numerals.nodes, n.params = [] := by decide
  have hl : ∀ l, l ∈ numeralsReversed ↔ l ∈ numerals.reversals := by
    have hsub : (∀ l ∈ numeralsReversed, l ∈ numerals.reversals) ∧
      ∀ l ∈ numerals.reversals, l ∈ numeralsReversed := by decide
    exact fun l => ⟨hsub.1 l, hsub.2 l⟩
  obtain ⟨h₀, k, htypes, hlinks, hall⟩ := reversed_swaps_directions hr hp hl
  refine ⟨hr, hp, hl, h₀, k, htypes, hlinks, ?_, ?_⟩
  · obtain ⟨results, e, e'⟩ := hall ["int", "float"] (by decide) 0 .up
    cases e
    exact e'
  · obtain ⟨results, e, e'⟩ := hall ["printed", "ordered"] (by decide) 0 .down
    cases e
    exact e'

end Lineage.Hierarchy

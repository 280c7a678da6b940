import Lineage.Proofs.Construction

/-!
# The order of relatives

The outline of a node says who its relatives are and in which order they came, and leaves the
records out. Adding a parent changes the outlines in a way that depends on the outlines alone
(`outlines_addParent`): every heir of the child gets every ancestor of the parent, in this order,
and whoever is recorded already keeps its place. A parent that is added again changes no outline
(`joinOutlines_eq`).
-/

namespace Lineage

/-! ## 1. Outlines -/

/-- A type as declared, and its relatives in the order in which they came. -/
structure Outline where
  bare : Node
  parents : List Nat
  children : List Nat
  ancestors : List Nat
  descendants : List Nat
  deriving DecidableEq

/-- What a node shows without its records. -/
def Node.outline (n : Node) : Outline :=
  ⟨n.bare, n.parents.keys, n.children, n.ancestors.keys, n.descendants⟩

namespace Outline

/-- What a new parent does to the outline of a number, heirs and ancestors apart. -/
def link (child parent i : Nat) (o : Outline) : Outline :=
  { o with
    parents := if child = i then addNew o.parents parent else o.parents
    children := if parent = i then addNew o.children child else o.children }

/-- What a pair of an heir and an ancestor does to the outline of a number. -/
def settle (i : Nat) (o : Outline) (pair : Nat × Nat) : Outline :=
  { o with
    ancestors := if pair.1 = i then addNew o.ancestors pair.2 else o.ancestors
    descendants := if pair.2 = i then addNew o.descendants pair.1 else o.descendants }

/-- The outline of a number shows a pair already, as far as the number takes part in it. -/
def Shows (i : Nat) (o : Outline) (pair : Nat × Nat) : Prop :=
  (pair.1 = i → pair.2 ∈ o.ancestors) ∧ (pair.2 = i → pair.1 ∈ o.descendants)

variable {c p i : Nat} {o : Outline} {pair pair' : Nat × Nat}

theorem addNew_of_mem {P : Prop} [Decidable P] {xs : List Nat} {x : Nat} (hx : P → x ∈ xs) :
    (if P then addNew xs x else xs) = xs := by
  split
  · rename_i hP
    exact if_pos (hx hP)
  · rfl

theorem link_eq (hp : c = i → p ∈ o.parents) (hc : p = i → c ∈ o.children) :
    o.link c p i = o := by
  rw [link, addNew_of_mem hp, addNew_of_mem hc]

theorem settle_of_shows (hp : o.Shows i pair) : o.settle i pair = o := by
  rw [settle, addNew_of_mem hp.1, addNew_of_mem hp.2]

/-- What is shown stays shown. -/
theorem Shows.settle (hp : o.Shows i pair) : (o.settle i pair').Shows i pair := by
  refine ⟨fun he => ?_, fun he => ?_⟩
  · rw [Outline.settle]
    dsimp only
    split
    · exact mem_addNew.2 (Or.inl (hp.1 he))
    · exact hp.1 he
  · rw [Outline.settle]
    dsimp only
    split
    · exact mem_addNew.2 (Or.inl (hp.2 he))
    · exact hp.2 he

theorem foldl_settle_of_shows {pairs : List (Nat × Nat)} (hp : ∀ e ∈ pairs, o.Shows i e) :
    pairs.foldl (settle i) o = o := by
  induction pairs with
  | nil => rfl
  | cons e pairs ih =>
      rw [List.forall_mem_cons] at hp
      rw [List.foldl_cons, settle_of_shows hp.1, ih hp.2]

end Outline

namespace Hierarchy

variable {h h' : Hierarchy} {child parent n : Node} {record : App Ty} {ls : List Legacy}
  {c p i : Nat}

/-- The outlines of all types. -/
def outlines (h : Hierarchy) : List Outline := h.nodes.map Node.outline

theorem getElem?_outlines (i : Nat) : h.outlines[i]? = h.nodes[i]?.map Node.outline :=
  List.getElem?_map ..

/-- The heir and the ancestor of a legacy. -/
def Legacy.pair (l : Legacy) : Nat × Nat := (l.heir, l.ancestor)

theorem outline_link : (link c p record i n).outline = n.outline.link c p i := by
  rw [Node.outline, bare_link, parents_link, children_link, ancestors_link, descendants_link]
  rw [Outline.link, Node.outline]
  dsimp only
  congr 1
  split
  · rw [Roster.keys_insert]
    rfl
  · rfl

theorem outline_settle (l : Legacy) : (settle i n l).outline = n.outline.settle i l.pair := by
  rw [Node.outline, bare_settle, parents_settle, children_settle, ancestors_settle,
    descendants_settle]
  rw [Outline.settle, Node.outline, Legacy.pair]
  dsimp only
  congr 1
  split
  · rw [Roster.keys_insert]
    rfl
  · rfl

theorem outline_foldl_settle (ls : List Legacy) (n : Node) :
    (ls.foldl (settle i) n).outline = (ls.map Legacy.pair).foldl (Outline.settle i) n.outline := by
  induction ls generalizing n with
  | nil => rfl
  | cons l ls ih => rw [List.foldl_cons, ih, outline_settle, List.map_cons, List.foldl_cons]

/-! ## 2. Pairs without a legacy -/

/-- The legacies are those of the pairs in order; a pair without one has a property. -/
inductive Thins (P : Nat × Nat → Prop) : List (Nat × Nat) → List Legacy → Prop
  | nil : Thins P [] []
  | keep {l : Legacy} {pairs : List (Nat × Nat)} {ls : List Legacy} :
      Thins P pairs ls → Thins P (l.pair :: pairs) (l :: ls)
  | drop {e : Nat × Nat} {pairs : List (Nat × Nat)} {ls : List Legacy} :
      P e → Thins P pairs ls → Thins P (e :: pairs) ls

namespace Thins

variable {P : Nat × Nat → Prop} {pairs pairs' : List (Nat × Nat)} {ls' : List Legacy}

theorem append (ht : Thins P pairs ls) (ht' : Thins P pairs' ls') :
    Thins P (pairs ++ pairs') (ls ++ ls') := by
  induction ht with
  | nil => exact ht'
  | keep _ ih => exact .keep ih
  | drop he _ ih => exact .drop he ih

/-- **Pairs without a legacy change nothing** where they are shown already. -/
theorem foldl_settle (ht : Thins P pairs ls) {o : Outline} (hP : ∀ e, P e → o.Shows i e) :
    pairs.foldl (Outline.settle i) o = (ls.map Legacy.pair).foldl (Outline.settle i) o := by
  induction ht generalizing o with
  | nil => rfl
  | keep _ ih =>
      rw [List.map_cons, List.foldl_cons, List.foldl_cons]
      exact ih fun e he => (hP e he).settle
  | drop he _ ih =>
      rw [List.foldl_cons, Outline.settle_of_shows (hP _ he)]
      exact ih hP

end Thins

/-- The pairs that a new parent makes: the heirs of the child, each with the ancestors of the
    parent. -/
def pairs (heirs ancestors : List Nat) : List (Nat × Nat) :=
  heirs.flatMap fun d => ancestors.map fun a => (d, a)

/-- One heir. -/
theorem thins_inheritAll {heir : Node} {asChild : App Ty} (hn : h.nodes[heir.id]? = some heir)
    (hc : heir.ancestors.get? child.id = some asChild)
    (e : inheritAll child parent record heir = .ok ls) :
    Thins (fun e => h.HasAncestor e.1 e.2)
      (parent.ancestors.keys.map fun a => (heir.id, a)) ls := by
  rw [inheritAll, hc] at e
  obtain ⟨os, hos, hls⟩ := bind_eq_ok.1 e
  cases pure_eq_ok.1 hls
  rw [Roster.keys, List.map_map]
  replace hos := mapM_eq_ok.1 hos
  clear e hls
  generalize parent.ancestors.entries = es at hos
  induction hos with
  | nil => exact .nil
  | @cons e o es os ho _ ih =>
      obtain ⟨r, -, ⟨hr, rfl⟩ | rfl⟩ := inherit_eq_ok ho
      · refine .drop ⟨heir, hn, ?_⟩ ih
        exact Option.isSome_of_mem hr
      · exact Thins.keep (l := ⟨heir.id, e.1, r⟩) ih

/-- **The legacies of a new parent, among all pairs.** -/
theorem thins_legacies (hs : Sound h) (hc : h.nodes[child.id]? = some child)
    (e : h.legacies child parent record = .ok ls) :
    Thins (fun e => h.HasAncestor e.1 e.2)
      (pairs child.descendants parent.ancestors.keys) ls := by
  obtain ⟨found, hf, hls⟩ := bind_eq_ok.1 e
  cases pure_eq_ok.1 hls
  replace hf := mapM_eq_ok.1 hf
  clear e hls
  have hall : ∀ d ∈ child.descendants, h.HasAncestor d child.id := fun d hd =>
    hs.ancestor_descendant.2 ⟨child, hc, hd⟩
  rw [pairs]
  generalize child.descendants = ds at hf hall
  induction ds generalizing found with
  | nil =>
      cases hf
      exact .nil
  | cons d ds ih =>
      rw [List.forall_mem_cons] at hall
      obtain ⟨heir, hn, hcontains⟩ := hall.1
      obtain ⟨asChild, hget⟩ := Option.isSome_iff_exists.1 hcontains
      rw [List.filterMap_cons_some hn] at hf
      obtain ⟨ls, found, hls, hrest, rfl⟩ := List.forall₂_cons_left_iff.1 hf
      obtain rfl := hs.id_eq hn
      rw [List.flatMap_cons, List.flatten_cons]
      exact (thins_inheritAll hn hget hls).append (ih found hrest hall.2)

/-! ## 3. Outlines with a new parent -/

/-- The outlines after one number is given another one as a parent. -/
def joinOutlines (os : List Outline) (c p : Nat) : List Outline :=
  let heirs := (os[c]?.map Outline.descendants).getD []
  let ancestors := (os[p]?.map Outline.ancestors).getD []
  os.mapIdx fun i o => (pairs heirs ancestors).foldl (Outline.settle i) (o.link c p i)

theorem getElem?_joinOutlines (hc : h.nodes[c]? = some child) (hp : h.nodes[p]? = some parent)
    (i : Nat) : (joinOutlines h.outlines c p)[i]? = h.nodes[i]?.map fun n =>
      (pairs child.descendants parent.ancestors.keys).foldl (Outline.settle i)
        (n.outline.link c p i) := by
  rw [joinOutlines, List.getElem?_mapIdx, getElem?_outlines, getElem?_outlines, getElem?_outlines,
    hc, hp]
  cases h.nodes[i]? with
  | none => rfl
  | some n => rfl

/-- Ancestors and descendants that are recorded are shown. -/
theorem shows_outline (hs : Sound h) (hn : h.nodes[i]? = some n) {e : Nat × Nat}
    (he : h.HasAncestor e.1 e.2) : (n.outline.link c p i).Shows i e := by
  refine ⟨fun hi => ?_, fun hi => ?_⟩
  · rw [hi, HasAncestor, exists_node_iff hn] at he
    exact (Roster.contains_iff _ _).1 he
  · have hd := hs.ancestor_descendant.1 he
    rw [hi, HasDescendant, exists_node_iff hn] at hd
    exact hd

theorem outlines_connected (hs : Sound h) (hc : h.nodes[child.id]? = some child)
    (hp : h.nodes[parent.id]? = some parent) (e : h.legacies child parent record = .ok ls) :
    (h.connected child parent record ls).outlines =
      joinOutlines h.outlines child.id parent.id := by
  refine List.ext_getElem? fun i => ?_
  rw [getElem?_outlines, getElem?_connected, getElem?_joinOutlines hc hp, Option.map_map]
  cases hn : h.nodes[i]? with
  | none => rfl
  | some n =>
      rw [Option.map_some, Option.map_some, Function.comp_apply, outline_foldl_settle, outline_link,
        (thins_legacies hs hc e).foldl_settle fun e he => shows_outline hs hn he]

/-- **A parent that is added again changes no outline.** -/
theorem joinOutlines_eq (hs : Sound h) (hcp : h.HasParent c p) :
    joinOutlines h.outlines c p = h.outlines := by
  obtain ⟨child, hc, hcontains⟩ := id hcp
  have hap := hs.hasAncestor_of_parent hcp
  obtain ⟨parent, hp⟩ := hs.node_of_ancestor hap
  refine List.ext_getElem? fun i => ?_
  rw [getElem?_joinOutlines hc hp, getElem?_outlines]
  cases hn : h.nodes[i]? with
  | none => rfl
  | some n =>
      have hlink : n.outline.link c p i = n.outline := by
        refine Outline.link_eq (fun hi => ?_) fun hi => ?_
        · subst hi
          rw [hc] at hn
          cases hn
          exact (Roster.contains_iff _ _).1 hcontains
        · subst hi
          have hchild := hs.parent_child.1 hcp
          rw [HasChild, exists_node_iff hn] at hchild
          exact hchild
      rw [Option.map_some, Option.map_some]
      congr 1
      rw [Outline.foldl_settle_of_shows fun e he => ?_, hlink]
      -- every heir of the child has every ancestor of the parent
      refine shows_outline hs hn ?_
      obtain ⟨d, hd, he⟩ := List.mem_flatMap.1 he
      obtain ⟨a, ha, rfl⟩ := List.mem_map.1 he
      exact hs.hasAncestor_trans (hs.ancestor_descendant.2 ⟨child, hc, hd⟩)
        (hs.hasAncestor_trans hap ⟨parent, hp, (Roster.contains_iff _ _).2 ha⟩)

/-- **What an accepted parent does to the outlines is a matter of the outlines.** -/
theorem outlines_addParent (hs : Sound h) {name : String} {t : Ty}
    (e : h.addParent name t = .ok h') :
    ∃ c p, h.idOf? name = some c ∧ h'.outlines = joinOutlines h.outlines c p ∧
      h'.tables = h.tables ∧
      ∀ {i j : Nat}, h'.HasParent i j ↔ h.HasParent i j ∨ (i = c ∧ j = p) := by
  obtain ⟨n, p, r, r', hr, hd, hj, hcase⟩ := addParent_eq_ok.1 e
  have hn := hs.node_of_find hr.child_eq
  have hp := hs.node_of_find hr.parent_eq
  have hid : h.idOf? name = some n.id := hs.idOf?_eq_some.2 ⟨n, hn, find?_name hr.child_eq⟩
  rcases hcase with ⟨hget, rfl⟩ | ⟨-, ls, hls, rfl⟩
  · have hcp : h'.HasParent n.id p.id := ⟨n, hn, by rw [Roster.contains, hget]; rfl⟩
    refine ⟨n.id, p.id, hid, (joinOutlines_eq hs hcp).symm, rfl, fun {i j} => ⟨Or.inl, ?_⟩⟩
    rintro (hij | ⟨rfl, rfl⟩)
    · exact hij
    · exact hcp
  · exact ⟨n.id, p.id, hid, outlines_connected hs hn hp hls, rfl,
      (extension_connected hs hn hp hls).hasParent hn⟩

end Hierarchy

end Lineage

import Lineage.Proofs.Construction
import Lineage.Proofs.Renaming

/-!
# Building with renamed parameters

Declaring a type with renamed parameters, or giving it a parent written in them, does to the renamed
hierarchy what it did before. What is refused is refused for the same reason.

A record that a heir gets is written in the heir's parameters. It starts out in those of an ancestor
of the parent, and passes through those of the parent and of the child (`inheritAll_rename`).
-/

namespace Lineage.Hierarchy

variable (ρ : String → Renaming) {h : Hierarchy}

/-! ## 1. Inheriting -/

/-- The legacy in a renamed hierarchy: its record is written in the parameters of the heir, whose
    name is found by its number. -/
def Legacy.rename (names : List String) (l : Legacy) : Legacy :=
  { l with record := l.record.rename (ρ (names[l.heir]?.getD "")) }

theorem agree_rename (σ : Renaming) (child : Node) (parent : Nat) (link : App Ty) :
    agree (child.rename ρ) parent (link.rename (ρ child.name)) =
      outcome (Error.rename ρ σ) (App.rename (ρ child.name)) (agree child parent link) := by
  rw [agree, agree, Node.rename, Roster.get?_map]
  cases child.ancestors.get? parent with
  | none => rfl
  | some existing =>
      rw [Option.map_some]
      dsimp only
      rw [App.refine_rename]
      cases existing.refine link with
      | none => rfl
      | some refined => rfl

theorem inherit_rename (σ : Renaming) {names : List String} {heir : Node}
    (hname : names[heir.id]? = some heir.name) (ancestor : Nat) (incoming : App Ty) :
    inherit (heir.rename ρ) ancestor (incoming.rename (ρ heir.name)) =
      outcome (Error.rename ρ σ) (Option.map (Legacy.rename ρ names))
        (inherit heir ancestor incoming) := by
  have hlegacy (r : App Ty) : (⟨heir.id, ancestor, r.rename (ρ heir.name)⟩ : Legacy) =
      Legacy.rename ρ names ⟨heir.id, ancestor, r⟩ := by
    rw [Legacy.rename, hname]
    rfl
  rw [inherit, inherit, Node.rename, Roster.get?_map]
  cases heir.ancestors.get? ancestor with
  | none => exact congrArg (fun l => Except.ok (some l)) (hlegacy incoming)
  | some existing =>
      rw [Option.map_some]
      dsimp only
      rw [App.refine_rename]
      cases existing.refine incoming with
      | none => rfl
      | some refined =>
          rw [Option.map_some]
          dsimp only
          simp only [(App.rename_injective (ρ heir.name)).eq_iff, hlegacy]
          split
          · rfl
          · rfl

theorem inheritAll_rename (σ : Renaming) {names : List String} {child parent heir : Node}
    (hname : names[heir.id]? = some heir.name) (link : App Ty) :
    inheritAll (child.rename ρ) (parent.rename ρ) (link.rename (ρ child.name)) (heir.rename ρ) =
      outcome (Error.rename ρ σ) (List.map (Legacy.rename ρ names))
        (inheritAll child parent link heir) := by
  have hget : (heir.rename ρ).ancestors.get? (child.rename ρ).id =
      (heir.ancestors.get? child.id).map (App.rename (ρ heir.name)) := Roster.get?_map ..
  rw [inheritAll, inheritAll, hget]
  cases heir.ancestors.get? child.id with
  | none => rfl
  | some asChild =>
      rw [Option.map_some]
      dsimp only
      refine outcome_bind (outcome_mapM
        (r := fun e : Nat × App Ty => (e.1, e.2.rename (ρ parent.name)))
        (g := Option.map (Legacy.rename ρ names)) fun e _ => ?_) fun found => ?_
      · -- from the parameters of the parent to those of the child, and on to those of the heir
        dsimp only
        rw [App.args_rename, App.args_rename, Node.substitute_rename, Node.substitute_rename]
        exact inherit_rename ρ σ hname e.1 _
      · rw [List.filterMap_map]
        refine congrArg Except.ok ?_
        rw [List.map_filterMap]
        rfl

/-- The names of the types in the order of their numbers. -/
def names (h : Hierarchy) : List String := h.nodes.map Node.name

theorem legacies_rename (hs : Sound h) (σ : Renaming) (child parent : Node) (link : App Ty) :
    (h.rename ρ).legacies (child.rename ρ) (parent.rename ρ) (link.rename (ρ child.name)) =
      outcome (Error.rename ρ σ) (List.map (Legacy.rename ρ h.names))
        (h.legacies child parent link) := by
  have hheirs : ((child.rename ρ).descendants.filterMap ((h.rename ρ).nodes[·]?)) =
      (child.descendants.filterMap (h.nodes[·]?)).map (Node.rename ρ) := by
    rw [List.map_filterMap]
    exact List.filterMap_congr fun i _ => getElem?_rename ρ h i
  rw [legacies, legacies, hheirs]
  refine outcome_bind (outcome_mapM (g := List.map (Legacy.rename ρ h.names)) fun heir hm => ?_)
    fun found => ?_
  · obtain ⟨i, -, hi⟩ := List.mem_filterMap.1 hm
    refine inheritAll_rename ρ σ ?_ link
    rw [names, List.getElem?_map, hs.id_eq hi, hi]
    rfl
  · refine congrArg Except.ok ?_
    rw [List.map_flatten]

/-- A change of one node, made before or after all nodes are renamed. -/
theorem map_rename_modify {nodes : List Node} {i : Nat} {f g : Node → Node}
    (hfg : ∀ n, nodes[i]? = some n → (f n).rename ρ = g (n.rename ρ)) :
    (nodes.modify i f).map (Node.rename ρ) = (nodes.map (Node.rename ρ)).modify i g := by
  refine List.ext_getElem? fun j => ?_
  rw [List.getElem?_map, List.getElem?_modify, List.getElem?_modify, List.getElem?_map]
  cases hj : nodes[j]? with
  | none => rfl
  | some n =>
      simp only [Option.map_some, Option.map_eq_map]
      split
      · rename_i hij
        rw [hfg n (hij ▸ hj)]
      · rfl

theorem map_name_modify {nodes : List Node} {i : Nat} {f : Node → Node}
    (hf : ∀ n, (f n).name = n.name) : (nodes.modify i f).map Node.name = nodes.map Node.name := by
  refine List.ext_getElem? fun j => ?_
  rw [List.getElem?_map, List.getElem?_modify, List.getElem?_map]
  cases nodes[j]? with
  | none => rfl
  | some n =>
      simp only [Option.map_some, Option.map_eq_map]
      split
      · rw [hf]
      · rfl

theorem map_name_bequeath (nodes : List Node) (l : Legacy) :
    (bequeath nodes l).map Node.name = nodes.map Node.name := by
  refine Eq.trans (map_name_modify ?_) (map_name_modify ?_)
  · exact fun _ => rfl
  · exact fun _ => rfl

theorem map_rename_bequeath (nodes : List Node) (l : Legacy) :
    (bequeath nodes l).map (Node.rename ρ) =
      bequeath (nodes.map (Node.rename ρ)) (l.rename ρ (nodes.map Node.name)) := by
  have hheir : (nodes.modify l.heir (·.addAncestor l.ancestor l.record)).map (Node.rename ρ) =
      (nodes.map (Node.rename ρ)).modify l.heir
        (·.addAncestor l.ancestor (l.rename ρ (nodes.map Node.name)).record) := by
    refine map_rename_modify ρ fun n hn => ?_
    rw [Legacy.rename, List.getElem?_map, hn, Node.addAncestor, Node.addAncestor, Node.rename,
      Node.rename, Roster.map_insert]
    rfl
  rw [bequeath, bequeath, Legacy.rename]
  refine Eq.trans (map_rename_modify ρ ?_) (congrArg (List.modify · l.ancestor _) hheir)
  exact fun _ _ => rfl

theorem map_rename_foldl_bequeath (ls : List Legacy) (nodes : List Node) :
    (ls.foldl bequeath nodes).map (Node.rename ρ) =
      (ls.map (Legacy.rename ρ (nodes.map Node.name))).foldl bequeath
        (nodes.map (Node.rename ρ)) := by
  induction ls generalizing nodes with
  | nil => rfl
  | cons l ls ih =>
      rw [List.foldl_cons, ih, map_name_bequeath, map_rename_bequeath, List.map_cons,
        List.foldl_cons]

theorem map_rename_connect {nodes : List Node} {child : Nat} {n : Node}
    (hn : nodes[child]? = some n) (parent : Nat) (link : App Ty) (ls : List Legacy) :
    (connect nodes child parent link ls).map (Node.rename ρ) =
      connect (nodes.map (Node.rename ρ)) child parent (link.rename (ρ n.name))
        (ls.map (Legacy.rename ρ (nodes.map Node.name))) := by
  have hchild : (nodes.modify child (·.addParent parent link)).map (Node.rename ρ) =
      (nodes.map (Node.rename ρ)).modify child (·.addParent parent (link.rename (ρ n.name))) := by
    refine map_rename_modify ρ fun m hm => ?_
    rw [hn] at hm
    cases hm
    rw [Node.addParent, Node.addParent, Node.rename, Node.rename, Roster.map_insert]
  have hlinked : ((nodes.modify child (·.addParent parent link)).modify parent
      (·.addChild child)).map (Node.rename ρ) =
      ((nodes.map (Node.rename ρ)).modify child
        (·.addParent parent (link.rename (ρ n.name)))).modify parent (·.addChild child) := by
    refine Eq.trans (map_rename_modify ρ ?_) (congrArg (List.modify · parent _) hchild)
    exact fun _ _ => rfl
  have hnames : ((nodes.modify child (·.addParent parent link)).modify parent
      (·.addChild child)).map Node.name = nodes.map Node.name := by
    refine Eq.trans (map_name_modify ?_) (map_name_modify ?_)
    · exact fun _ => rfl
    · exact fun _ => rfl
  rw [connect, connect, map_rename_foldl_bequeath, hlinked, hnames]

/-! ## 2. Calls -/

theorem addApp_rename (hs : Sound h) {child : Node} (hc : h.nodes[child.id]? = some child)
    (link : App Ty) :
    (h.rename ρ).addApp (child.rename ρ) (link.rename (ρ child.name)) =
      outcome (Error.rename ρ (ρ child.name)) (Hierarchy.rename ρ) (h.addApp child link) := by
  rw [addApp, addApp]
  refine outcome_bind (normalizeApp_rename ρ ρ _ h link) fun link => ?_
  rw [foreignApp_rename]
  cases foreignApp child link with
  | some why => rfl
  | none =>
      rw [Option.map_none, App.head_rename, find?_rename]
      dsimp only
      cases h.find? link.head with
      | none => rfl
      | some parent =>
          rw [Option.map_some]
          dsimp only
          -- numbers of types stay as they are
          have hdesc : (child.rename ρ).descendants.contains (parent.rename ρ).id =
              child.descendants.contains parent.id := rfl
          rw [hdesc]
          split
          · rfl
          · refine outcome_bind (agree_rename ρ _ child parent.id link) fun link => ?_
            have hget : ((child.rename ρ).parents.get? (parent.rename ρ).id =
                some (link.rename (ρ child.name))) ↔ child.parents.get? parent.id = some link := by
              have hmap : (child.rename ρ).parents.get? (parent.rename ρ).id =
                (child.parents.get? parent.id).map (App.rename (ρ child.name)) :=
                  Roster.get?_map ..
              rw [hmap, ← Option.map_some]
              exact (Option.map_injective (App.rename_injective _)).eq_iff
            simp only [hget]
            split
            · rfl
            · refine outcome_bind (legacies_rename ρ hs _ child parent link) fun ls => ?_
              refine congrArg Except.ok ?_
              rw [rename, rename, map_rename_connect ρ hc]
              rfl

theorem requireOpen_rename (σ : Renaming) :
    (h.rename ρ).requireOpen = outcome (Error.rename ρ σ) id h.requireOpen := by
  rw [requireOpen, requireOpen, isFinalized, isFinalized, rename]
  split
  · rfl
  · rfl

theorem addParent_rename (hs : Sound h) (child : String) (parent : Ty) :
    (h.rename ρ).addParent child (parent.rename (ρ child)) =
      outcome (Error.rename ρ (ρ child)) (Hierarchy.rename ρ) (h.addParent child parent) := by
  rw [addParent, addParent]
  refine outcome_bind (requireOpen_rename ρ _) fun _ => ?_
  rw [find?_rename]
  cases hn : h.find? child with
  | none => rfl
  | some n =>
      rw [Option.map_some]
      dsimp only
      obtain rfl := find?_name hn
      cases parent with
      | var v =>
          rw [Ty.rename_var, outcome, Error.rename, Misfit.rename, Ty.rename_var]
      | app link =>
          rw [Ty.rename_app]
          exact addApp_rename ρ hs (hs.node_of_find hn) link

theorem firstRepeated_map (σ : Renaming) (seen names : List String) :
    firstRepeated (seen.map σ.map) (names.map σ.map) = (firstRepeated seen names).map σ.map := by
  induction names generalizing seen with
  | nil => rfl
  | cons name names ih =>
      simp only [List.map_cons, firstRepeated, List.mem_map_of_injective σ.injective]
      rw [← List.map_cons, ih]
      split
      · rfl
      · rfl

theorem declare_rename (σ : Renaming) (name : String) (params : List Param) :
    (h.rename ρ).declare name (params.map (Param.rename (ρ name))) =
      outcome (Error.rename ρ σ) (Hierarchy.rename ρ) (h.declare name params) := by
  rw [declare, declare]
  refine outcome_bind (requireOpen_rename ρ _) fun _ => ?_
  rw [find?_rename, Option.isSome_map]
  split
  · rfl
  · have hnames : (params.map (Param.rename (ρ name))).map Param.name =
        (params.map Param.name).map (ρ name).map := by
      rw [List.map_map, List.map_map]
      rfl
    have hrep := firstRepeated_map (ρ name) [] (params.map Param.name)
    rw [hnames]
    rw [List.map_nil] at hrep
    rw [hrep]
    cases firstRepeated [] (params.map Param.name) with
    | some param => rfl
    | none =>
        refine congrArg Except.ok ?_
        rw [rename, rename, List.map_append, List.map_singleton, Node.rename_new, size,
          List.length_map]
        rfl

end Lineage.Hierarchy

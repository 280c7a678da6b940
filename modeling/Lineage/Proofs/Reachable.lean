import Lineage.Hierarchy.Build
import Lineage.Proofs.Normal

/-!
# Reachable hierarchies

A hierarchy is reachable if some sequence of calls leads to it from the empty one. A call may be
refused; it then changes nothing.

What is said about a hierarchy is said about the numbers of its types: one type has another as a
parent, child, ancestor or descendant, and has a record of each ancestor (`record?`). Adding
parents leaves the types as they were declared (`SameTypes`).
-/

namespace Lineage

/-- A change asked of a hierarchy. -/
inductive Call where
  | declare (name : String) (params : List Param)
  | addParent (child : String) (parent : Ty)
  | finalize

namespace Hierarchy

variable {h h' h'' : Hierarchy}

/-! ## 1. Calls -/

/-- The hierarchy after a call. A refused call leaves it as it is. -/
def perform (h : Hierarchy) : Call → Hierarchy
  | .declare name params =>
      match h.declare name params with
      | .ok h' => h'
      | .error _ => h
  | .addParent child parent =>
      match h.addParent child parent with
      | .ok h' => h'
      | .error _ => h
  | .finalize => h.finalize

/-- Whether some sequence of calls leads to the hierarchy. -/
def Reachable (h : Hierarchy) : Prop := ∃ calls : List Call, calls.foldl perform empty = h

/-- **What holds at the start and survives every successful call holds in every reachable
    hierarchy.** -/
theorem Reachable.induct {P : Hierarchy → Prop} (start : P empty)
    (declare : ∀ {h h' name params}, P h → h.declare name params = .ok h' → P h')
    (addParent : ∀ {h h' child parent}, P h → h.addParent child parent = .ok h' → P h')
    (finalize : ∀ {h}, P h → P h.finalize) (hr : Reachable h) : P h := by
  have step : ∀ (k : Hierarchy) (c : Call), P k → P (k.perform c) := by
    intro k c hk
    cases c with
    | declare name params =>
        rw [perform]
        split
        · rename_i e
          exact declare hk e
        · exact hk
    | addParent child parent =>
        rw [perform]
        split
        · rename_i e
          exact addParent hk e
        · exact hk
    | finalize => exact finalize hk
  obtain ⟨calls, rfl⟩ := hr
  exact List.foldlRecOn calls perform start fun k hk c _ => step k c hk

theorem Reachable.step (hr : Reachable h) (c : Call) : Reachable (h.perform c) := by
  obtain ⟨calls, rfl⟩ := hr
  exact ⟨calls ++ [c], by rw [List.foldl_append, List.foldl_cons, List.foldl_nil]⟩

theorem Reachable.declare (hr : Reachable h) {name : String} {params : List Param}
    (e : h.declare name params = .ok h') : Reachable h' := by
  have := hr.step (.declare name params)
  rwa [perform, e] at this

theorem Reachable.addParent (hr : Reachable h) {child : String} {parent : Ty}
    (e : h.addParent child parent = .ok h') : Reachable h' := by
  have := hr.step (.addParent child parent)
  rwa [perform, e] at this

theorem Reachable.finalize (hr : Reachable h) : Reachable h.finalize := hr.step .finalize

/-! ## 2. Relatives -/

/-- The record that a type has of an ancestor. -/
def record? (h : Hierarchy) (heir ancestor : Nat) : Option (App Ty) :=
  h.nodes[heir]?.bind (·.ancestors.get? ancestor)

/-- Whether one type has another as a direct parent. -/
def HasParent (h : Hierarchy) (child parent : Nat) : Prop :=
  ∃ n, h.nodes[child]? = some n ∧ n.parents.contains parent = true

/-- Whether one type has another as a direct child. -/
def HasChild (h : Hierarchy) (parent child : Nat) : Prop :=
  ∃ n, h.nodes[parent]? = some n ∧ child ∈ n.children

/-- Whether one type has another as an ancestor. -/
def HasAncestor (h : Hierarchy) (heir ancestor : Nat) : Prop :=
  ∃ n, h.nodes[heir]? = some n ∧ n.ancestors.contains ancestor = true

/-- Whether one type has another as a descendant. -/
def HasDescendant (h : Hierarchy) (ancestor heir : Nat) : Prop :=
  ∃ n, h.nodes[ancestor]? = some n ∧ heir ∈ n.descendants

/-- What is said of the node of a number is said of the node. -/
theorem exists_node_iff {i : Nat} {n : Node} (hn : h.nodes[i]? = some n) {P : Node → Prop} :
    (∃ m, h.nodes[i]? = some m ∧ P m) ↔ P n := by
  constructor
  · rintro ⟨m, hm, hp⟩
    rw [hn] at hm
    cases hm
    exact hp
  · exact fun hp => ⟨n, hn, hp⟩

theorem hasAncestor_iff {d a : Nat} : h.HasAncestor d a ↔ ∃ r, h.record? d a = some r := by
  constructor
  · rintro ⟨n, hn, hc⟩
    obtain ⟨r, hr⟩ := Option.isSome_iff_exists.1 hc
    exact ⟨r, by rw [record?, hn]; exact hr⟩
  · rintro ⟨r, hr⟩
    obtain ⟨n, hn, hr⟩ := Option.bind_eq_some_iff.1 hr
    exact ⟨n, hn, by rw [Roster.contains, hr]; rfl⟩

theorem record?_eq_some {d a : Nat} {r : App Ty} : h.record? d a = some r ↔
    ∃ n, h.nodes[d]? = some n ∧ n.ancestors.get? a = some r := by
  rw [record?, Option.bind_eq_some_iff]

/-! ## 3. The types as declared -/

/-- The two hierarchies have the same types, declared in the same order. -/
def SameTypes (h h' : Hierarchy) : Prop := h'.nodes.map Node.bare = h.nodes.map Node.bare

namespace SameTypes

theorem refl (h : Hierarchy) : SameTypes h h := rfl

theorem symm (e : SameTypes h h') : SameTypes h' h := Eq.symm e

theorem trans (e : SameTypes h h') (e' : SameTypes h' h'') : SameTypes h h'' := Eq.trans e' e

theorem size_eq (e : SameTypes h h') : h'.nodes.length = h.nodes.length := by
  simpa using congrArg List.length e

theorem node (e : SameTypes h h') {i : Nat} {n : Node} (hn : h.nodes[i]? = some n) :
    ∃ n', h'.nodes[i]? = some n' ∧ n'.bare = n.bare := by
  have hi : (h'.nodes.map Node.bare)[i]? = some n.bare := by
    rw [e, List.getElem?_map, hn]
    rfl
  rw [List.getElem?_map] at hi
  obtain ⟨n', hn', hb⟩ := Option.map_eq_some_iff.1 hi
  exact ⟨n', hn', hb⟩

theorem find? (e : SameTypes h h') {name : String} {n : Node} (hn : h.find? name = some n) :
    ∃ n', h'.find? name = some n' ∧ n'.bare = n.bare := by
  have key (k : Hierarchy) : (k.nodes.map Node.bare).find? (·.name == name) =
      (k.find? name).map Node.bare := List.find?_map ..
  have hb : (h'.find? name).map Node.bare = some n.bare := by
    rw [← key h', e, key h, hn]
    rfl
  obtain ⟨n', hn', hb⟩ := Option.map_eq_some_iff.1 hb
  exact ⟨n', hn', hb⟩

theorem idOf?_eq (e : SameTypes h h') (name : String) : h'.idOf? name = h.idOf? name := by
  have key (k : Hierarchy) : (k.nodes.map Node.bare).findIdx? (·.name == name) = k.idOf? name :=
    List.findIdx?_map ..
  rw [← key h', e, key h]

theorem knows (e : SameTypes h h') : Knows h h' := by
  intro name n hn
  obtain ⟨n', hn', hb⟩ := e.find? hn
  exact ⟨n', hn', congrArg List.length (Node.bare_eq_iff.1 hb).2.2⟩

theorem isNormalApp_iff (e : SameTypes h h') {a : App Ty} :
    h'.isNormalApp a = true ↔ h.isNormalApp a = true :=
  ⟨isNormalApp_mono e.symm.knows, isNormalApp_mono e.knows⟩

/-- What normalizing looks at are names and arities. -/
theorem find?_arity (e : SameTypes h h') (name : String) :
    (h.find? name = none ∧ h'.find? name = none) ∨ ∃ n n', h.find? name = some n ∧
      h'.find? name = some n' ∧ n'.arity = n.arity := by
  cases hn : h.find? name with
  | none =>
      cases hn' : h'.find? name with
      | none => exact Or.inl ⟨rfl, rfl⟩
      | some n' =>
          obtain ⟨n, hn'', -⟩ := e.symm.find? hn'
          rw [hn] at hn''
          cases hn''
  | some n =>
      obtain ⟨n', hn', hb⟩ := e.find? hn
      exact Or.inr ⟨n, n', rfl, hn', congrArg List.length (Node.bare_eq_iff.1 hb).2.2⟩

mutual
theorem normalize_eq (e : SameTypes h h') : ∀ t : Ty, h'.normalize t = h.normalize t
  | .app a => by rw [normalize, normalize, e.normalizeApp_eq a]
  | .var ⟨name, lower, upper⟩ => by
      rw [normalize, normalize, e.normalizeApps_eq lower, e.normalizeApps_eq upper]
theorem normalizeApp_eq (e : SameTypes h h') : ∀ a : App Ty, h'.normalizeApp a = h.normalizeApp a
  | ⟨head, args⟩ => by
      rw [normalizeApp, normalizeApp]
      rcases e.find?_arity head with ⟨hn, hn'⟩ | ⟨n, n', hn, hn', ha⟩
      · rw [hn, hn']
      · rw [hn, hn']
        simp only [ha, e.normalizeAll_eq args]
theorem normalizeAll_eq (e : SameTypes h h') :
    ∀ ts : List Ty, h'.normalizeAll ts = h.normalizeAll ts
  | [] => by rw [normalizeAll, normalizeAll]
  | t :: ts => by rw [normalizeAll, normalizeAll, e.normalize_eq t, e.normalizeAll_eq ts]
theorem normalizeApps_eq (e : SameTypes h h') :
    ∀ as : List (App Ty), h'.normalizeApps as = h.normalizeApps as
  | [] => by rw [normalizeApps, normalizeApps]
  | a :: as => by rw [normalizeApps, normalizeApps, e.normalizeApp_eq a, e.normalizeApps_eq as]
end

end SameTypes

theorem find?_name {name : String} {n : Node} (hn : h.find? name = some n) : n.name = name := by
  have := List.find?_some hn
  simpa using this

theorem find?_mem {name : String} {n : Node} (hn : h.find? name = some n) : n ∈ h.nodes :=
  List.mem_of_find?_eq_some hn

end Hierarchy

end Lineage

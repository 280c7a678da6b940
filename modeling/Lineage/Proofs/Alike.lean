import Lineage.Hierarchy.Query
import Lineage.Proofs.Confluence
import Lineage.Proofs.Table

/-!
# Hierarchies that answer alike

Two hierarchies are alike if they have the same types, the same records and the same descendants;
the order in which relatives were recorded may differ, and so may the instantiations of parents.
Every question gets the same answer from both, in the same number of rounds.

The proofs go through the definitions of the questions one by one: what a definition reads off a
node is the same in both hierarchies.
-/

namespace Lineage

/-! ## 1. Alike -/

/-- The same type with the same records and the same descendants. -/
structure Node.Alike (n n' : Node) : Prop where
  bare : n'.bare = n.bare
  ancestors : ∀ a, n'.ancestors.get? a = n.ancestors.get? a
  descendants : ∀ d, d ∈ n'.descendants ↔ d ∈ n.descendants

namespace Node.Alike

variable {n n' : Node} (e : n.Alike n')
include e

theorem id_eq : n'.id = n.id := (Node.bare_eq_iff.1 e.bare).1

theorem name_eq : n'.name = n.name := (Node.bare_eq_iff.1 e.bare).2.1

theorem params_eq : n'.params = n.params := (Node.bare_eq_iff.1 e.bare).2.2

theorem variance_eq : n'.variance = n.variance := by
  rw [← Node.variance_bare n', e.bare, Node.variance_bare]

theorem substitute_eq : n'.substitute = n.substitute := by
  rw [← Node.substitute_bare n', e.bare, Node.substitute_bare]

theorem symm : n'.Alike n :=
  ⟨e.bare.symm, fun a => (e.ancestors a).symm, fun d => (e.descendants d).symm⟩

end Node.Alike

namespace Hierarchy

/-- Type by type the same, and finalized with the same tables. -/
structure Alike (h h' : Hierarchy) : Prop where
  nodes : List.Forall₂ Node.Alike h.nodes h'.nodes
  tables : h'.tables = h.tables

variable {h h' : Hierarchy}

/-- Alike nodes are found at the same places of a list. -/
theorem getElem?_alike {ns ns' : List Node} (e : List.Forall₂ Node.Alike ns ns') (i : Nat) :
    (ns[i]? = none ∧ ns'[i]? = none) ∨
      ∃ n n', ns[i]? = some n ∧ ns'[i]? = some n' ∧ n.Alike n' := by
  induction e generalizing i with
  | nil => exact Or.inl ⟨rfl, rfl⟩
  | cons hn _ ih =>
      cases i with
      | zero => exact Or.inr ⟨_, _, rfl, rfl, hn⟩
      | succ i => exact ih i

theorem find?_alike {ns ns' : List Node} (e : List.Forall₂ Node.Alike ns ns') (name : String) :
    (ns.find? (·.name == name) = none ∧ ns'.find? (·.name == name) = none) ∨
      ∃ n n', ns.find? (·.name == name) = some n ∧ ns'.find? (·.name == name) = some n' ∧
        n.Alike n' := by
  induction e with
  | nil => exact Or.inl ⟨rfl, rfl⟩
  | @cons n n' _ _ hn _ ih =>
      rw [List.find?_cons, List.find?_cons, hn.name_eq]
      cases n.name == name with
      | true => exact Or.inr ⟨_, _, rfl, rfl, hn⟩
      | false => exact ih

theorem map_bare_alike {ns ns' : List Node} (e : List.Forall₂ Node.Alike ns ns') :
    ns'.map Node.bare = ns.map Node.bare := by
  induction e with
  | nil => rfl
  | cons hn _ ih => rw [List.map_cons, List.map_cons, hn.bare, ih]

namespace Alike

variable (e : Alike h h')
include e

theorem find_cases (name : String) : (h.find? name = none ∧ h'.find? name = none) ∨
    ∃ n n', h.find? name = some n ∧ h'.find? name = some n' ∧ n.Alike n' :=
  find?_alike e.nodes name

theorem same : SameTypes h h' := map_bare_alike e.nodes

theorem symm : Alike h' h := by
  refine ⟨List.Forall₂.flip (e.nodes.imp fun _ _ hn => ?_), e.tables.symm⟩
  exact hn.symm

/-! ## 2. Subtyping -/

theorem raise_eq (a : App Ty) (target : Nat) : h'.raise a target = h.raise a target := by
  rw [raise, raise]
  rcases e.find_cases a.head with ⟨hn, hn'⟩ | ⟨n, n', hn, hn', ha⟩
  · rw [hn, hn']
  · rw [hn, hn']
    simp only [bind, Option.bind, ha.ancestors, ha.substitute_eq]

theorem appFulfillsWith_eq (rec : Ty → Ty → Option Bool) (a b : App Ty) :
    h'.appFulfillsWith rec a b = h.appFulfillsWith rec a b := by
  rw [appFulfillsWith, appFulfillsWith]
  rcases e.find_cases b.head with ⟨hn, hn'⟩ | ⟨n, n', hn, hn', ha⟩
  · rw [hn, hn']
  · rw [hn, hn']
    simp only [e.raise_eq, ha.id_eq, argsAgree, ha.variance_eq]

omit e in
/-- Some type is a descendant of them all. -/
theorem shareDescendant_iff (h : Hierarchy) {apps : List (App Ty)} :
    h.shareDescendant apps = true ↔ ∃ n ns i,
      List.Forall₂ (fun a m => h.find? a.head = some m) apps (n :: ns) ∧
        ∀ m ∈ n :: ns, i ∈ m.descendants := by
  rw [shareDescendant]
  cases hm : apps.mapM fun a => h.find? a.head with
  | none =>
      simp only [Bool.false_eq_true, false_iff]
      rintro ⟨n, ns, i, hf, -⟩
      rw [mapM_eq_some.2 hf] at hm
      cases hm
  | some ms =>
      have hms := mapM_eq_some.1 hm
      cases ms with
      | nil =>
          simp only [Bool.false_eq_true, false_iff]
          rintro ⟨n, ns, i, hf, -⟩
          rw [mapM_eq_some.2 hf] at hm
          cases hm
      | cons n ns =>
          simp only [List.any_eq_true, List.all_eq_true, List.contains_iff_mem]
          constructor
          · rintro ⟨i, hi, hall⟩
            exact ⟨n, ns, i, hms, List.forall_mem_cons.2 ⟨hi, hall⟩⟩
          · rintro ⟨n', ns', i, hf, hall⟩
            rw [mapM_eq_some.2 hf] at hm
            cases hm
            exact ⟨i, List.forall_mem_cons.1 hall⟩

theorem find_all {apps : List (App Ty)} {ns : List Node}
    (hf : List.Forall₂ (fun a m => h.find? a.head = some m) apps ns) :
    ∃ ns', List.Forall₂ (fun a m => h'.find? a.head = some m) apps ns' ∧
      List.Forall₂ Node.Alike ns ns' := by
  induction hf with
  | nil => exact ⟨[], .nil, .nil⟩
  | @cons a m _ _ hm _ ih =>
      obtain ⟨ns', hf', hns⟩ := ih
      rcases e.find_cases a.head with ⟨hn, -⟩ | ⟨n, n', hn, hn', ha⟩
      · rw [hm] at hn
        cases hn
      · rw [hm] at hn
        cases hn
        exact ⟨n' :: ns', .cons hn' hf', .cons ha hns⟩

theorem shareDescendant_of {apps : List (App Ty)} (hd : h.shareDescendant apps = true) :
    h'.shareDescendant apps = true := by
  obtain ⟨n, ns, i, hf, hall⟩ := (shareDescendant_iff h).1 hd
  obtain ⟨ms, hf', hns⟩ := e.find_all hf
  obtain ⟨n', ns', -, -, rfl⟩ := List.forall₂_cons_left_iff.1 hns
  refine (shareDescendant_iff h').2 ⟨n', ns', i, hf', fun m' hm' => ?_⟩
  obtain ⟨m, hm, ha⟩ := forall₂_exists_left hns hm'
  exact (ha.descendants i).2 (hall m hm)

theorem shareDescendant_eq (apps : List (App Ty)) :
    h'.shareDescendant apps = h.shareDescendant apps :=
  Bool.eq_iff_iff.2 ⟨e.symm.shareDescendant_of, e.shareDescendant_of⟩

theorem fulfillsWith_eq (rec : Ty → Ty → Option Bool) :
    h'.fulfillsWith rec = h.fulfillsWith rec := by
  funext a b
  cases b with
  | var v => rw [fulfillsWith, fulfillsWith]
  | app b =>
      cases a with
      | app a => rw [fulfillsWith, fulfillsWith, e.appFulfillsWith_eq]
      | var v =>
          rw [fulfillsWith, fulfillsWith, varFulfillsWith, varFulfillsWith]
          simp only [e.appFulfillsWith_eq, e.shareDescendant_eq]

/-- **Subtyping is the same, round by round.** -/
theorem fulfills_eq : ∀ rounds, h'.fulfills rounds = h.fulfills rounds
  | 0 => rfl
  | rounds + 1 => by
      funext a b
      rw [fulfills, fulfills, fulfills_eq rounds, e.fulfillsWith_eq]

theorem checkRange_eq (rounds : Nat) (v : Var Ty) :
    h'.checkRange rounds v = h.checkRange rounds v := by
  simp only [checkRange, appFulfills, e.fulfills_eq, e.appFulfillsWith_eq]

omit e

mutual
theorem checkRanges_eq (rounds : Nat) (e : Alike h h') :
    ∀ t : Ty, h'.checkRanges rounds t = h.checkRanges rounds t
  | .app a => by rw [checkRanges, checkRanges, checkRangesApp_eq rounds e a]
  | .var ⟨name, lower, upper⟩ => by
      rw [checkRanges, checkRanges, e.checkRange_eq, checkRangesApps_eq rounds e lower,
        checkRangesApps_eq rounds e upper]
theorem checkRangesApp_eq (rounds : Nat) (e : Alike h h') :
    ∀ a : App Ty, h'.checkRangesApp rounds a = h.checkRangesApp rounds a
  | ⟨f, args⟩ => by rw [checkRangesApp, checkRangesApp, checkRangesAll_eq rounds e args]
theorem checkRangesAll_eq (rounds : Nat) (e : Alike h h') :
    ∀ ts : List Ty, h'.checkRangesAll rounds ts = h.checkRangesAll rounds ts
  | [] => by rw [checkRangesAll, checkRangesAll]
  | t :: ts => by
      rw [checkRangesAll, checkRangesAll, checkRanges_eq rounds e t, checkRangesAll_eq rounds e ts]
theorem checkRangesApps_eq (rounds : Nat) (e : Alike h h') :
    ∀ as : List (App Ty), h'.checkRangesApps rounds as = h.checkRangesApps rounds as
  | [] => by rw [checkRangesApps, checkRangesApps]
  | a :: as => by
      rw [checkRangesApps, checkRangesApps, checkRangesApp_eq rounds e a,
        checkRangesApps_eq rounds e as]
end

include e

theorem validate_eq (rounds : Nat) (t : Ty) : h'.validate rounds t = h.validate rounds t := by
  simp only [validate, e.same.normalize_eq, checkRanges_eq rounds e]

/-! ## 3. Nearest common relatives -/

open Nearest

theorem matchSame_eq (rec : Variance → Ty → Ty → Option Match) (relation : Variance)
    (p v : App Ty) : matchSame h' rec relation p v = matchSame h rec relation p v := by
  rw [matchSame, matchSame]
  rcases e.find_cases p.head with ⟨hn, hn'⟩ | ⟨n, n', hn, hn', ha⟩
  · rw [hn, hn']
  · rw [hn, hn']
    simp only [matchArgs, ha.variance_eq]

theorem find_raise_eq (a : App Ty) (name : String) :
    (h'.find? name).bind (h'.raise a ·.id) = (h.find? name).bind (h.raise a ·.id) := by
  rcases e.find_cases name with ⟨hn, hn'⟩ | ⟨n, n', hn, hn', ha⟩
  · rw [hn, hn']
    rfl
  · rw [hn, hn', Option.bind_some, Option.bind_some, e.raise_eq, ha.id_eq]

theorem matchApp_eq (rec : Variance → Ty → Ty → Option Match) (relation : Variance)
    (p v : App Ty) : matchApp h' rec relation p v = matchApp h rec relation p v := by
  cases relation with
  | covariant => simp only [matchApp, e.find_raise_eq, e.matchSame_eq]
  | contravariant => simp only [matchApp, e.find_raise_eq, e.matchSame_eq]
  | invariant => simp only [matchApp, e.matchSame_eq]

theorem constraints_eq : ∀ rounds, constraints h' rounds = constraints h rounds
  | 0 => rfl
  | rounds + 1 => by
      funext relation pattern value
      rw [constraints, constraints, constraints_eq rounds]
      cases pattern with
      | var v => rw [matchWith, matchWith]
      | app p =>
          cases value with
          | var v => rw [matchWith, matchWith]
          | app v => rw [matchWith, matchWith, e.matchApp_eq]

theorem carry_eq (q : Answers) (d : Direction) (a : App Ty) {n n' : Node} (hn : n.Alike n') :
    carry h' q d a n' = carry h q d a n := by
  cases d with
  | up => rw [carry, carry, e.raise_eq, hn.id_eq]
  | down =>
      rw [carry, carry, lowerings, lowerings]
      rcases e.find_cases a.head with ⟨hs, hs'⟩ | ⟨s, s', hs, hs', ha⟩
      · rw [hs, hs']
      · rw [hs, hs']
        simp only [ha.id_eq, hn.ancestors, matchArgs, ha.variance_eq, hn.params_eq, hn.name_eq]

theorem combineVia_eq (q : Answers) (d : Direction) (a b : App Ty) {n n' : Node}
    (hn : n.Alike n') : combineVia h' q d a b n' = combineVia h q d a b n := by
  simp only [combineVia, e.carry_eq q d _ hn, combineArgs, hn.variance_eq, hn.name_eq]

omit e in
theorem mapM_alike {β : Type} {f g : Node → Option β} (hfg : ∀ n n', n.Alike n' → g n' = f n)
    {ns ns' : List Node} (e : List.Forall₂ Node.Alike ns ns') : ns'.mapM g = ns.mapM f := by
  induction e with
  | nil => rfl
  | cons hn _ ih => rw [List.mapM_cons, List.mapM_cons, hfg _ _ hn, ih]

theorem candidates_alike (is : List Nat) :
    List.Forall₂ Node.Alike (is.filterMap (h.nodes[·]?)) (is.filterMap (h'.nodes[·]?)) := by
  induction is with
  | nil => exact .nil
  | cons i is ih =>
      rcases getElem?_alike e.nodes i with ⟨hn, hn'⟩ | ⟨n, n', hn, hn', ha⟩
      · rwa [List.filterMap_cons_none hn, List.filterMap_cons_none hn']
      · rw [List.filterMap_cons_some hn, List.filterMap_cons_some hn']
        exact .cons ha ih

theorem combineApps_eq (tables : Tables) (q : Answers) (d : Direction) (a b : App Ty) :
    combineApps h' tables q d a b = combineApps h tables q d a b := by
  rw [combineApps, combineApps, e.same.idOf?_eq, e.same.idOf?_eq]
  cases h.idOf? a.head with
  | none => rfl
  | some i =>
      cases h.idOf? b.head with
      | none => rfl
      | some j =>
          simp only
          rw [mapM_alike (fun n n' hn => e.combineVia_eq q d a b hn) (e.candidates_alike _)]

theorem combine_eq (tables : Tables) (q : Answers) (d : Direction) (x y : Ty) :
    combine h' tables q d x y = combine h tables q d x y := by
  cases x with
  | app a =>
      cases y with
      | app b => rw [combine, combine, e.combineApps_eq]
      | var w => rw [combine, combine]
  | var v =>
      cases y with
      | app b => rw [combine, combine]
      | var w =>
          rw [combine, combine]
          simp only [combineVars, e.appFulfillsWith_eq]

theorem isNearest_eq (q : Answers) (d : Direction) (results : List Ty) :
    isNearest h' q d results = isNearest h q d results := by
  funext t
  cases t with
  | var v => rw [isNearest, isNearest]
  | app x =>
      rw [isNearest, isNearest]
      simp only [strictlyBeyond, strictlyFulfills, e.appFulfillsWith_eq]

theorem takeIn_eq (tables : Tables) (q : Answers) (d : Direction) :
    takeIn h' tables q d = takeIn h tables q d := by
  funext results operand
  simp only [takeIn, keepNearest, e.combine_eq, e.isNearest_eq]

/-- **Nearest common relatives are the same, round by round.** -/
theorem common_eq (tables : Tables) : ∀ rounds, common h' tables rounds = common h tables rounds
  | 0 => rfl
  | rounds + 1 => by
      funext d operands
      rw [common, common, common_eq tables rounds, e.fulfills_eq, e.constraints_eq]
      cases operands with
      | nil => rw [commonWith, commonWith]
      | cons first operands => rw [commonWith, commonWith, e.takeIn_eq]

/-! ## 4. Questions -/

theorem isCompatible_eq (rounds : Nat) (t : Ty) :
    h'.isCompatible rounds t = h.isCompatible rounds t := by
  rw [isCompatible, isCompatible, e.validate_eq]

theorem typeFulfills_eq (rounds : Nat) (provided expected : Ty) :
    h'.typeFulfills rounds provided expected = h.typeFulfills rounds provided expected := by
  rw [typeFulfills, typeFulfills, e.validate_eq, e.validate_eq, e.fulfills_eq]

theorem nearestCommon_eq (rounds : Nat) (d : Direction) (operands : List Ty) :
    h'.nearestCommon rounds d operands = h.nearestCommon rounds d operands := by
  have hop : h'.operand rounds d = h.operand rounds d := by
    funext t
    cases d with
    | up => rw [operand, operand, e.same.normalize_eq]
    | down => rw [operand, operand, e.validate_eq]
  rw [nearestCommon, nearestCommon, e.tables, hop]
  simp only [e.common_eq]

end Alike

/-! ## 5. The order of parents -/

section Order

variable (hs : Sound h) (hs' : Sound h') (same : SameTypes h h')
  (hrec : ∀ d a, h'.record? d a = h.record? d a)
include hrec

theorem hasAncestor_congr {d a : Nat} : h'.HasAncestor d a ↔ h.HasAncestor d a := by
  rw [hasAncestor_iff, hasAncestor_iff, hrec]

include hs hs'

theorem hasDescendant_congr {d a : Nat} : h'.HasDescendant a d ↔ h.HasDescendant a d := by
  rw [← hs.ancestor_descendant, ← hs'.ancestor_descendant, hasAncestor_congr hrec]

include same

/-- Hierarchies with the same types and the same records have alike nodes. -/
theorem nodes_alike : List.Forall₂ Node.Alike h.nodes h'.nodes := by
  refine List.forall₂_iff_get.2 ⟨same.size_eq.symm, fun i hi hi' => ?_⟩
  have hn := List.getElem?_eq_getElem hi
  have hn' := List.getElem?_eq_getElem hi'
  obtain ⟨m, hm, hb⟩ := same.node hn
  rw [hn'] at hm
  cases hm
  refine ⟨hb, fun a => ?_, fun d => ?_⟩
  · have := hrec i a
    rwa [record?, record?, hn, hn'] at this
  · have := hasDescendant_congr hs hs' hrec (d := d) (a := i)
    rwa [HasDescendant, HasDescendant, exists_node_iff hn, exists_node_iff hn'] at this

theorem build_alike : Nearest.Tables.build h'.nodes = Nearest.Tables.build h.nodes := by
  have hreach {d : Direction} {x y : Nat} : h'.Reaches d x y ↔ h.Reaches d x y := by
    cases d with
    | up => exact hasAncestor_congr hrec
    | down => exact hasDescendant_congr hs hs' hrec
  rw [Nearest.Tables.build, Nearest.Tables.build, build_congr hs hs' same.size_eq hreach,
    build_congr hs hs' same.size_eq hreach]

/-- **Once finalized, such hierarchies are alike.** -/
theorem finalize_alike (hopen : h.tables = none) (hopen' : h'.tables = none) :
    Alike h.finalize h'.finalize := by
  refine ⟨?_, ?_⟩
  · rw [nodes_finalize, nodes_finalize]
    exact nodes_alike hs hs' same hrec
  · have hfin {k : Hierarchy} (hk : k.tables = none) :
        k.finalize.tables = some (Nearest.Tables.build k.nodes) := by
      simp [finalize, isFinalized, hk]
    rw [hfin hopen, hfin hopen', build_alike hs hs' same hrec]

end Order

/-- The hierarchy after declaring the types one after the other, if all are accepted. -/
def declareAll (types : List (String × List Param)) : Except Error Hierarchy :=
  types.foldlM (fun h t => h.declare t.1 t.2) empty

theorem reachable_of_declareAll {types : List (String × List Param)}
    (e : declareAll types = .ok h) : Reachable h ∧ h.tables = none := by
  have step : ∀ {types : List (String × List Param)} {k : Hierarchy},
      types.foldlM (fun h t => h.declare t.1 t.2) k = .ok h → Reachable k ∧ k.tables = none →
        Reachable h ∧ h.tables = none := by
    intro types
    induction types with
    | nil =>
        rintro k e hk
        cases e
        exact hk
    | cons t types ih =>
        rintro k e ⟨hr, -⟩
        rw [List.foldlM_cons] at e
        obtain ⟨k', ek, e⟩ := bind_eq_ok.1 e
        refine ih e ⟨hr.declare ek, ?_⟩
        obtain ⟨-, -, -, rfl⟩ := declare_eq_ok ek
        rfl
  exact step e ⟨⟨[], rfl⟩, rfl⟩

/-- Declared types make an open hierarchy, without nameless parameters if none was declared. -/
theorem declared {types : List (String × List Param)} (e : declareAll types = .ok h)
    (hnames : ∀ t ∈ types, ∀ p ∈ t.2, p.name ≠ "") :
    Reachable h ∧ Named h ∧ h.tables = none := by
  have step : ∀ {types : List (String × List Param)} {k : Hierarchy},
      types.foldlM (fun h t => h.declare t.1 t.2) k = .ok h →
      (∀ t ∈ types, ∀ p ∈ t.2, p.name ≠ "") → Named k → Named h := by
    intro types
    induction types with
    | nil =>
        rintro k e - hk
        cases e
        exact hk
    | cons t types ih =>
        rintro k e hnames hn
        rw [List.foldlM_cons] at e
        obtain ⟨k', ek, e⟩ := bind_eq_ok.1 e
        rw [List.forall_mem_cons] at hnames
        refine ih e hnames.2 ?_
        obtain ⟨-, -, -, rfl⟩ := declare_eq_ok ek
        intro n hm
        rcases List.mem_append.1 hm with hm | hm
        · exact hn n hm
        · rw [List.mem_singleton.1 hm, Node.paramIndex?, List.findIdx?_eq_none_iff]
          exact fun p hp => by simpa using hnames.1 p hp
  obtain ⟨hr, hopen⟩ := reachable_of_declareAll e
  exact ⟨hr, step e hnames (by simp [Named, empty]), hopen⟩

/-- The types of a hierarchy as they were declared. -/
def types (h : Hierarchy) : List (String × List Param) := h.nodes.map fun n => (n.name, n.params)

/-- The hierarchy that has the types alone. -/
def typesOnly (h : Hierarchy) : Hierarchy := ⟨h.nodes.map Node.bare, none⟩

/-- **The types of a hierarchy can be declared again.** -/
theorem declareAll_types (hs : Sound h) : declareAll h.types = .ok h.typesOnly := by
  -- the types in front are declared already
  have step : ∀ {rest : List Node} (front : List Node), h.nodes = front ++ rest →
      (rest.map fun n => (n.name, n.params)).foldlM (fun h t => h.declare t.1 t.2)
        (⟨front.map Node.bare, none⟩ : Hierarchy) = .ok h.typesOnly := by
    intro rest
    induction rest with
    | nil =>
        intro front e
        rw [typesOnly, e, List.append_nil]
        rfl
    | cons n rest ih =>
        intro front e
        have hn : h.nodes[front.length]? = some n := by rw [e]; simp
        have hname : (⟨front.map Node.bare, none⟩ : Hierarchy).find? n.name = none := by
          have hnodup := hs.names_nodup
          rw [e, List.map_append, List.map_cons] at hnodup
          have hnew := (List.nodup_append.1 hnodup).2.2
          refine List.find?_eq_none.2 fun b hb => ?_
          obtain ⟨m, hm, rfl⟩ := List.mem_map.1 hb
          simpa [Node.bare, Node.new] using hnew m.name (List.mem_map_of_mem hm) n.name
            List.mem_cons_self
        have hparams := hs.params_nodup (List.mem_of_getElem? hn)
        have hnew : (⟨front.map Node.bare, none⟩ : Hierarchy).extended n.name n.params =
            ⟨(front ++ [n]).map Node.bare, none⟩ := by
          rw [extended, List.map_append, List.map_singleton, List.length_map, Node.bare,
            hs.id_eq hn]
        rw [List.map_cons, List.foldlM_cons]
        refine bind_eq_ok.2 ⟨_, declare_of_new rfl hname hparams, ?_⟩
        rw [hnew]
        exact ih _ (by rw [e, List.append_assoc]; rfl)
  exact step [] rfl

theorem sound_typesOnly (hs : Sound h) : Sound h.typesOnly :=
  sound_of_reachable (reachable_of_declareAll (declareAll_types hs)).1

theorem sameTypes_typesOnly : SameTypes h h.typesOnly := by
  rw [SameTypes, typesOnly, List.map_map]
  rfl

theorem not_hasParent_typesOnly {c p : Nat} : ¬ h.typesOnly.HasParent c p := by
  rintro ⟨n, hn, hp⟩
  rw [typesOnly, List.getElem?_map] at hn
  obtain ⟨m, -, rfl⟩ := Option.map_eq_some_iff.1 hn
  cases hp

/-- **The order of parents does not matter.** Requests for parents that are all accepted in one
    order are all accepted in every other order. The hierarchies agree on who is a parent, child,
    ancestor and descendant of whom and on all records; finalized, they have the same tables and
    answer every question alike, within the same rounds. -/
theorem order_independent {types : List (String × List Param)} {links links' : List (String × Ty)}
    {h₀ : Hierarchy} (htypes : declareAll types = .ok h₀)
    (hnames : ∀ t ∈ types, ∀ p ∈ t.2, p.name ≠ "") (hlinks : h₀.addParents links = .ok h)
    (hperm : links'.Perm links) :
    ∃ h', h₀.addParents links' = .ok h' ∧
      (∀ d a, (h'.HasParent d a ↔ h.HasParent d a) ∧ (h'.HasChild d a ↔ h.HasChild d a) ∧
        (h'.HasAncestor d a ↔ h.HasAncestor d a) ∧ (h'.HasDescendant d a ↔ h.HasDescendant d a) ∧
        h'.record? d a = h.record? d a) ∧
      h'.finalize.tables = h.finalize.tables ∧
      ∀ rounds,
        (∀ t, h'.finalize.isCompatible rounds t = h.finalize.isCompatible rounds t) ∧
        (∀ s t, h'.finalize.typeFulfills rounds s t = h.finalize.typeFulfills rounds s t) ∧
        ∀ d operands, h'.finalize.nearestCommon rounds d operands =
          h.finalize.nearestCommon rounds d operands := by
  obtain ⟨hr, hn, hopen⟩ := declared htypes hnames
  have g₀ := regular_of_reachable hr hn
  obtain ⟨h', e, g, g', same, hpar, hrec⟩ := g₀.addParents_perm hlinks hperm
  have hs := g.sound
  have hs' := g'.sound
  have alike : Alike h.finalize h'.finalize :=
    finalize_alike hs hs' same hrec ((g₀.accepted_all hlinks).2.2.1.trans hopen)
      ((g₀.accepted_all e).2.2.1.trans hopen)
  refine ⟨h', e, fun d a => ⟨hpar d a, ?_, hasAncestor_congr hrec, hasDescendant_congr hs hs' hrec,
    hrec d a⟩, alike.tables, fun rounds => ⟨alike.isCompatible_eq rounds,
    alike.typeFulfills_eq rounds, alike.nearestCommon_eq rounds⟩⟩
  rw [← hs.parent_child, ← hs'.parent_child, hpar]

/-- A box, a bin and a crate. -/
def containers : List (String × List Param) :=
  [("int", []), ("box", [⟨"t", .covariant⟩]), ("bin", [⟨"s", .covariant⟩]), ("crate", [])]

/-- A crate is some box at first, and a box of `int` once it is a bin. -/
def refining : List (String × Ty) :=
  [("crate", .app ⟨"box", []⟩), ("bin", .app ⟨"box", [.var (.free "s")]⟩),
    ("crate", .app ⟨"bin", [.app ⟨"int", []⟩]⟩)]

/-- The crate comes out as a box of `int` in the opposite order as well. -/
theorem refining_reversed : ∃ h₀ h h', declareAll containers = .ok h₀ ∧
    (∀ t ∈ containers, ∀ p ∈ t.2, p.name ≠ "") ∧ h₀.addParents refining = .ok h ∧
    refining.reverse.Perm refining ∧ h₀.addParents refining.reverse = .ok h' ∧
    h'.record? 3 1 = h.record? 3 1 ∧ h.record? 3 1 = some ⟨"box", [.app ⟨"int", []⟩]⟩ := by
  let h₀ := (declareAll containers).toOption.getD empty
  let h := (h₀.addParents refining).toOption.getD empty
  have htypes : declareAll containers = .ok h₀ := rfl
  have hlinks : h₀.addParents refining = .ok h := rfl
  have hnames : ∀ t ∈ containers, ∀ p ∈ t.2, p.name ≠ "" := by decide
  obtain ⟨h', e, hagree, -⟩ := order_independent htypes hnames hlinks refining.reverse_perm
  exact ⟨h₀, h, h', htypes, hnames, hlinks, refining.reverse_perm, e, (hagree 3 1).2.2.2.2,
    by decide⟩

end Hierarchy

end Lineage

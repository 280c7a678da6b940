import Lineage.Proofs.Search

/-!
# Nearest common relatives are common bounds

Every answer to the question for common ancestors lies above all operands, and every answer to the
question for common descendants below them. `_` in an answer stands for whatever is put in.

This asks of the hierarchy that matching never mixes constraints on a parameter (`Unmixed`), or
that every record mentions all parameters (`Determined`). Otherwise the search may leave `_` at a
place that it has tested for one filling, and put in another one (`spans`).
-/

namespace Lineage

open Nearest Relation

namespace Hierarchy

variable {h : Hierarchy} {V : Var Ty → Prop}

/-! ## 1. Hierarchies that can be searched -/

/-- Where constraints do not mix, the search may leave things open. -/
theorem Lawful.searchable_of_unmixed (L : Lawful h) (hu : h.Unmixed) :
    Searchable h fun v => (Ty.var v).isWildcard = true where
  lawful := L
  wild := fun _ hv => hv
  solvable := fun {rounds source target record a cs} hs ht hr ha e p _ => by
    refine ⟨Or.inl rfl, Or.inr fun c hc c' hc' hfree hfree' => ?_⟩
    obtain ⟨hc, hname⟩ := List.mem_filter.1 hc
    obtain ⟨hc', hname'⟩ := List.mem_filter.1 hc'
    have hsource := find?_name hs
    refine hu rounds source target record a.args cs (hsource ▸ hs) ht hr (hsource ▸ ha) e
      c hc c' hc' ?_ hfree hfree'
    rw [of_decide_eq_true hname, of_decide_eq_true hname']

/-- Where every record mentions all parameters, the search leaves nothing open. -/
theorem Lawful.searchable_of_determined (L : Lawful h) (hd : h.Determined) :
    Searchable h fun _ => False where
  lawful := L
  wild := nofun
  solvable := fun {rounds source target record a cs} hs ht hr ha e p hp => by
    refine ⟨Or.inr ?_, Or.inl fun _ hv => hv⟩
    have hmatch := L.sound.matchedArgs_of_matchArgs e
    have hvalues := (L.raiseClosed _).matchedArgs_values hmatch (over_app_iff.1 ha).2
    have hpat := L.pattern ht hr
    obtain ⟨w, hw, hname⟩ := List.mem_map.1 (hd target ht _ (L.sound.mem_entries ht hr) p hp)
    obtain ⟨x, hx, hw⟩ := App.mem_vars.1 hw
    obtain ⟨i, hi⟩ := List.mem_iff_getElem?.1 hx
    have hlt : i < a.args.length := by
      obtain ⟨m, hm, hfind⟩ := L.sound.find_record ht hr
      rw [L.sound.node_of_find hs] at hm
      cases hm
      have hl := hpat.length hfind
      have hla := ha.length hs
      have hi' : i < record.args.length := (List.getElem?_eq_some_iff.1 hi).1
      omega
    have hy := List.getElem?_eq_getElem hlt
    obtain ⟨found, hall, hgather⟩ := hmatch
    obtain ⟨c, hc, hparam⟩ :=
      L.exists_constraint hd ht (hall i x _ hi hy) (hpat.arg hi) (ha.arg hy) hw
    have hmem := (hgather c).2 ⟨i, x, _, hi, hy, hc⟩
    refine ⟨c, List.mem_filter.2 ⟨hmem, by simp [hparam, hname]⟩, ?_⟩
    obtain ⟨b, hb⟩ := Ground.app (hvalues c hmem)
    rw [hb]
    rfl

theorem Lawful.searchable (L : Lawful h) (hc : h.Unmixed ∨ h.Determined) :
    ∃ V, Searchable h V := by
  rcases hc with hu | hd
  · exact ⟨_, L.searchable_of_unmixed hu⟩
  · exact ⟨_, L.searchable_of_determined hd⟩

/-! ## 2. Questions -/

section Questions

variable {rounds : Nat} {d : Direction}

theorem operand_of_sketch {t : Ty} (ht : h.Sketch t) : h.operand rounds d t = pure t := by
  cases d with
  | up =>
      rw [operand, normalize_of_isNormal ht.normal]
      rfl
  | down => exact validate_of_sketch ht

/-- Operands that leave nothing open but `_` are looked at as they are. -/
theorem nearestCommon_eq_ok {operands results : List Ty} (ho : ∀ o ∈ operands, h.Sketch o) :
    (h.nearestCommon rounds d operands).run = some (.ok results) ↔ ∃ tables,
      h.tables = some tables ∧ Nearest.common h tables rounds d operands = some results := by
  have hops : operands.mapM (h.operand rounds d) = pure operands := by
    induction operands with
    | nil => rfl
    | cons o operands ih =>
        rw [List.forall_mem_cons] at ho
        rw [List.mapM_cons, operand_of_sketch ho.1, ih ho.2, pure_bind, pure_bind]
  rw [nearestCommon_run_eq_ok, hops]
  constructor
  · rintro ⟨tables, operands', htab, e, hfound⟩
    cases e
    exact ⟨tables, htab, hfound⟩
  · rintro ⟨tables, htab, hfound⟩
    exact ⟨tables, operands, htab, rfl, hfound⟩

end Questions

/-- What the search gives lies on the side of the direction, from some round on. -/
theorem Searchable.agreeAt_results (S : Searchable h V) {rounds : Nat} {d : Direction}
    {operands results : List Ty} (ho : ∀ o ∈ operands, h.Ground o)
    (e : (h.nearestCommon rounds d operands).run = some (.ok results)) :
    ∀ r ∈ results, h.Sketch r ∧ ∀ o ∈ operands,
      ∀ᶠ m in Filter.atTop, agreeAt (h.fulfills m) d.sense r o = some true := by
  intro r hr
  obtain ⟨tables, -, hfound⟩ := (nearestCommon_eq_ok fun o hm => (ho o hm).toOver).1 e
  obtain ⟨hover, hnar⟩ := S.common_narrows rounds (fun o hm => (ho o hm).toOver) hfound r hr
  refine ⟨S.sketch hover, fun o hm => ?_⟩
  -- an operand is related to itself, so what narrows it is related to it
  exact fulfills_of_related ((hnar o hm).related o (S.lawful.related_refl (ho o hm)))

/-- **Nearest common relatives are common bounds.** Take a hierarchy without nameless parameters,
    given without `_` in its parents and with all parameters at places of their variances, in which
    constraints do not mix or every record mentions all parameters. Then every ground operand
    fulfills each of the common ancestors found, and is fulfilled by each of the common
    descendants. -/
theorem nearestCommon_bounds (hr : Reachable h) (hn : Named h) (hp : h.PlainParents)
    (hv : h.VarianceConsistent) (hc : h.Unmixed ∨ h.Determined) {rounds : Nat}
    {operands results : List Ty} (ho : ∀ o ∈ operands, h.isGround o = true) :
    ((h.nearestCommon rounds .up operands).run = some (.ok results) →
      ∀ r ∈ results, ∀ o ∈ operands, ∃ k, ∀ m ≥ k, h.typeFulfills m o r = some true) ∧
    ((h.nearestCommon rounds .down operands).run = some (.ok results) →
      ∀ r ∈ results, ∀ o ∈ operands, ∃ k, ∀ m ≥ k, h.typeFulfills m r o = some true) := by
  have L := (regular_of_reachable hr hn).lawful hp hv
  obtain ⟨V, S⟩ := L.searchable hc
  have hground : ∀ o ∈ operands, h.Ground o := fun o hm => isGround_iff.1 (ho o hm)
  constructor
  · intro e r hr o hm
    obtain ⟨hsketch, hall⟩ := S.agreeAt_results hground e r hr
    obtain ⟨k, hk⟩ := Filter.eventually_atTop.1 (hall o hm)
    refine ⟨k, fun m hle => ?_⟩
    rw [typeFulfills_of_sketch (hground o hm).toOver hsketch]
    exact hk m hle
  · intro e r hr o hm
    obtain ⟨hsketch, hall⟩ := S.agreeAt_results hground e r hr
    obtain ⟨k, hk⟩ := Filter.eventually_atTop.1 (hall o hm)
    refine ⟨k, fun m hle => ?_⟩
    rw [typeFulfills_of_sketch hsketch (hground o hm).toOver]
    exact hk m hle

/-! ## 3. Channels -/

/-- A type without arguments. -/
def bareType (name : String) : Ty := .app ⟨name, []⟩

/-- Cells and ports are sources and sinks of one type; the label of a cell shows in neither. -/
def channels : Hierarchy := [
  .declare "number" [],
  .declare "int" [],
  .declare "source" [⟨"t", .covariant⟩],
  .declare "sink" [⟨"t", .contravariant⟩],
  .declare "cell" [⟨"t", .invariant⟩, ⟨"label", .invariant⟩],
  .declare "port" [⟨"t", .invariant⟩],
  .addParent "int" (bareType "number"),
  .addParent "cell" (.app ⟨"source", [.var (.free "t")]⟩),
  .addParent "cell" (.app ⟨"sink", [.var (.free "t")]⟩),
  .addParent "port" (.app ⟨"source", [.var (.free "t")]⟩),
  .addParent "port" (.app ⟨"sink", [.var (.free "t")]⟩),
  .finalize].foldl perform empty

/-- A cell of `int` and a port of `number`. -/
def fixtures : List Ty :=
  [.app ⟨"cell", [bareType "int", bareType "int"]⟩, .app ⟨"port", [bareType "number"]⟩]

/-- A source and a sink of `int`. -/
def ends : List Ty := [.app ⟨"source", [bareType "int"]⟩, .app ⟨"sink", [bareType "int"]⟩]

/-- The fixtures are sources of `number` and sinks of `int`. Both ends are in a cell, whose label
    stays open, and in a port. -/
theorem channels_bounded :
    (channels.nearestCommon 9 .up fixtures).run =
      some (.ok [.app ⟨"source", [bareType "number"]⟩, .app ⟨"sink", [bareType "int"]⟩]) ∧
    (∀ o ∈ fixtures, ∃ k, ∀ m ≥ k,
      channels.typeFulfills m o (.app ⟨"sink", [bareType "int"]⟩) = some true) ∧
    (channels.nearestCommon 9 .down ends).run =
      some (.ok [.app ⟨"cell", [bareType "int", .anonymous]⟩, .app ⟨"port", [bareType "int"]⟩]) ∧
    ∀ o ∈ ends, ∃ k, ∀ m ≥ k,
      channels.typeFulfills m (.app ⟨"cell", [bareType "int", .anonymous]⟩) o = some true := by
  have hr : Reachable channels := ⟨_, rfl⟩
  have hn : Named channels := by decide
  have hp : channels.PlainParents := by decide
  have hv : channels.VarianceConsistent := by decide
  have hl : channels.Linear := by decide
  have hu := ((regular_of_reachable hr hn).lawful hp hv).unmixed_of_linear hl
  have hup : (channels.nearestCommon 9 .up fixtures).run =
    some (.ok [.app ⟨"source", [bareType "number"]⟩, .app ⟨"sink", [bareType "int"]⟩]) := rfl
  have hdown : (channels.nearestCommon 9 .down ends).run = some (.ok
    [.app ⟨"cell", [bareType "int", .anonymous]⟩, .app ⟨"port", [bareType "int"]⟩]) := rfl
  refine ⟨hup, ?_, hdown, ?_⟩
  · exact (nearestCommon_bounds hr hn hp hv (Or.inl hu) (by decide)).1 hup _ (by decide)
  · exact (nearestCommon_bounds hr hn hp hv (Or.inl hu) (by decide)).2 hdown _ (by decide)

/-! ## 4. Mixed constraints on what stays open -/

end Hierarchy

mutual
/-- The names of the types that an instance is built from. -/
def Ty.names : Ty → List String
  | .app a => a.names
  | .var _ => []
/-- `Ty.names` of an application. -/
def App.names : App Ty → List String
  | ⟨head, args⟩ => head :: Ty.namesAll args
/-- `Ty.names` of the instances of a list. -/
def Ty.namesAll : List Ty → List String
  | [] => []
  | t :: ts => t.names ++ Ty.namesAll ts
end

namespace Hierarchy

/-- A type mentions the names in the arguments of its records. -/
def Mentions (h : Hierarchy) (name other : String) : Prop :=
  ∃ n ∈ h.nodes, n.name = name ∧ ∃ e ∈ n.ancestors.entries, ∃ t ∈ e.2.args, other ∈ t.names

/-- No type mentions itself, directly or through others. -/
def ArgumentAcyclic (h : Hierarchy) : Prop := ∀ name, ¬ TransGen h.Mentions name name

/-- A hierarchy whose records have nothing but variables as arguments. -/
theorem argumentAcyclic_of_flat {h : Hierarchy}
    (hf : ∀ n ∈ h.nodes, ∀ e ∈ n.ancestors.entries, ∀ t ∈ e.2.args, t.names = []) :
    h.ArgumentAcyclic := by
  intro name hcycle
  obtain ⟨other, hmention, -⟩ := TransGen.head'_iff.1 hcycle
  obtain ⟨n, hn, -, e, he, t, ht, hmem⟩ := hmention
  rw [hf n hn e he t ht] at hmem
  cases hmem

/-- A cell stands in its record of `span` three times, once on the other side. -/
def spans : Hierarchy := [
  .declare "int" [],
  .declare "bool" [],
  .declare "left" [],
  .declare "right" [],
  .declare "both" [⟨"s", .invariant⟩],
  .declare "span" [⟨"a", .covariant⟩, ⟨"b", .covariant⟩, ⟨"c", .contravariant⟩],
  .declare "cell" [⟨"t", .invariant⟩],
  .addParent "both" (bareType "left"),
  .addParent "both" (bareType "right"),
  .addParent "cell" (.app ⟨"span", [.var (.free "t"), .var (.free "t"), .var (.free "t")]⟩),
  .finalize].foldl perform empty

/-- Something that holds a `both` of `int`. -/
def intSpan : Ty :=
  .app ⟨"span", [bareType "left", bareType "right", .app ⟨"both", [bareType "int"]⟩]⟩

/-- A cell of a `both` of `bool`. -/
def boolCell : Ty := .app ⟨"cell", [.app ⟨"both", [bareType "bool"]⟩]⟩

/-- **Without the last condition an answer need not be a bound.** The cells below `intSpan` hold
    something below `left` and `right` and above `both[int]`; that is `both[_]`, because `both[int]`
    fulfills it. Nothing remembers that `int` is what has to be filled in, so combined with
    `boolCell` it is `bool`. -/
theorem spans_unbounded : Reachable spans ∧ Named spans ∧ spans.PlainParents ∧
    spans.VarianceConsistent ∧ spans.ArgumentAcyclic ∧
    (∀ o ∈ [intSpan, boolCell], spans.isGround o = true) ∧
    (spans.nearestCommon 9 .down [intSpan, boolCell]).run = some (.ok [boolCell]) ∧
    ∀ m, spans.typeFulfills m boolCell intSpan ≠ some true := by
  refine ⟨⟨_, rfl⟩, by decide, by decide, by decide, argumentAcyclic_of_flat (by decide),
    by decide, rfl, fun m => ?_⟩
  -- two rounds are too few, and from then on the answer is no
  match m with
  | 0 => exact nofun
  | 1 => exact nofun
  | m + 2 =>
      have hno : spans.typeFulfills (m + 2) boolCell intSpan = some false := rfl
      rw [hno]
      exact nofun

end Hierarchy

end Lineage

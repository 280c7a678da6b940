import Lineage.Proofs.Narrowing

/-!
# Subtyping orders the ground instances

In a lawful hierarchy the rules of subtyping and the rounds of `fulfills` say the same about ground
instances (`Lawful.related_iff`), and what they say is transitive at every variance
(`Lawful.related_trans`).

An instance may be raised to another record in each of two questions, and to a third one in the
question about the ends. No measure on the instances decreases along these steps, so the proof does
not go by their size. What fulfills an instance narrows it, and narrowings compose.
-/

namespace Lineage.Hierarchy

variable {h : Hierarchy} {v : Variance} {x y z : Ty}

/-- **Ground instances are related if and only if they agree in some number of rounds.** -/
theorem Lawful.related_iff (L : Lawful h) (hx : h.Ground x) (hy : h.Ground y) :
    h.Related v x y ↔ ∃ rounds, agreeAt (h.fulfills rounds) v x y = some true := by
  constructor
  · intro hr
    exact (fulfills_of_related hr).exists
  · intro he
    obtain ⟨rounds, e⟩ := he
    have hnar : h.Narrows v y x := L.narrows_of_agreeAt hx hy.toOver e
    exact hnar.related y (L.related_refl hy)

/-- **Relations of ground instances are transitive.** -/
theorem Lawful.related_trans (L : Lawful h) (hx : h.Ground x) (hy : h.Ground y)
    (hxy : h.Related v x y) (hyz : h.Related v y z) : h.Related v x z := by
  obtain ⟨rounds, e⟩ := (L.related_iff hx hy).1 hxy
  have hnar : h.Narrows v y x := L.narrows_of_agreeAt hx hy.toOver e
  exact hnar.related z hyz

/-- **Subtyping is transitive on ground instances.** Take a hierarchy without nameless parameters,
    given without `_` in its parents and with all parameters at places of their variances. If one
    ground instance fulfills a second one and that one a third one, each in some number of rounds,
    then from some number of rounds on the first one fulfills the third one. So the question comes
    to an end, whether or not all questions do. -/
theorem typeFulfills_trans (hr : Reachable h) (hn : Named h) (hp : h.PlainParents)
    (hv : h.VarianceConsistent) {a b c : Ty} (ha : h.isGround a = true) (hb : h.isGround b = true)
    (hc : h.isGround c = true) {k l : Nat} (hab : h.typeFulfills k a b = some true)
    (hbc : h.typeFulfills l b c = some true) :
    ∃ m₀, ∀ m ≥ m₀, h.typeFulfills m a c = some true := by
  have L := (regular_of_reachable hr hn).lawful hp hv
  have ga := isGround_iff.1 ha
  have gb := isGround_iff.1 hb
  have gc := isGround_iff.1 hc
  rw [typeFulfills_of_sketch ga.toOver gb.toOver] at hab
  rw [typeFulfills_of_sketch gb.toOver gc.toOver] at hbc
  have rab : h.Related .covariant a b := (L.related_iff ga gb).2 ⟨k, hab⟩
  have rbc : h.Related .covariant b c := (L.related_iff gb gc).2 ⟨l, hbc⟩
  have rac : h.Related .covariant a c := L.related_trans ga gb rab rbc
  obtain ⟨m₀, hm₀⟩ := Filter.eventually_atTop.1 (fulfills_of_related rac)
  refine ⟨m₀, fun m hm => ?_⟩
  rw [typeFulfills_of_sketch ga.toOver gc.toOver]
  exact hm₀ m hm

/-- A logger takes in numbers. A relay is a source of sinks. -/
def relays : Hierarchy := [
  .declare "number" [],
  .declare "int" [],
  .declare "source" [⟨"t", .covariant⟩],
  .declare "sink" [⟨"t", .contravariant⟩],
  .declare "logger" [],
  .declare "relay" [⟨"t", .contravariant⟩],
  .addParent "int" (.app ⟨"number", []⟩),
  .addParent "logger" (.app ⟨"sink", [.app ⟨"number", []⟩]⟩),
  .addParent "relay" (.app ⟨"source", [.app ⟨"sink", [.var (.free "t")]⟩]⟩)].foldl perform empty

/-- A relay of sinks of `int` is a source of sinks for whatever takes in numbers, and a logger takes
    in numbers. -/
theorem relays_trans : Reachable relays ∧ Named relays ∧ relays.PlainParents ∧
    relays.VarianceConsistent ∧
    relays.typeFulfills 4 (.app ⟨"relay", [.app ⟨"sink", [.app ⟨"int", []⟩]⟩]⟩)
      (.app ⟨"source", [.app ⟨"sink", [.app ⟨"sink", [.app ⟨"number", []⟩]⟩]⟩]⟩) = some true ∧
    relays.typeFulfills 4
      (.app ⟨"source", [.app ⟨"sink", [.app ⟨"sink", [.app ⟨"number", []⟩]⟩]⟩]⟩)
      (.app ⟨"source", [.app ⟨"sink", [.app ⟨"logger", []⟩]⟩]⟩) = some true ∧
    ∃ m₀, ∀ m ≥ m₀, relays.typeFulfills m (.app ⟨"relay", [.app ⟨"sink", [.app ⟨"int", []⟩]⟩]⟩)
      (.app ⟨"source", [.app ⟨"sink", [.app ⟨"logger", []⟩]⟩]⟩) = some true := by
  have hr : Reachable relays := ⟨_, rfl⟩
  have hn : Named relays := by decide
  have hp : relays.PlainParents := by decide
  have hv : relays.VarianceConsistent := by decide
  have hab : relays.typeFulfills 4 (.app ⟨"relay", [.app ⟨"sink", [.app ⟨"int", []⟩]⟩]⟩)
    (.app ⟨"source", [.app ⟨"sink", [.app ⟨"sink", [.app ⟨"number", []⟩]⟩]⟩]⟩) = some true := rfl
  have hbc : relays.typeFulfills 4
    (.app ⟨"source", [.app ⟨"sink", [.app ⟨"sink", [.app ⟨"number", []⟩]⟩]⟩]⟩)
    (.app ⟨"source", [.app ⟨"sink", [.app ⟨"logger", []⟩]⟩]⟩) = some true := rfl
  exact ⟨hr, hn, hp, hv, hab, hbc,
    typeFulfills_trans hr hn hp hv (by decide) (by decide) (by decide) hab hbc⟩

end Lineage.Hierarchy

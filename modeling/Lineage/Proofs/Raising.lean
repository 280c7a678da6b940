import Lineage.Proofs.Subtyping

/-!
# Raising in steps

A type has one record of each ancestor, however many ways lead there. The records along a way, put
together, give the direct record up to `_`: where they leave something open, the direct record may
know more from another way.

Calls whose parents leave nothing open (`plainRun`) lead to records that leave nothing open, and
then all ways agree: an instance is raised in two steps to what it is raised to at once.
-/

namespace Lineage

/-- A record comes out of a join unchanged if the other one says nothing more. -/
theorem App.refine_eq_right {x z : App Ty} (hc : x.Covers z) : x.refine z = some z := by
  have hsome := App.refine_isSome hc (App.covers_refl z)
  obtain ⟨c, e⟩ := Option.isSome_iff_exists.1 hsome
  have hzc : z.Covers c := (App.covers_refine e).2
  have hcz : c.Covers z := App.refine_covers e hc (App.covers_refl z)
  rw [e, hcz.antisymm hzc]

/-- Records that are the same join to themselves. -/
theorem Hierarchy.joined_same {old : Option (App Ty)} {r : App Ty}
    (ho : ∀ x, old = some x → x = r) : Joined old r r := by
  cases old with
  | none => rfl
  | some x =>
      rw [ho x rfl]
      exact App.refine_eq_right (App.covers_refl r)

/-- Whether a call gives no parent that has `_` in it once abbreviations are written out. -/
def Call.isPlain (h : Hierarchy) : Call → Bool
  | .addParent _ parent =>
      match h.normalize parent with
      | .ok t => t.vars.all (!·.isAnonymous)
      | .error _ => true
  | _ => true

namespace Hierarchy

variable {h h' : Hierarchy}

/-! ## 1. Calls that leave nothing open -/

/-- Whether each of the calls is plain at the time it is made. -/
def plainRun (h : Hierarchy) : List Call → Bool
  | [] => true
  | call :: calls => call.isPlain h && (h.perform call).plainRun calls

/-- A plain request is recorded as it was given, whatever was known before. -/
theorem Resolves.eq_of_joined {c : String} {t : Ty} {n p : Node} {r r' : App Ty}
    {old : Option (App Ty)} (hr : h.Resolves c t n p r) (hj : Joined old r r')
    (hplain : (Call.addParent c t).isPlain h = true) :
    r' = r ∧ ∀ v ∈ r.vars, v.isAnonymous = false := by
  obtain ⟨link, rfl, e⟩ := hr.link_eq
  have hnorm : h.normalize (.app link) = .ok (.app r) := by
    rw [normalize, e]
    rfl
  have hvars : ∀ v ∈ r.vars, v.isAnonymous = false := by
    rw [Call.isPlain, hnorm] at hplain
    intro v hv
    have hall := List.all_eq_true.1 hplain v (by rw [Ty.vars_app]; exact hv)
    simpa using hall
  exact ⟨(App.Definite.eq_of_covers hvars hj.incoming_covers).symm, hvars⟩

/-- The parents stay plain if the new one is. -/
theorem PlainParents.extend (hp : h.PlainParents) (hs : Sound h) (hs' : Sound h')
    {child parent : Node} {record : App Ty} (ex : Extension h h' child parent record)
    (hr : ∀ v ∈ record.vars, v.isAnonymous = false) : h'.PlainParents := by
  intro m hm entry he
  obtain ⟨i, hi⟩ := List.mem_iff_getElem?.1 hm
  obtain ⟨m₀, hm₀, hpar, -⟩ := ex.node hi
  have hold (hget : m₀.parents.get? entry.1 = some entry.2) :
      ∀ v ∈ entry.2.vars, v.isAnonymous = false := by
    have hmem := List.mem_of_getElem? hm₀
    exact hp m₀ hmem entry ((Roster.mem_entries_iff (hs.parents_nodup hmem)).2 hget)
  have hget : m.parents.get? entry.1 = some entry.2 :=
    (Roster.mem_entries_iff (hs'.parents_nodup hm)).1 he
  rw [hpar] at hget
  split at hget
  · rw [Roster.get?_insert] at hget
    split at hget
    · cases hget
      exact hr
    · exact hold hget
  · exact hold hget

/-- **One plain call keeps the parents plain.** -/
theorem PlainParents.perform (hp : h.PlainParents) (hs : Sound h) {call : Call}
    (hc : call.isPlain h = true) : (h.perform call).PlainParents := by
  cases call with
  | declare name params =>
      rw [Hierarchy.perform]
      split
      · rename_i e
        obtain ⟨-, -, -, rfl⟩ := declare_eq_ok e
        intro n hn
        rcases List.mem_append.1 hn with hn | hn
        · exact hp n hn
        · -- a new type has no parents
          obtain rfl := List.mem_singleton.1 hn
          intro entry he
          cases he
      · exact hp
  | addParent child parent =>
      rw [Hierarchy.perform]
      split
      · rename_i h' e
        obtain ⟨n, p, r, r', hr, -, hj, ⟨-, rfl⟩ | ex⟩ := addParent_cases hs e
        · exact hp
        · obtain ⟨rfl, hvars⟩ := hr.eq_of_joined hj hc
          exact hp.extend hs (hs.addParent e) ex hvars
      · exact hp
  | finalize =>
      show h.finalize.PlainParents
      unfold PlainParents
      rw [nodes_finalize]
      exact hp

/-- **Plain calls keep the parents plain.** -/
theorem plainParents_of_plainRun {calls : List Call} (hr : Reachable h) (hp : h.PlainParents)
    (hc : h.plainRun calls = true) : (calls.foldl perform h).PlainParents := by
  induction calls generalizing h with
  | nil => exact hp
  | cons call calls ih =>
      rw [plainRun, Bool.and_eq_true] at hc
      exact ih (hr.step call) (hp.perform (sound_of_reachable hr) hc.1) hc.2

/-! ## 2. Coherence -/

/-- **An instance is raised in two steps to what it is raised to at once.** -/
theorem Straight.exists_raise (S : Straight h) {x : App Ty} {n : Node} {b a : Nat}
    (hn : h.find? x.head = some n) (hb : h.HasAncestor n.id b) (ha : h.HasAncestor b a) :
    ∃ y z, h.raise x b = some y ∧ h.raise y a = some z ∧ h.raise x a = some z := by
  rw [HasAncestor, exists_node_iff (S.sound.node_of_find hn)] at hb
  obtain ⟨r, hr⟩ := Option.isSome_iff_exists.1 hb
  have hy := raise_of_record hn hr
  obtain ⟨m, hm, hfind⟩ := S.sound.find_record (find?_mem hn) hr
  rw [HasAncestor, exists_node_iff hm] at ha
  obtain ⟨r', hr'⟩ := Option.isSome_iff_exists.1 ha
  have hz := raise_of_record (a := n.substitute r x.args)
    (by rw [Node.head_substitute]; exact hfind) hr'
  exact ⟨_, _, hy, hz, S.raise_raise hy hz⟩

/-- **Records are coherent.** Take the hierarchy that some calls lead to, without nameless
    parameters. What a type's record of one ancestor gives, put into that ancestor's record of
    another one, is joined with the type's own record of the other one without changing it; so is a
    parent as it was given. If no call gives a parent with `_` in it, the records are the same, and
    an instance is raised in two steps to what it is raised to at once. -/
theorem records_coherent {calls : List Call} (e : calls.foldl perform empty = h) (hn : Named h) :
    (∀ d b a m x y, h.nodes[b]? = some m → h.record? d b = some x → h.record? b a = some y →
      ∃ z, h.record? d a = some z ∧ (m.substitute y x.args).refine z = some z) ∧
    (∀ d p n l, h.nodes[d]? = some n → n.parents.get? p = some l →
      ∃ z, h.record? d p = some z ∧ l.refine z = some z) ∧
    (empty.plainRun calls = true →
      (∀ d b a m x y, h.nodes[b]? = some m → h.record? d b = some x → h.record? b a = some y →
        h.record? d a = some (m.substitute y x.args)) ∧
      (∀ d p n l, h.nodes[d]? = some n → n.parents.get? p = some l → h.record? d p = some l) ∧
      ∀ x n b a, h.find? x.head = some n → h.HasAncestor n.id b → h.HasAncestor b a →
        ∃ y z, h.raise x b = some y ∧ h.raise y a = some z ∧ h.raise x a = some z) := by
  have g := regular_of_reachable ⟨calls, e⟩ hn
  refine ⟨fun d b a m x y hm hx hy => ?_, fun d p n l hi hl => ?_, fun hplain => ?_⟩
  · obtain ⟨z, hz, hcov⟩ := g.coherent.compose hm hx hy
    exact ⟨z, hz, App.refine_eq_right hcov⟩
  · obtain ⟨z, hz, hcov⟩ := g.coherent.parent hi hl
    exact ⟨z, hz, App.refine_eq_right hcov⟩
  · have hp : h.PlainParents := by
      have hempty : empty.PlainParents := by decide
      rw [← e]
      exact plainParents_of_plainRun ⟨[], rfl⟩ hempty hplain
    have S := g.straight hp
    refine ⟨fun d b a m x y hm hx hy => S.compose hm hx hy, fun d p n l hi hl => ?_,
      fun x n b a hx hb ha => S.exists_raise hx hb ha⟩
    exact (g.record_parent hp hi hl).1

/-- A pile is some bag, and a collection of `int`. That a bag is a collection is said last. -/
def pileOfInt : List Call := [
  .declare "int" [],
  .declare "collection" [⟨"t", .covariant⟩],
  .declare "bag" [⟨"s", .covariant⟩],
  .declare "pile" [],
  .addParent "pile" (.app ⟨"bag", []⟩),
  .addParent "pile" (.app ⟨"collection", [.app ⟨"int", []⟩]⟩),
  .addParent "bag" (.app ⟨"collection", [.var (.free "s")]⟩)]

/-- A pile is a bag of bags. That a bag is a collection is said last. -/
def pileOfBags : List Call := [
  .declare "int" [],
  .declare "collection" [⟨"t", .covariant⟩],
  .declare "bag" [⟨"s", .covariant⟩],
  .declare "pile" [⟨"u", .covariant⟩],
  .addParent "pile" (.app ⟨"bag", [.app ⟨"bag", [.var (.free "u")]⟩]⟩),
  .addParent "bag" (.app ⟨"collection", [.var (.free "s")]⟩)]

/-- As a bag, a pile of the first kind is a collection of anything; it is known to be one of `int`.
    A pile of the second kind is the same collection of bags on both ways. -/
theorem piles_coherent :
    (∃ m x y z, (pileOfInt.foldl perform empty).nodes[2]? = some m ∧
      (pileOfInt.foldl perform empty).record? 3 2 = some x ∧
      (pileOfInt.foldl perform empty).record? 2 1 = some y ∧
      (pileOfInt.foldl perform empty).record? 3 1 = some z ∧
      m.substitute y x.args = ⟨"collection", [.anonymous]⟩ ∧
      z = ⟨"collection", [.app ⟨"int", []⟩]⟩ ∧ (m.substitute y x.args).refine z = some z) ∧
    Named (pileOfInt.foldl perform empty) ∧ Named (pileOfBags.foldl perform empty) ∧
    empty.plainRun pileOfBags = true ∧
    ∃ y z, (pileOfBags.foldl perform empty).raise ⟨"pile", [.app ⟨"int", []⟩]⟩ 2 = some y ∧
      (pileOfBags.foldl perform empty).raise y 1 = some z ∧
      (pileOfBags.foldl perform empty).raise ⟨"pile", [.app ⟨"int", []⟩]⟩ 1 = some z ∧
      z = ⟨"collection", [.app ⟨"bag", [.app ⟨"int", []⟩]⟩]⟩ := by
  have hn : Named (pileOfInt.foldl perform empty) := by decide
  have hn' : Named (pileOfBags.foldl perform empty) := by decide
  have hplain : empty.plainRun pileOfBags = true := by decide
  refine ⟨?_, hn, hn', hplain, ?_⟩
  · obtain ⟨z, hz, hjoin⟩ := (records_coherent rfl hn).1 3 2 1 _ _ _ rfl rfl rfl
    have hz' : z = ⟨"collection", [.app ⟨"int", []⟩]⟩ := by
      have hrec : (pileOfInt.foldl perform empty).record? 3 1 =
        some ⟨"collection", [.app ⟨"int", []⟩]⟩ := rfl
      rw [hz] at hrec
      exact Option.some_inj.1 hrec
    exact ⟨_, _, _, z, rfl, rfl, rfl, hz, rfl, hz', hjoin⟩
  · obtain ⟨y, z, hy, hz, hxz⟩ := ((records_coherent rfl hn').2.2 hplain).2.2
      ⟨"pile", [.app ⟨"int", []⟩]⟩ _ 2 1 rfl ⟨_, rfl, by decide⟩ ⟨_, rfl, by decide⟩
    have hz' : (pileOfBags.foldl perform empty).raise ⟨"pile", [.app ⟨"int", []⟩]⟩ 1 =
      some ⟨"collection", [.app ⟨"bag", [.app ⟨"int", []⟩]⟩]⟩ := rfl
    rw [hxz] at hz'
    exact ⟨y, z, hy, hz, hxz, Option.some_inj.1 hz'⟩

end Hierarchy

end Lineage

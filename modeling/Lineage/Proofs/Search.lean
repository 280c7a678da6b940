import Lineage.Proofs.Matching
import Lineage.Nearest.Common

/-!
# The search for common relatives keeps bounds

The search is followed from the inside out, one lemma for each of its parts, under the assumption
that an earlier round can be relied on (`Reliable`). All of them say that the outcome narrows what
it was made of, in the sense of the direction:

* `solved_narrows`, `lowerings_narrow`, `carry_narrows`: an operand carried to a relative;
* `combineArgs_narrow`, `combine_narrows`: two operands combined;
* `takeIn_narrows`, `common_narrows`: all operands, in any number of rounds.

What is filled in for a parameter can be trusted if its constraints all have one relation, or if
nothing is left open in it (`Solvable`). A test of a value that has `_` in it against a constraint
of another relation passes if some filling passes, and the search may fill in something else.
-/

namespace Lineage

open Nearest

/-- The relation in which operands stand to what lies in some direction. -/
def Direction.sense : Direction → Variance
  | .up => .contravariant
  | .down => .covariant

theorem Direction.sense_flip (d : Direction) : d.flip.sense = d.sense.compose .contravariant := by
  cases d <;> rfl

/-! ## 1. Lists -/

section Lists

variable {α β : Type}

theorem keep_eq_some {p : α → Option Bool} {xs ys : List α} (e : keep p xs = some ys) :
    ∀ y ∈ ys, y ∈ xs ∧ p y = some true := by
  induction xs generalizing ys with
  | nil =>
      cases e
      exact nofun
  | cons x xs ih =>
      rw [keep] at e
      obtain ⟨passes, hx, e⟩ := Option.bind_eq_some_iff.1 e
      obtain ⟨rest, hrest, e⟩ := Option.bind_eq_some_iff.1 e
      have hin {y : α} (hy : y ∈ rest) : y ∈ x :: xs ∧ p y = some true :=
        ⟨List.mem_cons_of_mem x (ih hrest y hy).1, (ih hrest y hy).2⟩
      cases passes with
      | false =>
          cases e
          exact fun y hy => hin hy
      | true =>
          cases e
          exact List.forall_mem_cons.2 ⟨⟨List.mem_cons_self, hx⟩, fun y hy => hin hy⟩

/-- A choice takes one of the options at each position. -/
theorem choices_eq_some {options : α → Option (List β)} {xs : List α} {found : List (List β)}
    (e : choices options xs = some found) : ∀ zs ∈ found,
      List.Forall₂ (fun x z => ∃ os, options x = some os ∧ z ∈ os) xs zs := by
  induction xs generalizing found with
  | nil =>
      cases e
      intro zs hzs
      rw [List.mem_singleton.1 hzs]
      exact .nil
  | cons x xs ih =>
      rw [choices] at e
      obtain ⟨os, hx, e⟩ := Option.bind_eq_some_iff.1 e
      cases os with
      | nil =>
          cases e
          exact nofun
      | cons o os =>
          obtain ⟨rests, hrests, e⟩ := Option.bind_eq_some_iff.1 e
          cases e
          intro zs hzs
          obtain ⟨z, hz, hzs⟩ := List.mem_flatMap.1 hzs
          obtain ⟨rest, hrest, rfl⟩ := List.mem_map.1 hzs
          exact .cons ⟨_, hx, hz⟩ (ih hrests rest hrest)

theorem mem_flatten_mapM {f : α → Option (List β)} {xs : List α} {yss : List (List β)}
    (e : xs.mapM f = some yss) {y : β} (hy : y ∈ yss.flatten) :
    ∃ x ∈ xs, ∃ ys, f x = some ys ∧ y ∈ ys := by
  obtain ⟨ys, hys, hy⟩ := List.mem_flatten.1 hy
  obtain ⟨x, hx, hfx⟩ := forall₂_exists_left (mapM_eq_some.1 e) hys
  exact ⟨x, hx, ys, hfx, hy⟩

theorem mem_distinct {results : List Ty} {t : Ty} (ht : t ∈ distinct results) : t ∈ results := by
  have step (rs acc : List Ty) (ht : t ∈ rs.foldl addDistinct acc) : t ∈ acc ∨ t ∈ rs := by
    induction rs generalizing acc with
    | nil => exact Or.inl ht
    | cons r rs ih =>
        rcases ih _ ht with hacc | hrs
        · rw [addDistinct] at hacc
          split at hacc
          · exact Or.inl hacc
          · rcases List.mem_append.1 hacc with hacc | hr
            · exact Or.inl hacc
            · exact Or.inr (List.mem_cons.2 (Or.inl (List.mem_singleton.1 hr)))
        · exact Or.inr (List.mem_cons_of_mem r hrs)
  rcases step results [] ht with hnil | hmem
  · cases hnil
  · exact hmem

theorem mem_valuesOf {relation : Variance} {cs : List Constraint} {t : Ty} :
    t ∈ valuesOf relation cs ↔ ∃ c ∈ cs, c.relation = relation ∧ c.value = t := by
  rw [valuesOf, List.mem_map]
  constructor
  · rintro ⟨c, hc, rfl⟩
    obtain ⟨hc, hr⟩ := List.mem_filter.1 hc
    exact ⟨c, hc, by simpa using hr, rfl⟩
  · rintro ⟨c, hc, hr, rfl⟩
    exact ⟨c, List.mem_filter.2 ⟨hc, by simpa using hr⟩, rfl⟩

end Lists

/-! ## 2. One parameter -/

/-- How a value came out for the constraints on one parameter. -/
inductive Solved (q : Answers) (cs : List Constraint) : Ty → Prop where
  | unconstrained : cs = [] → Solved q cs .anonymous
  | exact {first z : Ty} {rest : List Ty} : valuesOf .invariant cs = first :: rest →
      rest.foldlM Ty.merge first = some z →
      (∀ u ∈ valuesOf .covariant cs, q.fulfills z u = some true) →
      (∀ l ∈ valuesOf .contravariant cs, q.fulfills l z = some true) → Solved q cs z
  | lowest {z : Ty} {found : List Ty} : valuesOf .invariant cs = [] →
      valuesOf .covariant cs = [] →
      q.common .up (valuesOf .contravariant cs) = some found → z ∈ found → Solved q cs z
  | highest {u z : Ty} {us found : List Ty} : valuesOf .invariant cs = [] →
      valuesOf .covariant cs = u :: us →
      q.common .down (valuesOf .covariant cs) = some found → z ∈ found →
      (∀ l ∈ valuesOf .contravariant cs, q.fulfills l z = some true) → Solved q cs z

theorem fits_eq_true {q : Answers} {uppers lowers : List Ty} {z : Ty}
    (e : fits q uppers lowers z = some true) :
    (∀ u ∈ uppers, q.fulfills z u = some true) ∧ ∀ l ∈ lowers, q.fulfills l z = some true := by
  rw [fits] at e
  obtain ⟨passes, hu, e⟩ := Option.bind_eq_some_iff.1 e
  cases passes with
  | false => cases e
  | true => exact ⟨allM_eq_true.1 hu, allM_eq_true.1 e⟩

theorem solved_of_solutions {q : Answers} {cs : List Constraint} {zs : List Ty}
    (e : solutions q cs = some zs) :
    ∀ z ∈ zs, Solved q (cs.filter (!·.value.isFree)) z := by
  rw [solutions] at e
  intro z hz
  split at e
  · rename_i hnil
    cases e
    rw [List.mem_singleton.1 hz]
    exact .unconstrained (List.isEmpty_iff.1 hnil)
  · split at e
    · rename_i first rest hinv
      split at e
      · cases e
        cases hz
      · rename_i value hmerge
        obtain ⟨hmem, hfits⟩ := keep_eq_some e z hz
        rw [List.mem_singleton.1 hmem] at hfits ⊢
        obtain ⟨hu, hl⟩ := fits_eq_true hfits
        exact .exact hinv hmerge hu hl
    · rename_i hinv
      split at e
      · rename_i hnil
        exact .lowest hinv (List.isEmpty_iff.1 hnil) e hz
      · rename_i hne
        obtain ⟨found, hfound, e⟩ := Option.bind_eq_some_iff.1 e
        obtain ⟨hmem, hl⟩ := keep_eq_some e z hz
        cases hu : valuesOf .covariant (cs.filter (!·.value.isFree)) with
        | nil => exact (hne (by rw [hu]; rfl)).elim
        | cons u us => exact .highest hinv hu hfound hmem (allM_eq_true.1 hl)

namespace Hierarchy

variable {h : Hierarchy} {V : Var Ty → Prop}

/-- The constraints on one parameter determine what is filled in: it may be left open if there
    are none, and it is ground if their relations are mixed. -/
structure Solvable (V : Var Ty → Prop) (cs : List Constraint) : Prop where
  constrained : V (.free "") ∨ ∃ c ∈ cs, c.value.isFree = false
  unmixed : (∀ v, ¬ V v) ∨ ∀ c ∈ cs, ∀ c' ∈ cs, c.value.isFree = false →
    c'.value.isFree = false → c.relation = c'.relation

/-- What may be relied on in the answers of an earlier round. -/
structure Reliable (h : Hierarchy) (V : Var Ty → Prop) (q : Answers) : Prop where
  fulfills : ∃ rounds, q.fulfills = h.fulfills rounds
  constraints : ∃ rounds, q.constraints = Nearest.constraints h rounds
  common : ∀ {d : Direction} {ts found : List Ty}, (∀ t ∈ ts, h.Over V t) →
    q.common d ts = some found →
      ∀ r ∈ found, h.Over V r ∧ ∀ t ∈ ts, h.Narrows d.sense t r

/-- What the search needs of a hierarchy, on instances over one class of variables. -/
structure Searchable (h : Hierarchy) (V : Var Ty → Prop) : Prop where
  lawful : Lawful h
  wild : ∀ v, V v → (Ty.var v).isWildcard = true
  solvable : ∀ {rounds : Nat} {source target : Node} {record a : App Ty} {cs : List Constraint},
    h.find? a.head = some source → target ∈ h.nodes →
    target.ancestors.get? source.id = some record → h.Over V (.app a) →
    matchArgs (Nearest.constraints h rounds) .covariant source record.args a.args =
      some (some cs) →
    ∀ p ∈ target.params, Solvable V (cs.filter (·.param = p.name))

section Search

variable (S : Searchable h V) {q : Answers} (Q : Reliable h V q)
include S

theorem Searchable.sketch {t : Ty} (ht : h.Over V t) : h.Sketch t :=
  ⟨ht.normal, fun v hv => S.wild v (ht.vars v hv)⟩

/-- What two instances at an invariant position are merged to is both with some `_` filled in. -/
theorem Searchable.merge_covers {x y z : Ty} (hx : h.Over V x) (hy : h.Over V y)
    (e : x.merge y = some z) : h.Over V z ∧ x.Covers z ∧ y.Covers z := by
  rw [(S.sketch hx).merge_eq (S.sketch hy)] at e
  refine ⟨?_, Ty.covers_refine e⟩
  exact Ty.holds_refine (P := h.Over V)
    (Q := fun f k => ∃ n, h.find? f = some n ∧ k = n.arity)
    (fun f as => over_app_iff) e hx hy

theorem Searchable.foldlM_covers {first z : Ty} {rest : List Ty} (hfirst : h.Over V first)
    (hrest : ∀ x ∈ rest, h.Over V x) (e : rest.foldlM Ty.merge first = some z) :
    h.Over V z ∧ ∀ x ∈ first :: rest, x.Covers z := by
  induction rest generalizing first with
  | nil =>
      cases e
      refine ⟨hfirst, fun x hx => ?_⟩
      rw [List.mem_singleton.1 hx]
      exact Ty.covers_refl _
  | cons x rest ih =>
      rw [List.foldlM_cons] at e
      obtain ⟨y, hy, e⟩ := Option.bind_eq_some_iff.1 e
      rw [List.forall_mem_cons] at hrest
      obtain ⟨hover, hcf, hcx⟩ := S.merge_covers hfirst hrest.1 hy
      obtain ⟨hz, hcov⟩ := ih hover hrest.2 e
      rw [List.forall_mem_cons] at hcov
      exact ⟨hz, List.forall_mem_cons.2 ⟨hcf.trans hcov.1,
        List.forall_mem_cons.2 ⟨hcx.trans hcov.1, hcov.2⟩⟩⟩

include Q

/-- A ground value that passes a test against an instance narrows it. -/
theorem Searchable.narrows_of_fulfills {x z : Ty} (hz : h.Ground z) (hx : h.Over V x) :
    (q.fulfills z x = some true → h.Narrows .covariant x z) ∧
      (q.fulfills x z = some true → h.Narrows .contravariant x z) := by
  obtain ⟨rounds, hq⟩ := Q.fulfills
  rw [hq]
  constructor
  · intro e
    exact S.lawful.narrows_of_agreeAt (v := .covariant) hz (S.sketch hx) e
  · intro e
    exact S.lawful.narrows_of_agreeAt (v := .contravariant) hz (S.sketch hx) e

/-- **A value that came out for the constraints on a parameter satisfies all of them.** -/
theorem Searchable.solved_narrows {cs : List Constraint} {z : Ty}
    (hcs : ∀ c ∈ cs, h.Over V c.value) (hopen : V (.free "") ∨ cs ≠ [])
    (hmix : (∀ v, ¬ V v) ∨ ∀ c ∈ cs, ∀ c' ∈ cs, c.relation = c'.relation)
    (hz : Solved q cs z) : h.Over V z ∧ ∀ c ∈ cs, h.Narrows c.relation c.value z := by
  have hvalues {relation : Variance} : ∀ t ∈ valuesOf relation cs, h.Over V t := by
    intro t ht
    obtain ⟨c, hc, -, rfl⟩ := mem_valuesOf.1 ht
    exact hcs c hc
  have hmem {c : Constraint} (hc : c ∈ cs) : c.value ∈ valuesOf c.relation cs :=
    mem_valuesOf.2 ⟨c, hc, rfl, rfl⟩
  -- a constraint of another relation is only met by ground values, which the tests are right about
  have hground {t : Ty} {relation relation' : Variance} (ht : t ∈ valuesOf relation cs)
      (hz : h.Over V z) {c : Constraint} (hc : c ∈ cs) (hr : c.relation = relation')
      (hne : relation' ≠ relation) : h.Ground z := by
    rcases hmix with hV | hsame
    · exact ⟨hz.normal, fun v hv => hV v (hz.vars v hv)⟩
    · obtain ⟨c', hc', hr', -⟩ := mem_valuesOf.1 ht
      exact (hne (by rw [← hr, ← hr', hsame c hc c' hc'])).elim
  cases hz with
  | unconstrained hnil =>
      subst hnil
      rcases hopen with hV | hne
      · refine ⟨⟨sketch_anonymous.normal, fun v hv => ?_⟩, nofun⟩
        rw [Ty.anonymous, Ty.vars_var, List.mem_singleton] at hv
        rwa [hv]
      · exact (hne rfl).elim
  | @exact first z rest hinv hmerge hu hl =>
      have hall : ∀ x ∈ first :: rest, h.Over V x := hinv ▸ hvalues
      have hfirst : first ∈ valuesOf .invariant cs := by rw [hinv]; exact List.mem_cons_self
      rw [List.forall_mem_cons] at hall
      obtain ⟨hz, hcov⟩ := S.foldlM_covers hall.1 hall.2 hmerge
      refine ⟨hz, fun c hc => ?_⟩
      have hvalue := hmem hc
      cases hr : c.relation with
      | invariant =>
          rw [hr, hinv] at hvalue
          exact S.lawful.narrows_of_covers (hcov _ hvalue)
      | covariant =>
          rw [hr] at hvalue
          have hg := hground hfirst hz hc hr (by decide)
          exact (S.narrows_of_fulfills Q hg (hcs c hc)).1 (hu _ hvalue)
      | contravariant =>
          rw [hr] at hvalue
          have hg := hground hfirst hz hc hr (by decide)
          exact (S.narrows_of_fulfills Q hg (hcs c hc)).2 (hl _ hvalue)
  | lowest hinv hu e hz =>
      obtain ⟨hover, hnar⟩ := Q.common hvalues e z hz
      refine ⟨hover, fun c hc => ?_⟩
      have hvalue := hmem hc
      cases hr : c.relation with
      | invariant =>
          rw [hr, hinv] at hvalue
          cases hvalue
      | covariant =>
          rw [hr, hu] at hvalue
          cases hvalue
      | contravariant =>
          rw [hr] at hvalue
          exact hnar _ hvalue
  | @highest u _ us found hinv hu e hz hl =>
      obtain ⟨hover, hnar⟩ := Q.common hvalues e z hz
      have hupper : u ∈ valuesOf .covariant cs := by rw [hu]; exact List.mem_cons_self
      refine ⟨hover, fun c hc => ?_⟩
      have hvalue := hmem hc
      cases hr : c.relation with
      | invariant =>
          rw [hr, hinv] at hvalue
          cases hvalue
      | covariant =>
          rw [hr] at hvalue
          exact hnar _ hvalue
      | contravariant =>
          rw [hr] at hvalue
          have hg := hground hupper hover hc hr (by decide)
          exact (S.narrows_of_fulfills Q hg (hcs c hc)).2 (hl _ hvalue)

/-- Constraints that say nothing are satisfied by everything. -/
theorem Searchable.solutions_narrow {cs : List Constraint} {zs : List Ty}
    (hcs : ∀ c ∈ cs, h.Over V c.value) (hsolv : Solvable V cs) (e : solutions q cs = some zs) :
    ∀ z ∈ zs, h.Over V z ∧ ∀ c ∈ cs, h.Narrows c.relation c.value z := by
  intro z hz
  have hopen : V (.free "") ∨ cs.filter (!·.value.isFree) ≠ [] := by
    refine hsolv.constrained.imp_right ?_
    rintro ⟨c, hc, hfree⟩
    exact List.ne_nil_of_mem (List.mem_filter.2 ⟨hc, by simp [hfree]⟩)
  have hin {c : Constraint} (hc : c ∈ cs.filter (!·.value.isFree)) :
      c ∈ cs ∧ c.value.isFree = false := by
    obtain ⟨hc, hfree⟩ := List.mem_filter.1 hc
    exact ⟨hc, by simpa using hfree⟩
  obtain ⟨hover, hnar⟩ := S.solved_narrows Q (fun c hc => hcs c (hin hc).1) hopen
    (hsolv.unmixed.imp_right fun hsame c hc c' hc' =>
      hsame c (hin hc).1 c' (hin hc').1 (hin hc).2 (hin hc').2)
    (solved_of_solutions e z hz)
  refine ⟨hover, fun c hc => ?_⟩
  by_cases hfree : c.value.isFree = true
  · have hover := hcs c hc
    cases hv : c.value with
    | app a =>
        rw [hv] at hfree
        cases hfree
    | var s =>
        rw [hv] at hover
        exact S.lawful.narrows_var (S.sketch hover)
  · exact hnar c (List.mem_filter.2 ⟨hc, by simpa using hfree⟩)

/-! ## 3. One operand -/

omit S Q in
theorem lowerings_eq_some {a b : App Ty} {target : Node} {found : List (App Ty)}
    (e : lowerings h q a target = some found) (hb : b ∈ found) : ∃ source record cs zs,
      h.find? a.head = some source ∧ target.ancestors.get? source.id = some record ∧
      matchArgs q.constraints .covariant source record.args a.args = some (some cs) ∧
      b = ⟨target.name, zs⟩ ∧ List.Forall₂ (fun p z => ∃ os,
        solutions q (cs.filter (·.param = p.name)) = some os ∧ z ∈ os) target.params zs := by
  rw [lowerings] at e
  split at e
  · cases e
    cases hb
  · rename_i source hs
    split at e
    · cases e
      cases hb
    · rename_i record hr
      obtain ⟨found', hm, e⟩ := Option.bind_eq_some_iff.1 e
      cases found' with
      | none =>
          cases e
          cases hb
      | some cs =>
          obtain ⟨zss, hch, e⟩ := Option.bind_eq_some_iff.1 e
          cases e
          obtain ⟨zs, hzs, rfl⟩ := List.mem_map.1 hb
          exact ⟨source, record, cs, zs, hs, hr, hm, rfl, choices_eq_some hch zs hzs⟩

/-- **What an application is lowered to lies below it.** -/
theorem Searchable.lowerings_narrow {a b : App Ty} {target : Node} {found : List (App Ty)}
    (ht : target ∈ h.nodes) (ha : h.Over V (.app a))
    (e : lowerings h q a target = some found) (hb : b ∈ found) :
    b.head = target.name ∧ h.Over V (.app b) ∧ h.Narrows .covariant (.app a) (.app b) := by
  have L := S.lawful
  obtain ⟨source, record, cs, zs, hs, hr, hm, rfl, hzs⟩ := lowerings_eq_some e hb
  obtain ⟨rounds, hq⟩ := Q.constraints
  rw [hq] at hm
  have htarget := L.sound.find_of_mem ht
  have hmatch := L.sound.matchedArgs_of_matchArgs hm
  have hvalues := (L.raiseClosed _).matchedArgs_values hmatch (over_app_iff.1 ha).2
  have hl : zs.length = target.arity := hzs.length_eq.symm
  -- what came out for each parameter
  have hsol {i : Nat} {z : Ty} (hi : zs[i]? = some z) : h.Over V z ∧ ∀ c ∈ cs,
      target.paramIndex? c.param = some i → h.Narrows c.relation c.value z := by
    obtain ⟨p, hp, os, hos, hz⟩ := forall₂_getElem?_right hzs hi
    obtain ⟨hover, hnar⟩ := S.solutions_narrow Q
      (fun c hc => hvalues c (List.mem_filter.1 hc).1)
      (S.solvable hs ht hr ha hm p (List.mem_of_getElem? hp)) hos z hz
    refine ⟨hover, fun c hc hindex => hnar c (List.mem_filter.2 ⟨hc, ?_⟩)⟩
    obtain ⟨p', hp', hname⟩ := Node.paramIndex?_eq_some hindex
    rw [hp] at hp'
    cases hp'
    simp [hname]
  have hover : h.Over V (.app ⟨target.name, zs⟩) := by
    refine over_app_iff.2 ⟨⟨target, htarget, hl⟩, fun z hz => ?_⟩
    obtain ⟨i, hi⟩ := List.mem_iff_getElem?.1 hz
    exact (hsol hi).1
  refine ⟨rfl, hover, ?_⟩
  have hraise := raise_of_record (h := h) (a := ⟨target.name, zs⟩) htarget hr
  have hpat := L.pattern ht hr
  have hhead := L.sound.raise_head hs hraise
  obtain ⟨found', hall, hgather⟩ := hmatch
  have hargs : h.Narrows .covariant (.app a) (.app (target.substitute record zs)) := by
    refine L.narrows_app hs hhead (ha.length hs) (L.sound.raise_length hraise (hhead ▸ hs))
      fun i x z hx hz => ?_
    rw [Node.args_substitute, List.getElem?_map] at hz
    obtain ⟨p, hp, rfl⟩ := Option.map_eq_some_iff.1 hz
    refine L.narrows_of_matched ht hl (hall i p x hp hx) (hpat.arg hp)
      (S.sketch (ha.arg hx)) fun c hc j z hj hz => ?_
    exact (hsol hz).2 c ((hgather c).2 ⟨i, p, x, hp, hx, hc⟩) hj
  exact hargs.trans (L.narrows_lower hraise)

/-- What an application is carried over to lies on the side of the direction. -/
theorem Searchable.carry_narrows {d : Direction} {a b : App Ty} {target : Node}
    {found : List (App Ty)} (ht : target ∈ h.nodes) (ha : h.Over V (.app a))
    (e : carry h q d a target = some found) (hb : b ∈ found) :
    b.head = target.name ∧ h.Over V (.app b) ∧ h.Narrows d.sense (.app a) (.app b) := by
  have L := S.lawful
  cases d with
  | up =>
      cases e
      have hr : h.raise a target.id = some b := by
        rwa [Option.mem_toList] at hb
      obtain ⟨⟨n, hn, hl⟩, -⟩ := over_app_iff.1 ha
      exact ⟨L.sound.raise_head (L.sound.find_of_mem ht) hr, L.raise_over ha hr,
        L.narrows_raise hn hl hr⟩
  | down => exact S.lowerings_narrow Q ht ha e hb

/-! ## 4. Two operands -/

theorem Searchable.combineAt_narrows {d : Direction} {v : Variance} {x y z : Ty}
    {found : List Ty} (hx : h.Over V x) (hy : h.Over V y)
    (e : combineAt q d v x y = some found) (hz : z ∈ found) : h.Over V z ∧
      h.Narrows (d.sense.compose v) x z ∧ h.Narrows (d.sense.compose v) y z := by
  have hboth : ∀ t ∈ [x, y], h.Over V t := by simp [hx, hy]
  cases v with
  | covariant =>
      obtain ⟨hover, hnar⟩ := Q.common hboth e z hz
      rw [Variance.compose_comm, Variance.compose_covariant]
      exact ⟨hover, hnar x (by simp), hnar y (by simp)⟩
  | contravariant =>
      obtain ⟨hover, hnar⟩ := Q.common hboth e z hz
      rw [← Direction.sense_flip]
      exact ⟨hover, hnar x (by simp), hnar y (by simp)⟩
  | invariant =>
      cases e
      obtain ⟨hover, hcx, hcy⟩ := S.merge_covers hx hy (Option.mem_toList.1 hz)
      exact ⟨hover, S.lawful.narrows_of_covers hcx, S.lawful.narrows_of_covers hcy⟩

omit S Q in
theorem combineArgs_eq_some {d : Direction} {n : Node} {a b c : App Ty} {found : List (App Ty)}
    (e : combineArgs q d n a b = some found) (hc : c ∈ found) :
    ∃ zs, c = ⟨n.name, zs⟩ ∧ zs.length = min a.args.length b.args.length ∧
      ∀ (i : Nat) (x y z : Ty), a.args[i]? = some x → b.args[i]? = some y → zs[i]? = some z →
        ∃ os, combineAt q d (n.variance i) x y = some os ∧ z ∈ os := by
  rw [combineArgs] at e
  obtain ⟨zss, hch, e⟩ := Option.bind_eq_some_iff.1 e
  cases e
  obtain ⟨zs, hzs, rfl⟩ := List.mem_map.1 hc
  have hall := choices_eq_some hch zs hzs
  refine ⟨zs, rfl, ?_, fun i x y z hx hy hz => ?_⟩
  · rw [← hall.length_eq, List.length_zipIdx, List.length_zip]
  · obtain ⟨e, he, os, hos, hz⟩ := forall₂_getElem?_right hall hz
    have hxy : (a.args.zip b.args)[i]? = some (x, y) := List.getElem?_zip_eq_some.2 ⟨hx, hy⟩
    rw [List.getElem?_zipIdx, hxy] at he
    cases he
    rw [Nat.zero_add] at hos
    exact ⟨os, hos, hz⟩

/-- **Two instances of one type are combined to a common bound of both.** -/
theorem Searchable.combineArgs_narrow {d : Direction} {n : Node} {a b c : App Ty}
    {found : List (App Ty)} (hn : n ∈ h.nodes) (ha : h.Over V (.app a)) (hb : h.Over V (.app b))
    (hha : a.head = n.name) (hhb : b.head = n.name) (e : combineArgs q d n a b = some found)
    (hc : c ∈ found) : h.Over V (.app c) ∧ h.Narrows d.sense (.app a) (.app c) ∧
      h.Narrows d.sense (.app b) (.app c) := by
  have L := S.lawful
  have hfind := L.sound.find_of_mem hn
  obtain ⟨f, as⟩ := a
  obtain ⟨g, bs⟩ := b
  subst hha hhb
  obtain ⟨zs, rfl, hl, hall⟩ := combineArgs_eq_some e hc
  have hla : as.length = n.arity := ha.length hfind
  have hlb : bs.length = n.arity := hb.length hfind
  have hlz : zs.length = n.arity := by
    rw [hl, hla, hlb, Nat.min_self]
  have hat {i : Nat} {z : Ty} (hz : zs[i]? = some z) : ∃ x y, as[i]? = some x ∧
      bs[i]? = some y ∧ h.Over V z ∧ h.Narrows (d.sense.compose (n.variance i)) x z ∧
        h.Narrows (d.sense.compose (n.variance i)) y z := by
    have hi := (List.getElem?_eq_some_iff.1 hz).1
    have hx := List.getElem?_eq_getElem (l := as) (i := i) (by omega)
    have hy := List.getElem?_eq_getElem (l := bs) (i := i) (by omega)
    obtain ⟨os, hos, hmem⟩ := hall i _ _ z hx hy hz
    exact ⟨_, _, hx, hy, S.combineAt_narrows Q (ha.arg hx) (hb.arg hy) hos hmem⟩
  refine ⟨over_app_iff.2 ⟨⟨n, hfind, hlz⟩, fun z hz => ?_⟩, ?_, ?_⟩
  · obtain ⟨i, hi⟩ := List.mem_iff_getElem?.1 hz
    obtain ⟨x, y, -, -, hover, -⟩ := hat hi
    exact hover
  · refine L.narrows_app hfind rfl hla hlz fun i x z hx hz => ?_
    obtain ⟨x', y, hx', -, -, hnar, -⟩ := hat hz
    rw [hx] at hx'
    cases hx'
    exact hnar
  · refine L.narrows_app hfind rfl hlb hlz fun i y z hy hz => ?_
    obtain ⟨x, y', -, hy', -, -, hnar⟩ := hat hz
    rw [hy] at hy'
    cases hy'
    exact hnar

theorem Searchable.combineVia_narrows {d : Direction} {n : Node} {a b c : App Ty}
    {found : List (App Ty)} (hn : n ∈ h.nodes) (ha : h.Over V (.app a)) (hb : h.Over V (.app b))
    (e : combineVia h q d a b n = some found) (hc : c ∈ found) : h.Over V (.app c) ∧
      h.Narrows d.sense (.app a) (.app c) ∧ h.Narrows d.sense (.app b) (.app c) := by
  rw [combineVia] at e
  obtain ⟨as, has, e⟩ := Option.bind_eq_some_iff.1 e
  obtain ⟨bs, hbs, e⟩ := Option.bind_eq_some_iff.1 e
  obtain ⟨css, hcss, e⟩ := Option.bind_eq_some_iff.1 e
  cases e
  obtain ⟨xy, hxy, cs, hcs, hc⟩ := mem_flatten_mapM hcss hc
  obtain ⟨x, hx, hxy⟩ := List.mem_flatMap.1 hxy
  obtain ⟨y, hy, rfl⟩ := List.mem_map.1 hxy
  obtain ⟨hhx, hox, hnx⟩ := S.carry_narrows Q hn ha has hx
  obtain ⟨hhy, hoy, hny⟩ := S.carry_narrows Q hn hb hbs hy
  obtain ⟨hover, hxc, hyc⟩ := S.combineArgs_narrow Q hn hox hoy hhx hhy hcs hc
  exact ⟨hover, hnx.trans hxc, hny.trans hyc⟩

theorem Searchable.combineApps_narrow {tables : Tables} {d : Direction} {a b c : App Ty}
    {found : List (App Ty)} (ha : h.Over V (.app a)) (hb : h.Over V (.app b))
    (e : combineApps h tables q d a b = some found) (hc : c ∈ found) : h.Over V (.app c) ∧
      h.Narrows d.sense (.app a) (.app c) ∧ h.Narrows d.sense (.app b) (.app c) := by
  rw [combineApps] at e
  split at e
  · obtain ⟨css, hcss, e⟩ := Option.bind_eq_some_iff.1 e
    cases e
    obtain ⟨n, hn, cs, hcs, hc⟩ := mem_flatten_mapM hcss hc
    obtain ⟨k, -, hk⟩ := List.mem_filterMap.1 hn
    exact S.combineVia_narrows Q (List.mem_of_getElem? hk) ha hb hcs hc
  · cases e
    cases hc

omit S Q in
/-- A variable without bounds has none that could come in as operands. -/
theorem combineVarApp_free {d : Direction} {name : String} {a : App Ty} :
    combineVarApp q d (.free name) a = some [.app a] := by
  cases d <;> rfl

/-- **Two operands are combined to common bounds of both.** `_` says nothing, and gives way to the
    other operand. -/
theorem Searchable.combine_narrows {tables : Tables} {d : Direction} {x y z : Ty}
    {found : List Ty} (hx : h.Over V x) (hy : h.Over V y)
    (e : combine h tables q d x y = some found) (hz : z ∈ found) : h.Over V z ∧
      h.Narrows d.sense x z ∧ h.Narrows d.sense y z := by
  have L := S.lawful
  have hvar {s : Var Ty} {t z : Ty} (hs : h.Over V (.var s)) (ht : h.Over V t)
      (hz : z ∈ [t]) : h.Over V z ∧ h.Narrows d.sense (.var s) z ∧ h.Narrows d.sense t z := by
    rw [List.mem_singleton.1 hz]
    exact ⟨ht, L.narrows_var (S.sketch hs), L.narrows_refl⟩
  cases x with
  | app a =>
      cases y with
      | app b =>
          obtain ⟨cs, hcs, e⟩ := Option.bind_eq_some_iff.1 e
          cases e
          obtain ⟨c, hc, rfl⟩ := List.mem_map.1 hz
          exact S.combineApps_narrow Q hx hy hcs hc
      | var s =>
          obtain rfl := (S.sketch hy).var
          rw [combine, combineVarApp_free] at e
          cases e
          obtain ⟨hover, hs, ha⟩ := hvar hy hx hz
          exact ⟨hover, ha, hs⟩
  | var s =>
      obtain rfl := (S.sketch hx).var
      cases y with
      | app b =>
          rw [combine, combineVarApp_free] at e
          cases e
          exact hvar hx hy hz
      | var t =>
          obtain rfl := (S.sketch hy).var
          cases e
          exact hvar hx hy hz

/-! ## 5. All operands -/

theorem Searchable.takeIn_narrows {tables : Tables} {d : Direction} {results found : List Ty}
    {operand r : Ty} (hr : ∀ t ∈ results, h.Over V t) (ho : h.Over V operand)
    (e : takeIn h tables q d results operand = some found) (hf : r ∈ found) :
    h.Over V r ∧ h.Narrows d.sense operand r ∧ ∃ t ∈ results, h.Narrows d.sense t r := by
  rw [takeIn] at e
  obtain ⟨zss, hzss, e⟩ := Option.bind_eq_some_iff.1 e
  obtain ⟨hmem, -⟩ := keep_eq_some e r hf
  obtain ⟨t, ht, zs, hzs, hz⟩ := mem_flatten_mapM hzss (mem_distinct hmem)
  obtain ⟨hover, hnt, hno⟩ := S.combine_narrows Q (hr t ht) ho hzs hz
  exact ⟨hover, hno, t, ht, hnt⟩

/-- The running results narrow the operands taken in so far. -/
theorem Searchable.foldlM_takeIn {tables : Tables} {d : Direction} {operands : List Ty} :
    ∀ {done results found : List Ty},
      (∀ r ∈ results, h.Over V r ∧ ∀ o ∈ done, h.Narrows d.sense o r) →
      (∀ o ∈ operands, h.Over V o) →
      operands.foldlM (takeIn h tables q d) results = some found →
      ∀ r ∈ found, h.Over V r ∧ ∀ o ∈ done ++ operands, h.Narrows d.sense o r := by
  induction operands with
  | nil =>
      intro done results found hr _ e
      cases e
      rwa [List.append_nil]
  | cons o operands ih =>
      intro done results found hr ho e
      rw [List.foldlM_cons] at e
      obtain ⟨next, hnext, e⟩ := Option.bind_eq_some_iff.1 e
      rw [List.forall_mem_cons] at ho
      have hstep : ∀ r ∈ next, h.Over V r ∧ ∀ o' ∈ done ++ [o], h.Narrows d.sense o' r := by
        intro r hmem
        obtain ⟨hover, hno, t, ht, hnt⟩ :=
          S.takeIn_narrows Q (fun t ht => (hr t ht).1) ho.1 hnext hmem
        refine ⟨hover, fun o' ho' => ?_⟩
        rcases List.mem_append.1 ho' with hdone | hlast
        · exact ((hr t ht).2 o' hdone).trans hnt
        · rw [List.mem_singleton.1 hlast]
          exact hno
      have := ih hstep ho.2 e
      rwa [List.append_assoc] at this

omit Q in
/-- **The search gives common bounds**, in any number of rounds. -/
theorem Searchable.common_narrows {tables : Tables} (rounds : Nat) :
    ∀ {d : Direction} {ts found : List Ty}, (∀ t ∈ ts, h.Over V t) →
      Nearest.common h tables rounds d ts = some found →
        ∀ r ∈ found, h.Over V r ∧ ∀ t ∈ ts, h.Narrows d.sense t r := by
  induction rounds with
  | zero => exact fun _ e => nomatch e
  | succ rounds ih =>
      intro d ts found hts e
      have Q : Reliable h V ⟨h.fulfills rounds, Nearest.constraints h rounds,
          Nearest.common h tables rounds⟩ := ⟨⟨rounds, rfl⟩, ⟨rounds, rfl⟩, ih⟩
      rw [Nearest.common] at e
      cases ts with
      | nil =>
          cases e
          exact nofun
      | cons t ts =>
          rw [List.forall_mem_cons] at hts
          have hfirst : ∀ r ∈ [t], h.Over V r ∧ ∀ o ∈ [t], h.Narrows d.sense o r := by
            intro r hr
            rw [List.mem_singleton.1 hr]
            refine ⟨hts.1, fun o ho => ?_⟩
            rw [List.mem_singleton.1 ho]
            exact S.lawful.narrows_refl
          exact S.foldlM_takeIn Q hfirst hts.2 e

end Search

end Hierarchy

end Lineage

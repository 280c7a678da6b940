import Lineage.Proofs.Pair
import Lineage.Proofs.Table

/-!
# Where two instances meet

Going up, two instances are combined at each of the nearest common ancestors of their types
(`MeetsAt`): both are raised to it, and their arguments are combined position by position. A
position for which nothing comes out drops the type, and no farther ancestor is tried.

What is combined at one type is never dropped for something nearer (`mem_common_up`): different
nearest ancestors are unrelated, and the options for a position have been compared before. So a type
without parameters above both instances is above some result if and only if one of the nearest
ancestors below it can be combined (`exists_result_iff`).
-/

namespace Lineage

open Nearest

namespace Hierarchy

variable {h : Hierarchy} {tables : Tables} {a b c a' b' : App Ty} {n : Node} {q : Answers}

/-- A nearest common ancestor of the types of two instances, with both instances raised to it. -/
structure MeetsAt (h : Hierarchy) (a b : App Ty) (n : Node) (a' b' : App Ty) : Prop where
  node : n ∈ h.nodes
  nearest : ∃ x y, h.find? a.head = some x ∧ h.find? b.head = some y ∧
    h.IsNearest .up x.id y.id n.id
  left : h.raise a n.id = some a'
  right : h.raise b n.id = some b'

/-! ## 1. Candidates -/

section Candidates

variable (S : Sound h) (htab : h.tables = some tables)
include S htab

/-- The table gives the types at which two instances meet. -/
theorem mem_candidates {x y : Node} (hx : h.find? a.head = some x) (hy : h.find? b.head = some y) :
    n ∈ (tables.get .up x.id y.id).filterMap (h.nodes[·]?) ↔ ∃ a' b', h.MeetsAt a b n a' b' := by
  have hix := S.node_of_find hx
  have hiy := S.node_of_find hy
  have hcell := filled_build S (d := .up) (List.getElem?_eq_some_iff.1 hix).1
    (List.getElem?_eq_some_iff.1 hiy).1
  rw [S.tables_eq htab, List.mem_filterMap]
  constructor
  · rintro ⟨i, hi, hn⟩
    obtain rfl := S.id_eq hn
    have hnear := hcell.2.1 hi
    obtain ⟨a', ha'⟩ := (S.exists_raise_iff hx).2 hnear.1.1
    obtain ⟨b', hb'⟩ := (S.exists_raise_iff hy).2 hnear.1.2
    exact ⟨a', b', List.mem_of_getElem? hn, ⟨x, y, hx, hy, hnear⟩, ha', hb'⟩
  · rintro ⟨a', b', hn, ⟨x', y', hx', hy', hnear⟩, -, -⟩
    rw [hx] at hx'
    rw [hy] at hy'
    cases hx'
    cases hy'
    exact ⟨n.id, hcell.2.2 hnear, S.node_of_mem hn⟩

omit S htab in
/-- Where two instances meet, both are raised, and there is one way to do it. -/
theorem MeetsAt.combineVia_eq (hm : h.MeetsAt a b n a' b') :
    combineVia h q .up a b n = combineArgs q .up n a' b' :=
  combineVia_single (carry_up hm.left) (carry_up hm.right)

/-- The types where two instances meet are gone through one after the other. -/
theorem combineApps_up (ha : h.Sketch (.app a)) (hb : h.Sketch (.app b)) :
    ∃ ns : List Node, (∀ n, n ∈ ns ↔ ∃ a' b', h.MeetsAt a b n a' b') ∧
      combineApps h tables q .up a b =
        (ns.mapM (combineVia h q .up a b) >>= fun css => some css.flatten) := by
  obtain ⟨⟨x, hx, -⟩, -⟩ := over_app_iff.1 ha
  obtain ⟨⟨y, hy, -⟩, -⟩ := over_app_iff.1 hb
  refine ⟨_, fun n => mem_candidates S htab hx hy, ?_⟩
  simp only [combineApps, S.idOf?_of_find hx, S.idOf?_of_find hy]
  rfl

/-- Where two instances meet, they are combined. -/
theorem combineArgs_of_meetsAt {cs : List (App Ty)}
    (e : combineApps h tables q .up a b = some cs) (ha : h.Sketch (.app a))
    (hb : h.Sketch (.app b)) (hmeet : h.MeetsAt a b n a' b') :
    ∃ found, combineArgs q .up n a' b' = some found ∧ ∀ c ∈ found, c ∈ cs := by
  obtain ⟨ns, hns, heq⟩ := combineApps_up S htab (q := q) ha hb
  rw [heq] at e
  obtain ⟨css, hcss, e⟩ := Option.bind_eq_some_iff.1 e
  cases e
  obtain ⟨found, hmem, hfound⟩ :=
    forall₂_exists_right (mapM_eq_some.1 hcss) ((hns n).2 ⟨a', b', hmeet⟩)
  rw [hmeet.combineVia_eq] at hfound
  exact ⟨found, hfound, fun c hc => List.mem_flatten.2 ⟨found, hmem, hc⟩⟩

/-- What is combined is combined where the instances meet. -/
theorem meetsAt_of_mem_combineApps {cs : List (App Ty)}
    (e : combineApps h tables q .up a b = some cs) (ha : h.Sketch (.app a))
    (hb : h.Sketch (.app b)) (hc : c ∈ cs) : ∃ n a' b' found, h.MeetsAt a b n a' b' ∧
      combineArgs q .up n a' b' = some found ∧ c ∈ found := by
  obtain ⟨ns, hns, heq⟩ := combineApps_up S htab (q := q) ha hb
  rw [heq] at e
  obtain ⟨css, hcss, e⟩ := Option.bind_eq_some_iff.1 e
  cases e
  obtain ⟨n, hn, found, hfound, hc⟩ := mem_flatten_mapM hcss hc
  obtain ⟨a', b', hmeet⟩ := (hns n).1 hn
  rw [hmeet.combineVia_eq] at hfound
  exact ⟨n, a', b', found, hmeet, hfound, hc⟩

/-- The search at the types where the instances meet comes to an end if it does at each. -/
theorem exists_combineApps_up (ha : h.Sketch (.app a)) (hb : h.Sketch (.app b))
    (hall : ∀ n a' b', h.MeetsAt a b n a' b' → ∃ found, combineArgs q .up n a' b' = some found) :
    ∃ cs, combineApps h tables q .up a b = some cs := by
  obtain ⟨ns, hns, heq⟩ := combineApps_up S htab (q := q) ha hb
  have hvia : ∀ n ∈ ns, ∃ found, combineVia h q .up a b n = some found := by
    intro n hn
    obtain ⟨a', b', hmeet⟩ := (hns n).1 hn
    rw [hmeet.combineVia_eq]
    exact hall n a' b' hmeet
  obtain ⟨css, hcss⟩ := exists_mapM_eq_some hvia
  rw [heq, hcss]
  exact ⟨_, rfl⟩

end Candidates

/-! ## 2. Positions -/

theorem exists_combineArgs {d : Direction}
    (hall : ∀ (i : Nat) (x y : Ty), a.args[i]? = some x → b.args[i]? = some y →
      ∃ os, combineAt q d (n.variance i) x y = some os) :
    ∃ found, combineArgs q d n a b = some found := by
  have hoptions : ∀ e ∈ (a.args.zip b.args).zipIdx,
      ∃ os, combineAt q d (n.variance e.2) e.1.1 e.1.2 = some os := forall_mem_zip_zipIdx.2 hall
  obtain ⟨zss, hzss⟩ := exists_choices hoptions
  exact ⟨_, Option.bind_eq_some_iff.2 ⟨zss, hzss, rfl⟩⟩

/-- Something is combined if something comes out for every position. -/
theorem combineArgs_ne_nil {d : Direction} {found : List (App Ty)}
    (e : combineArgs q d n a b = some found)
    (hall : ∀ (i : Nat) (x y : Ty), a.args[i]? = some x → b.args[i]? = some y →
      ∀ os, combineAt q d (n.variance i) x y = some os → os ≠ []) : found ≠ [] := by
  obtain ⟨zss, hzss, e⟩ := Option.bind_eq_some_iff.1 e
  cases e
  have hne := choices_ne_nil hzss (forall_mem_zip_zipIdx.2 hall)
  exact fun hnil => hne (List.map_eq_nil_iff.1 hnil)

/-! ## 3. Nothing is dropped -/

section Dropped

variable (S : Sound h) (htab : h.tables = some tables) (ha : h.Sketch (.app a))
  (hb : h.Sketch (.app b)) {k : Nat} {cs : List (App Ty)}
  (e : combineApps h tables (answers h tables k) .up a b = some cs) {x y : App Ty} (hx : x ∈ cs)
  (hy : y ∈ cs)
include S htab ha hb e hx hy

/-- Two results are unrelated, or they are instances of one type whose arguments are options for
    the same positions. -/
theorem combined_cases : (∃ m, h.find? x.head = some m ∧ h.raise y m.id = none) ∨
    ∃ m, h.find? x.head = some m ∧ h.find? y.head = some m ∧ h.raise y m.id = some y ∧
      h.raise x m.id = some x ∧ ∀ (i : Nat) (z w : Ty), x.args[i]? = some z → y.args[i]? = some w →
        ∃ s t os, h.Sketch s ∧ h.Sketch t ∧
          combineAt (answers h tables k) .up (m.variance i) s t = some os ∧ z ∈ os ∧ w ∈ os := by
  have hclosed {c : App Ty} (hc : c ∈ cs) : h.Sketch (.app c) :=
    searchClosed_sketch.combineApps (searchClosed_sketch.stays S k) S ha hb e hc
  have hsx := hclosed hx
  have hsy := hclosed hy
  obtain ⟨n, a', b', found, hmeet, hfound, hx⟩ := meetsAt_of_mem_combineApps S htab e ha hb hx
  obtain ⟨n', a'', b'', found', hmeet', hfound', hy⟩ :=
    meetsAt_of_mem_combineApps S htab e ha hb hy
  obtain ⟨zs, rfl, hlz, hz⟩ := combineArgs_eq_some hfound hx
  have hn := S.find_of_mem hmeet.node
  have hn' := S.find_of_mem hmeet'.node
  cases hr : h.raise y n.id with
  | none => exact Or.inl ⟨n, hn, hr⟩
  | some raised =>
      -- one nearest ancestor of the two types descends from the other, so it is the other
      have heq : n' = n := by
        obtain ⟨ws, rfl, -, -⟩ := combineArgs_eq_some hfound' hy
        have hanc := (S.exists_raise_iff hn').1 ⟨raised, hr⟩
        obtain ⟨p, r, hp, hr, hnear⟩ := hmeet.nearest
        obtain ⟨p', r', hp', hr', hnear'⟩ := hmeet'.nearest
        rw [hp] at hp'
        rw [hr] at hr'
        cases hp'
        cases hr'
        have hid : n'.id = n.id := hnear.2 hnear'.1 hanc
        have hni := S.node_of_mem hmeet'.node
        rw [hid, S.node_of_mem hmeet.node] at hni
        exact (Option.some_inj.1 hni).symm
      subst heq
      obtain rfl := Option.some_inj.1 (hmeet.left.symm.trans hmeet'.left)
      obtain rfl := Option.some_inj.1 (hmeet.right.symm.trans hmeet'.right)
      rw [hfound] at hfound'
      cases hfound'
      obtain ⟨ws, rfl, hlw, hw⟩ := combineArgs_eq_some hfound hy
      refine Or.inr ⟨n', hn, hn, S.raise_self (a := ⟨n'.name, ws⟩) hn (hsy.length hn),
        S.raise_self (a := ⟨n'.name, zs⟩) hn (hsx.length hn), fun i z w hzi hwi => ?_⟩
      have hiz : i < zs.length := (List.getElem?_eq_some_iff.1 hzi).1
      have hs := List.getElem?_eq_getElem (l := a'.args) (i := i) (by omega)
      have ht := List.getElem?_eq_getElem (l := b'.args) (i := i) (by omega)
      obtain ⟨os, hos, hzos⟩ := hz i _ _ z hs ht hzi
      obtain ⟨os', hos', hwos⟩ := hw i _ _ w hs ht hwi
      rw [hos] at hos'
      cases hos'
      have hsa := searchClosed_sketch.raise S ha hmeet.left
      have hsb := searchClosed_sketch.raise S hb hmeet.right
      exact ⟨_, _, os, Over.arg hsa hs, Over.arg hsb ht, hos, hzos, hwos⟩

/-- No result is strictly nearer than another one. -/
theorem not_strictlyFulfills : strictlyFulfills h (answers h tables k) y x ≠ some true := by
  intro hstrict
  rw [strictlyFulfills] at hstrict
  obtain ⟨below, hbelow, hstrict⟩ := Option.bind_eq_some_iff.1 hstrict
  cases below with
  | false => cases hstrict
  | true =>
      obtain ⟨m, raised, hm, hr, hargs⟩ := fulfills_app_iff.1 hbelow
      rcases combined_cases S htab ha hb e hx hy with
        ⟨m', hm', hnone⟩ | ⟨m', hm', hmy, hry, hrx, hopt⟩
      · rw [hm] at hm'
        cases hm'
        rw [hr] at hnone
        cases hnone
      · rw [hm] at hm'
        cases hm'
        rw [hr] at hry
        cases hry
        have habove : h.fulfills (k + 1) (.app x) (.app y) = some true := by
          refine fulfills_app_iff.2 ⟨m, x, hmy, hrx, fun i z w hz hw => ?_⟩
          obtain ⟨s, t, os, hs, ht, hos, hzos, hwos⟩ := hopt i z w hz hw
          exact agreeAt_symm_of_options S hs ht hos hzos hwos (hargs i w z hw hz)
        obtain ⟨above, habove', hstrict⟩ := Option.bind_eq_some_iff.1 hstrict
        rw [show above = true from Option.some_inj.1 (habove'.symm.trans habove)] at hstrict
        cases hstrict

/-- Whether one result fulfills another one is known from some round on. -/
theorem eventually_appFulfills : ∀ᶠ m in Filter.atTop, ∃ r, h.appFulfills m y x = some r := by
  rcases combined_cases S htab ha hb e hx hy with ⟨n, hn, hnone⟩ | ⟨n, hn, -, hry, -, hopt⟩
  · refine Filter.Eventually.of_forall fun m => ⟨false, ?_⟩
    rw [appFulfills, appFulfillsWith, hn]
    dsimp only
    rw [hnone]
  · have hall : ∀ᶠ m in Filter.atTop, ∀ (i : Nat) (w z : Ty), y.args[i]? = some w →
        x.args[i]? = some z → ∃ r, agreeAt (h.fulfills m) (n.variance i) w z = some r := by
      refine eventually_positions fun i w z hw hz => ?_
      obtain ⟨s, t, os, hs, ht, hos, hzos, hwos⟩ := hopt i z w hz hw
      obtain ⟨r, hr⟩ := decided_of_options S hs ht hos hzos hwos
      exact hr.mono fun m hm => ⟨r, hm⟩
    filter_upwards [hall] with m hm
    rw [appFulfills, appFulfillsWith, hn]
    dsimp only
    rw [hry]
    exact exists_allM (forall_mem_zip_zipIdx.2 hm)

end Dropped

section Results

variable (S : Sound h) (htab : h.tables = some tables) (ha : h.Sketch (.app a))
  (hb : h.Sketch (.app b)) {k : Nat}
include S htab ha hb

/-- **All that is combined is kept.** -/
theorem mem_common_up {results : List Ty}
    (e : Nearest.common h tables k .up [.app a, .app b] = some results) :
    ∃ j cs, combineApps h tables (answers h tables j) .up a b = some cs ∧
      ∀ r, r ∈ results ↔ ∃ c ∈ cs, r = .app c := by
  obtain ⟨j, rfl⟩ : ∃ j, k = j + 1 := by
    cases k with
    | zero => cases e
    | succ j => exact ⟨j, rfl⟩
  obtain ⟨found, hfound, hkeep⟩ := common_pair.1 e
  obtain ⟨cs, hcs, e⟩ := Option.bind_eq_some_iff.1 hfound
  cases e
  refine ⟨j, cs, hcs, fun r => ?_⟩
  constructor
  · intro hr
    obtain ⟨c, hc, rfl⟩ := List.mem_map.1 (mem_distinct (keep_eq_some hkeep r hr).1)
    exact ⟨c, hc, rfl⟩
  · rintro ⟨c, hc, rfl⟩
    obtain ⟨nearest, hnear, hkept⟩ := mem_keep hkeep (mem_distinct_app.2 (List.mem_map_of_mem hc))
    refine hkept ?_
    rw [isNearest] at hnear
    obtain ⟨nearer, hany, hnear⟩ := Option.bind_eq_some_iff.1 hnear
    cases nearer with
    | false => exact (Option.some_inj.1 hnear).symm
    | true =>
        -- something nearer would be another result, and there is no such result
        obtain ⟨y, hy, hbeyond⟩ := exists_of_anyM hany
        split at hbeyond
        · cases hbeyond
        · obtain ⟨t, ht, happ⟩ := List.mem_filterMap.1 hy
          obtain ⟨y', hy', rfl⟩ := List.mem_map.1 (mem_distinct ht)
          cases happ
          exact absurd hbeyond (not_strictlyFulfills S htab ha hb hcs hc hy')

/-- Once all is combined, the question is answered from some round on. -/
theorem eventually_common_up {cs : List (App Ty)}
    (e : combineApps h tables (answers h tables k) .up a b = some cs) :
    ∀ᶠ m in Filter.atTop,
      Nearest.common h tables m .up [.app a, .app b] = some (distinct (cs.map .app)) := by
  have happs {y : App Ty} (hy : .app y ∈ distinct (cs.map .app)) : y ∈ cs := by
    obtain ⟨y', hy', e⟩ := List.mem_map.1 (mem_distinct hy)
    cases e
    exact hy'
  have hknown : ∀ᶠ m in Filter.atTop, ∀ x ∈ cs, ∀ y ∈ cs, ∃ r, h.appFulfills m y x = some r :=
    eventually_forall_mem fun x hx => eventually_forall_mem fun y hy =>
      eventually_appFulfills S htab ha hb e hx hy
  refine eventually_of_succ ?_
  filter_upwards [hknown, Filter.eventually_ge_atTop k] with m hm hk
  have hcs := combineApps_keeps (answers_kept h tables hk) .up a b e
  refine common_pair.2 ⟨cs.map .app, Option.bind_eq_some_iff.2 ⟨cs, hcs, rfl⟩, ?_⟩
  refine keep_eq_self fun t ht => ?_
  obtain ⟨x, hx, rfl⟩ := List.mem_map.1 (mem_distinct ht)
  refine isNearest_app_iff.2 fun y hy _ => ?_
  -- the comparison comes to an end, and it does not come out true
  have hy := happs hy
  have hnot := not_strictlyFulfills S htab ha hb hcs hx hy
  obtain ⟨below, hbelow⟩ := hm x hx y hy
  obtain ⟨above, habove⟩ := hm y hy x hx
  have hstrict : strictlyFulfills h (answers h tables m) y x = some (below && !above) := by
    rw [strictlyFulfills]
    show (h.appFulfills m y x >>= _) = _
    rw [hbelow]
    cases below with
    | false => rfl
    | true =>
        show (h.appFulfills m x y >>= _) = _
        rw [habove]
        rfl
  show strictlyFulfills h (answers h tables m) y x = some false
  cases hval : (below && !above) with
  | false => rw [hstrict, hval]
  | true => exact absurd (hstrict.trans (congrArg some hval)) hnot

end Results

/-! ## 4. Types without parameters -/

/-- Something comes out for every position of a type where two instances meet. -/
def Combines (h : Hierarchy) (n : Node) (a b : App Ty) : Prop :=
  ∀ (i : Nat) (x y : Ty), a.args[i]? = some x → b.args[i]? = some y →
    ∃ zs, h.Outcome .up (n.variance i) x y zs ∧ zs ≠ []

/-- The questions at the positions of all types where two instances meet come to an end. -/
def Settles (h : Hierarchy) (a b : App Ty) : Prop :=
  ∀ (n : Node) (a' b' : App Ty), h.MeetsAt a b n a' b' → ∀ (i : Nat) (x y : Ty),
    a'.args[i]? = some x → b'.args[i]? = some y → ∃ zs, h.Outcome .up (n.variance i) x y zs

section Plain

variable {u : Node} (S : Sound h) (hu : u ∈ h.nodes) (hp : u.params = [])
include S hu hp

theorem ground_bareType : h.Ground (bareType u.name) := by
  refine over_app_iff.2 ⟨⟨u, S.find_of_mem hu, ?_⟩, nofun⟩
  rw [Node.arity, hp]
  rfl

/-- A type without parameters is fulfilled by the instances of its descendants. -/
theorem typeFulfills_plain_iff (hc : h.Sketch (.app c)) (hn : h.find? c.head = some n) (m : Nat) :
    h.typeFulfills (m + 1) (.app c) (bareType u.name) = some true ↔ h.HasAncestor n.id u.id := by
  have hfind := S.find_of_mem hu
  rw [typeFulfills_of_sketch hc (ground_bareType S hu hp).toOver, bareType, fulfills_app_iff,
    ← S.exists_raise_iff hn]
  constructor
  · rintro ⟨u', raised, hu', hr, -⟩
    rw [hfind] at hu'
    cases hu'
    exact ⟨raised, hr⟩
  · rintro ⟨raised, hr⟩
    exact ⟨u, raised, hfind, hr, fun i x y _ hy => by cases hy⟩

theorem hasAncestor_of_typeFulfills (hc : h.Sketch (.app c)) (hn : h.find? c.head = some n)
    {k : Nat} (hk : h.typeFulfills k (.app c) (bareType u.name) = some true) :
    h.HasAncestor n.id u.id := by
  cases k with
  | zero =>
      rw [typeFulfills_of_sketch hc (ground_bareType S hu hp).toOver] at hk
      cases hk
  | succ m => exact (typeFulfills_plain_iff S hu hp hc hn m).1 hk

end Plain

/-! ### The three parts -/

section Parts

variable (S : Sound h) (htab : h.tables = some tables) (ha : h.Sketch (.app a))
  (hb : h.Sketch (.app b))
include S

/-- Two instances meet below every common ancestor of their types. -/
theorem exists_meetsAt {x y : Node} {target : Nat} (hx : h.find? a.head = some x)
    (hy : h.find? b.head = some y) (hxu : h.HasAncestor x.id target)
    (hyu : h.HasAncestor y.id target) :
    ∃ n a' b', h.MeetsAt a b n a' b' ∧ h.HasAncestor n.id target := by
  obtain ⟨i, hnear, hiu⟩ := exists_nearest S (d := .up) ⟨hxu, hyu⟩
  obtain ⟨n, hn⟩ := S.node_of_ancestor hnear.1.1
  obtain rfl := S.id_eq hn
  obtain ⟨a', ha'⟩ := (S.exists_raise_iff hx).2 hnear.1.1
  obtain ⟨b', hb'⟩ := (S.exists_raise_iff hy).2 hnear.1.2
  exact ⟨n, a', b', ⟨List.mem_of_getElem? hn, ⟨x, y, hx, hy, hnear⟩, ha', hb'⟩, hiu⟩

include ha hb

/-- The arguments of two instances where they meet leave nothing open but `_`. -/
theorem MeetsAt.sketch (hmeet : h.MeetsAt a b n a' b') {i : Nat} {x y : Ty}
    (hx : a'.args[i]? = some x) (hy : b'.args[i]? = some y) : h.Sketch x ∧ h.Sketch y :=
  ⟨Over.arg (searchClosed_sketch.raise S ha hmeet.left) hx,
    Over.arg (searchClosed_sketch.raise S hb hmeet.right) hy⟩

include htab

/-- The search comes to an end if it does at every position. -/
theorem Settles.eventually (hs : h.Settles a b) : ∃ results, ∀ᶠ m in Filter.atTop,
    Nearest.common h tables m .up [.app a, .app b] = some results := by
  have hnode : ∀ n ∈ h.nodes, ∀ᶠ m in Filter.atTop, ∀ a' b', h.MeetsAt a b n a' b' →
      ∃ found, combineArgs (answers h tables m) .up n a' b' = some found := by
    intro n _
    by_cases hex : ∃ a' b', h.MeetsAt a b n a' b'
    · obtain ⟨a', b', hmeet⟩ := hex
      have hall : ∀ᶠ m in Filter.atTop, ∀ (i : Nat) (x y : Ty), a'.args[i]? = some x →
          b'.args[i]? = some y →
            ∃ os, combineAt (answers h tables m) .up (n.variance i) x y = some os := by
        refine eventually_positions fun i x y hx hy => ?_
        obtain ⟨zs, hzs⟩ := hs n a' b' hmeet i x y hx hy
        obtain ⟨hsx, hsy⟩ := hmeet.sketch S ha hb hx hy
        exact (combineAt_of_outcome htab hsx hsy hzs).mono fun m hm => ⟨zs, hm⟩
      filter_upwards [hall] with m hm a'' b'' hmeet'
      obtain rfl := Option.some_inj.1 (hmeet.left.symm.trans hmeet'.left)
      obtain rfl := Option.some_inj.1 (hmeet.right.symm.trans hmeet'.right)
      exact exists_combineArgs hm
    · exact Filter.Eventually.of_forall fun m a' b' hmeet => absurd ⟨a', b', hmeet⟩ hex
  obtain ⟨k, hk⟩ := (eventually_forall_mem hnode).exists
  obtain ⟨cs, hcs⟩ := exists_combineApps_up S htab ha hb fun n a' b' hmeet =>
    hk n hmeet.node a' b' hmeet
  exact ⟨_, eventually_common_up S htab ha hb hcs⟩

/-- There is a result at a type where the instances meet if and only if something comes out for
    each of its positions. -/
theorem exists_result_iff {k : Nat} {results : List Ty} {Q : Node → Prop}
    (e : Nearest.common h tables k .up [.app a, .app b] = some results) :
    (∃ c, .app c ∈ results ∧ ∃ n, h.find? c.head = some n ∧ Q n) ↔
      ∃ n a' b', h.MeetsAt a b n a' b' ∧ Q n ∧ h.Combines n a' b' := by
  obtain ⟨j, cs, hcs, hmem⟩ := mem_common_up S htab ha hb e
  constructor
  · rintro ⟨c, hc, n, hn, hq⟩
    obtain ⟨c', hc, heq⟩ := (hmem _).1 hc
    cases heq
    obtain ⟨n', a', b', found, hmeet, hfound, hc⟩ :=
      meetsAt_of_mem_combineApps S htab hcs ha hb hc
    obtain ⟨zs, rfl, hl, hopt⟩ := combineArgs_eq_some hfound hc
    obtain rfl := Option.some_inj.1 (hn.symm.trans (S.find_of_mem hmeet.node))
    refine ⟨n, a', b', hmeet, hq, fun i x y hx hy => ?_⟩
    have hlx := (List.getElem?_eq_some_iff.1 hx).1
    have hly := (List.getElem?_eq_some_iff.1 hy).1
    have hz := List.getElem?_eq_getElem (l := zs) (i := i) (by omega)
    obtain ⟨os, hos, hz⟩ := hopt i x y _ hx hy hz
    obtain ⟨hsx, hsy⟩ := hmeet.sketch S ha hb hx hy
    exact ⟨os, outcome_of_combineAt htab hsx hsy hos, List.ne_nil_of_mem hz⟩
  · rintro ⟨n, a', b', hmeet, hq, hcomb⟩
    obtain ⟨found, hfound, hsub⟩ := combineArgs_of_meetsAt S htab hcs ha hb hmeet
    have hne : found ≠ [] := by
      refine combineArgs_ne_nil hfound fun i x y hx hy os hos => ?_
      obtain ⟨hsx, hsy⟩ := hmeet.sketch S ha hb hx hy
      obtain ⟨zs, hzs, hne⟩ := hcomb i x y hx hy
      rw [Outcome.unique htab hsx hsy (outcome_of_combineAt htab hsx hsy hos) hzs]
      exact hne
    obtain ⟨c, hc⟩ := List.exists_mem_of_ne_nil found hne
    obtain ⟨zs, rfl, -, -⟩ := combineArgs_eq_some hfound hc
    exact ⟨_, (hmem _).2 ⟨_, hsub _ hc, rfl⟩, n, S.find_of_mem hmeet.node, hq⟩

end Parts

/-- **Which plain supertypes are found.** Take ground instances of a finalized hierarchy and a type
    without parameters that both fulfill. They meet at some type that descends from it. The question
    for their nearest common ancestors comes to an end if the questions at the positions of the
    types where they meet do. Some answer fulfills the given type if and only if something comes out
    for every position of one of the types that descend from it. -/
theorem plain_common_ancestor (hr : Reachable h) (hf : h.isFinalized = true) {u : Node}
    (ha : h.isGround (.app a) = true) (hb : h.isGround (.app b) = true) (hu : u ∈ h.nodes)
    (hp : u.params = []) (hau : ∃ k, h.typeFulfills k (.app a) (bareType u.name) = some true)
    (hbu : ∃ k, h.typeFulfills k (.app b) (bareType u.name) = some true) :
    (∃ n a' b', h.MeetsAt a b n a' b' ∧ h.HasAncestor n.id u.id) ∧
    (h.Settles a b → ∃ results k, ∀ m ≥ k,
      (h.nearestCommon m .up [.app a, .app b]).run = some (.ok results)) ∧
    ∀ rounds results, (h.nearestCommon rounds .up [.app a, .app b]).run = some (.ok results) →
      ((∃ r ∈ results, ∃ k, ∀ m ≥ k, h.typeFulfills m r (bareType u.name) = some true) ↔
        ∃ n a' b', h.MeetsAt a b n a' b' ∧ h.HasAncestor n.id u.id ∧ h.Combines n a' b') := by
  have S := sound_of_reachable hr
  obtain ⟨tables, htab⟩ := Option.isSome_iff_exists.1 hf
  have hsa : h.Sketch (.app a) := (isGround_iff.1 ha).toOver
  have hsb : h.Sketch (.app b) := (isGround_iff.1 hb).toOver
  refine ⟨?_, fun hs => ?_, fun rounds results e => ?_⟩
  · obtain ⟨⟨x, hx, -⟩, -⟩ := over_app_iff.1 hsa
    obtain ⟨⟨y, hy, -⟩, -⟩ := over_app_iff.1 hsb
    obtain ⟨i, hi⟩ := hau
    obtain ⟨j, hj⟩ := hbu
    exact exists_meetsAt S hx hy (hasAncestor_of_typeFulfills S hu hp hsa hx hi)
      (hasAncestor_of_typeFulfills S hu hp hsb hy hj)
  · obtain ⟨results, hres⟩ := hs.eventually S htab hsa hsb
    obtain ⟨k, hk⟩ := Filter.eventually_atTop.1 hres
    exact ⟨results, k, fun m hm => (nearestCommon_pair_eq_ok htab hsa hsb).2 (hk m hm)⟩
  · have hfound := (nearestCommon_pair_eq_ok htab hsa hsb).1 e
    have hsketch : ∀ r ∈ results, h.Sketch r :=
      searchClosed_sketch.common S rounds (by simp [hsa, hsb]) hfound
    rw [← exists_result_iff S htab hsa hsb hfound]
    constructor
    · rintro ⟨r, hr, k, hk⟩
      obtain ⟨-, cs, -, hmem⟩ := mem_common_up S htab hsa hsb hfound
      obtain ⟨c, -, rfl⟩ := (hmem r).1 hr
      obtain ⟨⟨n, hn, -⟩, -⟩ := over_app_iff.1 (hsketch _ hr)
      exact ⟨c, hr, n, hn, hasAncestor_of_typeFulfills S hu hp (hsketch _ hr) hn (hk k le_rfl)⟩
    · rintro ⟨c, hc, n, hn, hanc⟩
      refine ⟨.app c, hc, 1, fun m hm => ?_⟩
      obtain ⟨m, rfl⟩ : ∃ m', m = m' + 1 := ⟨m - 1, by omega⟩
      exact (typeFulfills_plain_iff S hu hp (hsketch _ hc) hn m).2 hanc

/-- Things that hold a number: boxes are read only, cells are not. -/
def vessels : Hierarchy := [
  .declare "number" [],
  .declare "int" [],
  .declare "bool" [],
  .declare "thing" [],
  .declare "box" [⟨"t", .covariant⟩],
  .declare "cell" [⟨"t", .invariant⟩],
  .addParent "int" (bareType "number"),
  .addParent "bool" (bareType "number"),
  .addParent "box" (bareType "thing"),
  .addParent "cell" (bareType "thing"),
  .finalize].foldl perform empty

/-- What things are. -/
def thing : Node := vessels.nodes.get ⟨3, by decide⟩

/-- Two boxes are boxes of `number`, so there is a common ancestor that is a thing. -/
theorem boxes_combined : thing.name = "thing" ∧ (vessels.nearestCommon 9 .up
      [.app ⟨"box", [bareType "int"]⟩, .app ⟨"box", [bareType "bool"]⟩]).run =
        some (.ok [.app ⟨"box", [bareType "number"]⟩]) ∧
    ∃ n a b, vessels.MeetsAt ⟨"box", [bareType "int"]⟩ ⟨"box", [bareType "bool"]⟩ n a b ∧
      vessels.HasAncestor n.id thing.id ∧ vessels.Combines n a b := by
  have e : (vessels.nearestCommon 9 .up
    [.app ⟨"box", [bareType "int"]⟩, .app ⟨"box", [bareType "bool"]⟩]).run =
      some (.ok [.app ⟨"box", [bareType "number"]⟩]) := rfl
  have hthing : ∀ m ≥ 2, vessels.typeFulfills m (.app ⟨"box", [bareType "number"]⟩)
      (bareType thing.name) = some true := by
    intro m hm
    obtain ⟨m, rfl⟩ : ∃ m', m = m' + 2 := ⟨m - 2, by omega⟩
    rfl
  exact ⟨rfl, e, ((plain_common_ancestor ⟨_, rfl⟩ rfl (by decide) (by decide) (List.get_mem _ _) rfl
    ⟨2, rfl⟩ ⟨2, rfl⟩).2.2 9 _ e).1 ⟨_, List.mem_cons_self, 2, hthing⟩⟩

/-- **A plain supertype can be missed.** Two cells are things, and a cell of `int` and a cell of
    `bool` have no cell in common. Cells are their nearest common ancestor, and things are not
    tried. -/
theorem cells_uncombined : Reachable vessels ∧ vessels.isFinalized = true ∧
    vessels.isGround (.app ⟨"cell", [bareType "int"]⟩) = true ∧
    vessels.isGround (.app ⟨"cell", [bareType "bool"]⟩) = true ∧
    thing ∈ vessels.nodes ∧ thing.params = [] ∧
    vessels.typeFulfills 2 (.app ⟨"cell", [bareType "int"]⟩) (bareType thing.name) = some true ∧
    vessels.typeFulfills 2 (.app ⟨"cell", [bareType "bool"]⟩) (bareType thing.name) = some true ∧
    ∀ m, (vessels.nearestCommon (m + 1) .up
      [.app ⟨"cell", [bareType "int"]⟩, .app ⟨"cell", [bareType "bool"]⟩]).run = some (.ok []) :=
  ⟨⟨_, rfl⟩, rfl, by decide, by decide, List.get_mem _ _, rfl, rfl, rfl, fun _ => rfl⟩

end Hierarchy

end Lineage

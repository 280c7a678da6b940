import Lineage.Proofs.Invariant
import Lineage.Proofs.Search

/-!
# Classes of instances that the search does not leave

The search builds its results from its operands: it raises them, takes them apart, merges them,
chooses values for parameters and puts the bounds of two variables together. A class of instances
that is closed under these steps (`SearchClosed`) has all results in it when it has the operands
(`SearchClosed.common`).

Nothing is asked of the hierarchy but what holds in every reachable one.
-/

namespace Lineage

/-- What lists are merged to comes from merging their members. -/
theorem Ty.mergeAll_eq_some : ∀ {xs ys zs : List Ty}, Ty.mergeAll xs ys = some zs →
    zs.length = xs.length ∧ ∀ z ∈ zs, ∃ x ∈ xs, ∃ y ∈ ys, x.merge y = some z
  | [], [], zs, e => by
      cases e
      exact ⟨rfl, nofun⟩
  | [], _ :: _, zs, e => by cases e
  | _ :: _, [], zs, e => by cases e
  | x :: xs, y :: ys, zs, e => by
      rw [Ty.mergeAll] at e
      split at e
      · rename_i z rest hz hrest
        cases e
        obtain ⟨hl, hall⟩ := Ty.mergeAll_eq_some hrest
        refine ⟨by simp [hl], List.forall_mem_cons.2 ⟨?_, fun t ht => ?_⟩⟩
        · exact ⟨x, List.mem_cons_self, y, List.mem_cons_self, hz⟩
        · obtain ⟨x', hx', y', hy', e⟩ := hall t ht
          exact ⟨x', List.mem_cons_of_mem x hx', y', List.mem_cons_of_mem y hy', e⟩
      · cases e

/-- A merge is one of the two where one of them is a variable, and taken position by position
    otherwise. -/
theorem Ty.merge_cases {x y z : Ty} (e : x.merge y = some z) : z = x ∨ z = y ∨
    ∃ f xs ys zs, x = .app ⟨f, xs⟩ ∧ y = .app ⟨f, ys⟩ ∧ z = .app ⟨f, zs⟩ ∧
      zs.length = xs.length ∧ ∀ z ∈ zs, ∃ x ∈ xs, ∃ y ∈ ys, x.merge y = some z := by
  rw [Ty.merge.eq_def] at e
  cases x with
  | app a =>
      cases y with
      | app b =>
          dsimp only at e
          split at e
          · rename_i hhead
            obtain ⟨zs, hzs, rfl⟩ := Option.map_eq_some_iff.1 e
            obtain ⟨hl, hall⟩ := Ty.mergeAll_eq_some hzs
            exact Or.inr (Or.inr ⟨_, _, _, zs, rfl, by rw [hhead], rfl, hl, hall⟩)
          · cases e
      | var w =>
          dsimp only at e
          split at e
          · cases e
          · cases e
            exact Or.inl rfl
  | var v =>
      dsimp only at e
      split at e
      · cases e
        exact Or.inr (Or.inl rfl)
      · cases y with
        | app b => cases e
        | var w =>
            dsimp only at e
            split at e
            · cases e
              exact Or.inl rfl
            · cases e

namespace Hierarchy

open Nearest

variable {h : Hierarchy} {P : Ty → Prop}

/-- A class of instances closed under the steps of the search. -/
structure SearchClosed (h : Hierarchy) (P : Ty → Prop) : Prop where
  app_iff : ∀ {a : App Ty}, P (.app a) ↔
    (∃ n, h.find? a.head = some n ∧ a.args.length = n.arity) ∧ ∀ t ∈ a.args, P t
  anonymous : P .anonymous
  lower : ∀ {v : Var Ty}, P (.var v) → ∀ a ∈ v.lower, P (.app a)
  upper : ∀ {v : Var Ty}, P (.var v) → ∀ a ∈ v.upper, P (.app a)
  /-- Bounds come from bounds, and a range has been checked. -/
  joined : ∀ {v w : Var Ty} {lower upper : List (App Ty)}, P (.var v) → P (.var w) →
    (v.lower = [] → w.lower = [] → lower = []) → (v.upper = [] → w.upper = [] → upper = []) →
    (∀ a ∈ lower, P (.app a)) → (∀ a ∈ upper, P (.app a)) →
    (∀ lo ∈ lower, ∀ up ∈ upper, ∃ k, h.appFulfills k lo up = some true) →
    P (.var ⟨"", lower, upper⟩)

/-- An earlier round does not leave the class. -/
structure Stays (h : Hierarchy) (P : Ty → Prop) (q : Answers) : Prop where
  fulfills : ∃ rounds, q.fulfills = h.fulfills rounds
  constraints : ∃ rounds, q.constraints = Nearest.constraints h rounds
  common : ∀ {d : Direction} {ts found : List Ty}, (∀ t ∈ ts, P t) → q.common d ts = some found →
    ∀ r ∈ found, P r

namespace SearchClosed

variable (C : SearchClosed h P)
include C

/-! ## 1. Parts, records and merges -/

theorem arg {a : App Ty} {t : Ty} (ha : P (.app a)) (ht : t ∈ a.args) : P t :=
  (C.app_iff.1 ha).2 t ht

theorem length {a : App Ty} {n : Node} (ha : P (.app a)) (hn : h.find? a.head = some n) :
    a.args.length = n.arity := by
  obtain ⟨⟨m, hm, hl⟩, -⟩ := C.app_iff.1 ha
  rw [hn] at hm
  cases hm
  exact hl

/-- Members of the class put into a normal instance. -/
theorem mapVars {f : Var Ty → Ty} (hf : ∀ v, P (f v)) {t : Ty} (ht : h.isNormal t = true) :
    P (t.mapVars f) := by
  induction t using Ty.induct with
  | app g ts ih =>
      rw [isNormal_app] at ht
      obtain ⟨⟨n, hn, hl⟩, hts⟩ := isNormalApp_iff.1 ht
      rw [Ty.mapVars_app]
      refine C.app_iff.2 ⟨⟨n, by simpa using hn, by simpa using hl⟩, ?_⟩
      intro t ht
      rw [App.args_mapVars] at ht
      obtain ⟨s, hs, rfl⟩ := List.mem_map.1 ht
      exact ih s hs (hts s hs)
  | var name lower upper =>
      rw [Ty.mapVars_var]
      exact hf _

/-- Members of the class put into a record. -/
theorem put {n : Node} {xs : List Ty} (hxs : ∀ x ∈ xs, P x) {t : Ty} (ht : h.isNormal t = true) :
    P (t.mapVars (n.argument xs)) := by
  refine C.mapVars (fun v => ?_) ht
  rcases Node.argument_eq_or_mem n xs v with e | hmem
  · rw [e]
    exact C.anonymous
  · exact hxs _ hmem

theorem raise (S : Sound h) {a b : App Ty} {target : Nat} (ha : P (.app a))
    (e : h.raise a target = some b) : P (.app b) := by
  obtain ⟨n, r, hn, hr, rfl⟩ := raise_eq_some.1 e
  have hput := C.put (n := n) (C.app_iff.1 ha).2 (S.isNormal_record (find?_mem hn) hr)
  rwa [Ty.mapVars_app] at hput

/-- Merges stay in the class. -/
theorem merge {x y z : Ty} (hx : P x) (hy : P y) (e : x.merge y = some z) : P z := by
  induction x using Ty.induct generalizing y z with
  | app f xs ih =>
      rcases Ty.merge_cases e with rfl | rfl | ⟨f, xs', ys, zs, ex, rfl, rfl, hl, hall⟩
      · exact hx
      · exact hy
      · cases ex
        obtain ⟨⟨n, hn, hlx⟩, hargs⟩ := C.app_iff.1 hx
        refine C.app_iff.2 ⟨⟨n, hn, hl.trans hlx⟩, fun z hz => ?_⟩
        obtain ⟨x, hmem, y, hmem', e⟩ := hall z hz
        exact ih x hmem (hargs x hmem) (C.arg hy hmem') e
  | var name lower upper =>
      rcases Ty.merge_cases e with rfl | rfl | ⟨f, xs', ys, zs, ex, -⟩
      · exact hx
      · exact hy
      · cases ex

theorem foldlM_merge {first z : Ty} {rest : List Ty} (hfirst : P first) (hrest : ∀ x ∈ rest, P x)
    (e : rest.foldlM Ty.merge first = some z) : P z := by
  induction rest generalizing first with
  | nil =>
      cases e
      exact hfirst
  | cons x rest ih =>
      rw [List.foldlM_cons] at e
      obtain ⟨y, hy, e⟩ := Option.bind_eq_some_iff.1 e
      rw [List.forall_mem_cons] at hrest
      exact ih (C.merge hfirst hrest.1 hy) hrest.2 e

/-! ## 2. One parameter and one operand -/

theorem raiseClosed (S : Sound h) : RaiseClosed h P := ⟨C.arg, C.raise S⟩

variable {q : Answers} (Q : Stays h P q)
include Q

/-- What comes out for a parameter is in the class of its constraints. -/
theorem solutions {cs : List Constraint} {zs : List Ty} (hcs : ∀ c ∈ cs, P c.value)
    (e : Nearest.solutions q cs = some zs) : ∀ z ∈ zs, P z := by
  intro z hz
  have hvalues {relation : Variance} :
      ∀ t ∈ valuesOf relation (cs.filter (!·.value.isFree)), P t := by
    intro t ht
    obtain ⟨c, hc, -, rfl⟩ := mem_valuesOf.1 ht
    exact hcs c (List.mem_filter.1 hc).1
  cases solved_of_solutions e z hz with
  | unconstrained _ => exact C.anonymous
  | exact hinv hmerge _ _ =>
      have hall := List.forall_mem_cons.1 (hinv ▸ hvalues)
      exact C.foldlM_merge hall.1 hall.2 hmerge
  | lowest _ _ e hz => exact Q.common hvalues e z hz
  | highest _ _ e hz _ => exact Q.common hvalues e z hz

variable (S : Sound h)
include S

theorem lowerings {a b : App Ty} {target : Node} {found : List (App Ty)} (ht : target ∈ h.nodes)
    (ha : P (.app a)) (e : Nearest.lowerings h q a target = some found) (hb : b ∈ found) :
    b.head = target.name ∧ P (.app b) := by
  obtain ⟨source, record, cs, zs, hs, hr, hm, rfl, hzs⟩ := lowerings_eq_some e hb
  obtain ⟨rounds, hq⟩ := Q.constraints
  rw [hq] at hm
  have hvalues := (C.raiseClosed S).matchedArgs_values (S.matchedArgs_of_matchArgs hm)
    (C.app_iff.1 ha).2
  refine ⟨rfl, C.app_iff.2 ⟨⟨target, S.find_of_mem ht, hzs.length_eq.symm⟩, fun z hz => ?_⟩⟩
  obtain ⟨p, -, os, hos, hmem⟩ := forall₂_exists_left hzs hz
  exact C.solutions Q (fun c hc => hvalues c (List.mem_filter.1 hc).1) hos z hmem

theorem carry {d : Direction} {a b : App Ty} {target : Node} {found : List (App Ty)}
    (ht : target ∈ h.nodes) (ha : P (.app a)) (e : Nearest.carry h q d a target = some found)
    (hb : b ∈ found) : b.head = target.name ∧ P (.app b) := by
  cases d with
  | up =>
      cases e
      have hr : h.raise a target.id = some b := Option.mem_toList.1 hb
      exact ⟨S.raise_head (S.find_of_mem ht) hr, C.raise S ha hr⟩
  | down => exact C.lowerings Q S ht ha e hb

/-! ## 3. Two operands -/

omit S in
theorem combineAt {d : Direction} {v : Variance} {x y z : Ty} {found : List Ty} (hx : P x)
    (hy : P y) (e : Nearest.combineAt q d v x y = some found) (hz : z ∈ found) : P z := by
  have hboth : ∀ t ∈ [x, y], P t := by simp [hx, hy]
  cases v with
  | covariant => exact Q.common hboth e z hz
  | contravariant => exact Q.common hboth e z hz
  | invariant =>
      cases e
      exact C.merge hx hy (Option.mem_toList.1 hz)

theorem combineArgs {d : Direction} {n : Node} {a b c : App Ty} {found : List (App Ty)}
    (hn : n ∈ h.nodes) (ha : P (.app a)) (hb : P (.app b)) (hha : a.head = n.name)
    (hhb : b.head = n.name) (e : Nearest.combineArgs q d n a b = some found) (hc : c ∈ found) :
    P (.app c) := by
  have hfind := S.find_of_mem hn
  have hla : a.args.length = n.arity := C.length ha (hha ▸ hfind)
  have hlb : b.args.length = n.arity := C.length hb (hhb ▸ hfind)
  obtain ⟨zs, rfl, hl, hall⟩ := combineArgs_eq_some e hc
  have hlz : zs.length = n.arity := by omega
  refine C.app_iff.2 ⟨⟨n, hfind, hlz⟩, fun z hz => ?_⟩
  obtain ⟨i, hi⟩ := List.mem_iff_getElem?.1 hz
  have hlt : i < zs.length := (List.getElem?_eq_some_iff.1 hi).1
  have hx := List.getElem?_eq_getElem (l := a.args) (i := i) (by omega)
  have hy := List.getElem?_eq_getElem (l := b.args) (i := i) (by omega)
  obtain ⟨os, hos, hmem⟩ := hall i _ _ z hx hy hi
  exact C.combineAt Q (C.arg ha (List.mem_of_getElem? hx)) (C.arg hb (List.mem_of_getElem? hy))
    hos hmem

theorem combineVia {d : Direction} {n : Node} {a b c : App Ty} {found : List (App Ty)}
    (hn : n ∈ h.nodes) (ha : P (.app a)) (hb : P (.app b))
    (e : Nearest.combineVia h q d a b n = some found) (hc : c ∈ found) : P (.app c) := by
  rw [Nearest.combineVia] at e
  obtain ⟨as, has, e⟩ := Option.bind_eq_some_iff.1 e
  obtain ⟨bs, hbs, e⟩ := Option.bind_eq_some_iff.1 e
  obtain ⟨css, hcss, e⟩ := Option.bind_eq_some_iff.1 e
  cases e
  obtain ⟨xy, hxy, cs, hcs, hc⟩ := mem_flatten_mapM hcss hc
  obtain ⟨x, hx, hxy⟩ := List.mem_flatMap.1 hxy
  obtain ⟨y, hy, rfl⟩ := List.mem_map.1 hxy
  obtain ⟨hhx, hpx⟩ := C.carry Q S hn ha has hx
  obtain ⟨hhy, hpy⟩ := C.carry Q S hn hb hbs hy
  exact C.combineArgs Q S hn hpx hpy hhx hhy hcs hc

theorem combineApps {tables : Tables} {d : Direction} {a b c : App Ty} {found : List (App Ty)}
    (ha : P (.app a)) (hb : P (.app b)) (e : Nearest.combineApps h tables q d a b = some found)
    (hc : c ∈ found) : P (.app c) := by
  rw [Nearest.combineApps] at e
  split at e
  · obtain ⟨css, hcss, e⟩ := Option.bind_eq_some_iff.1 e
    cases e
    obtain ⟨n, hn, cs, hcs, hc⟩ := mem_flatten_mapM hcss hc
    obtain ⟨k, -, hk⟩ := List.mem_filterMap.1 hn
    exact C.combineVia Q S (List.mem_of_getElem? hk) ha hb hcs hc
  · cases e
    cases hc

omit S in
theorem combineVarApp {d : Direction} {v : Var Ty} {a : App Ty} {found : List Ty}
    (hv : P (.var v)) (ha : P (.app a)) (e : Nearest.combineVarApp q d v a = some found) :
    ∀ z ∈ found, P z := by
  have hfacing : ∀ b ∈ facing d v, P (.app b) := by
    cases d with
    | up => exact C.lower hv
    | down => exact C.upper hv
  rw [Nearest.combineVarApp] at e
  split at e
  · cases e
    exact List.forall_mem_singleton.2 ha
  · rename_i b bs hb
    rw [hb] at hfacing
    refine Q.common ?_ e
    intro t ht
    obtain ⟨c, hc, rfl⟩ := List.mem_map.1 ht
    rcases List.mem_cons.1 hc with rfl | hc
    · exact ha
    · exact hfacing c hc

omit C S in
theorem combineBounds {d : Direction} {as bs cs : List (App Ty)} (ha : ∀ a ∈ as, P (.app a))
    (hb : ∀ b ∈ bs, P (.app b)) (e : Nearest.combineBounds q d as bs = some (some cs)) :
    (as = [] → bs = [] → cs = []) ∧ ∀ c ∈ cs, P (.app c) := by
  unfold Nearest.combineBounds at e
  split at e
  · cases e
    exact ⟨fun _ hbs => hbs, hb⟩
  · rename_i hne
    have has : as ≠ [] := fun hnil => hne (by rw [hnil]; rfl)
    split at e
    · cases e
      exact ⟨fun hnil => absurd hnil has, ha⟩
    · obtain ⟨found, hfound, e⟩ := Option.bind_eq_some_iff.1 e
      have hall : ∀ t ∈ (as ++ bs).map Ty.app, P t := by
        intro t ht
        obtain ⟨c, hc, rfl⟩ := List.mem_map.1 ht
        rcases List.mem_append.1 hc with hc | hc
        · exact ha c hc
        · exact hb c hc
      refine ⟨fun hnil => absurd hnil has, fun c hc => ?_⟩
      have hcs : cs = found.filterMap Ty.app? := by
        split at e
        · cases e
        · cases e
          rfl
      rw [hcs] at hc
      obtain ⟨t, ht, happ⟩ := List.mem_filterMap.1 hc
      cases t with
      | var w => cases happ
      | app b =>
          cases happ
          exact Q.common hall hfound _ ht

omit S in
theorem combineVars {d : Direction} {v w : Var Ty} {found : List Ty} (hv : P (.var v))
    (hw : P (.var w)) (e : Nearest.combineVars h q d v w = some found) : ∀ z ∈ found, P z := by
  unfold Nearest.combineVars at e
  obtain ⟨lower, hlower, e⟩ := Option.bind_eq_some_iff.1 e
  cases lower with
  | none =>
      cases e
      exact nofun
  | some lower =>
      obtain ⟨upper, hupper, e⟩ := Option.bind_eq_some_iff.1 e
      cases upper with
      | none =>
          cases e
          exact nofun
      | some upper =>
          obtain ⟨consistent, hcon, e⟩ := Option.bind_eq_some_iff.1 e
          cases consistent with
          | false =>
              cases e
              exact nofun
          | true =>
              cases e
              obtain ⟨hlnil, hl⟩ := combineBounds Q (C.lower hv) (C.lower hw) hlower
              obtain ⟨hunil, hu⟩ := combineBounds Q (C.upper hv) (C.upper hw) hupper
              obtain ⟨rounds, hq⟩ := Q.fulfills
              refine List.forall_mem_singleton.2 (C.joined hv hw hlnil hunil hl hu ?_)
              intro lo hlo up hup
              have hrange := allM_eq_true.1 (allM_eq_true.1 hcon lo hlo) up hup
              rw [hq] at hrange
              exact ⟨rounds, hrange⟩

theorem combine {tables : Tables} {d : Direction} {x y : Ty} {found : List Ty} (hx : P x)
    (hy : P y) (e : Nearest.combine h tables q d x y = some found) : ∀ z ∈ found, P z := by
  cases x with
  | app a =>
      cases y with
      | app b =>
          obtain ⟨cs, hcs, e⟩ := Option.bind_eq_some_iff.1 e
          cases e
          intro z hz
          obtain ⟨c, hc, rfl⟩ := List.mem_map.1 hz
          exact C.combineApps Q S hx hy hcs hc
      | var w => exact C.combineVarApp Q hy hx e
  | var v =>
      cases y with
      | app b => exact C.combineVarApp Q hx hy e
      | var w => exact C.combineVars Q hx hy e

/-! ## 4. All operands -/

theorem takeIn {tables : Tables} {d : Direction} {results found : List Ty} {operand : Ty}
    (hr : ∀ t ∈ results, P t) (ho : P operand)
    (e : Nearest.takeIn h tables q d results operand = some found) : ∀ r ∈ found, P r := by
  intro r hmem
  obtain ⟨zss, hzss, e⟩ := Option.bind_eq_some_iff.1 e
  obtain ⟨hdistinct, -⟩ := keep_eq_some e r hmem
  obtain ⟨t, ht, zs, hzs, hz⟩ := mem_flatten_mapM hzss (mem_distinct hdistinct)
  exact C.combine Q S (hr t ht) ho hzs r hz

theorem commonWith {tables : Tables} {d : Direction} {ts found : List Ty} (hts : ∀ t ∈ ts, P t)
    (e : Nearest.commonWith h tables q d ts = some found) : ∀ r ∈ found, P r := by
  cases ts with
  | nil =>
      cases e
      exact nofun
  | cons t ts =>
      rw [List.forall_mem_cons] at hts
      -- the running results are in the class after every operand
      have hrun (ts results : List Ty) (hr : ∀ r ∈ results, P r) (hts : ∀ t ∈ ts, P t)
          (e : ts.foldlM (Nearest.takeIn h tables q d) results = some found) :
          ∀ r ∈ found, P r := by
        induction ts generalizing results with
        | nil =>
            cases e
            exact hr
        | cons o ts ih =>
            rw [List.foldlM_cons] at e
            obtain ⟨next, hnext, e⟩ := Option.bind_eq_some_iff.1 e
            rw [List.forall_mem_cons] at hts
            exact ih next (C.takeIn Q S hr hts.1 hnext) hts.2 e
      exact hrun ts [t] (List.forall_mem_singleton.2 hts.1) hts.2 e

omit Q in
/-- **The search does not leave a closed class**, in any direction and any number of rounds. -/
theorem common {tables : Tables} (rounds : Nat) : ∀ {d : Direction} {ts found : List Ty},
    (∀ t ∈ ts, P t) → Nearest.common h tables rounds d ts = some found → ∀ r ∈ found, P r := by
  induction rounds with
  | zero => exact fun _ e => nomatch e
  | succ rounds ih => exact fun hts e => C.commonWith ⟨⟨rounds, rfl⟩, ⟨rounds, rfl⟩, ih⟩ S hts e

end SearchClosed

end Hierarchy

end Lineage

import Lineage.Proofs.Pair
import Mathlib.Data.List.Perm.Subperm

/-!
# Exposed parameters

A parameter is exposed in a record where it stands outside invariant places. A hierarchy is
`Faithful` if its records expose every parameter at most once, and with its declared variance.

Then raising exposes nothing twice (`Faithful.exposed_raise`), and a record can be matched against
everything that it fulfills with some arguments in it. The match comes to an end, the arguments
meet all of its constraints, and at most one constraint on a parameter is not an exact one
(`Faithful.exists_fitted`).
-/

namespace Lineage

open Nearest

/-! ## 1. Lists -/

section Lists

variable {α β : Type}

theorem subperm_flatMap_right {xs ys : List α} (hs : xs.Subperm ys) (f : α → List β) :
    (xs.flatMap f).Subperm (ys.flatMap f) := by
  obtain ⟨zs, hperm, hsub⟩ := hs
  exact ⟨zs.flatMap f, hperm.flatMap_right f, hsub.flatMap f⟩

theorem subperm_flatMap_left {xs : List α} {f g : α → List β}
    (hs : ∀ x ∈ xs, (f x).Subperm (g x)) : (xs.flatMap f).Subperm (xs.flatMap g) := by
  induction xs with
  | nil => exact List.Subperm.refl _
  | cons x xs ih =>
      rw [List.forall_mem_cons] at hs
      rw [List.flatMap_cons, List.flatMap_cons]
      exact hs.1.append (ih hs.2)

/-- The positions of a list, taken from the pairs with another one. -/
theorem zipIdx_eq_map_zip {xs : List α} {ys : List β} (hl : xs.length = ys.length) :
    xs.zipIdx = (xs.zip ys).zipIdx.map fun e => (e.1.1, e.2) := by
  refine List.ext_getElem (by simp [hl]) fun i hi hj => ?_
  simp

end Lists

/-- The parameters with their declared variances. -/
def Node.signature (n : Node) : List (String × Variance) :=
  n.params.map fun p => (p.name, p.variance)

namespace Hierarchy

variable {h : Hierarchy}

/-! ## 2. Exposure -/

mutual
/-- The named variables of an instance outside invariant places, each with the variance of its
    place, if the instance itself stands at a place of variance `v`. -/
def exposed (h : Hierarchy) (v : Variance) : Ty → List (String × Variance)
  | .app a => h.exposedApp v a
  | .var w => if v = .invariant ∨ w.isAnonymous = true then [] else [(w.name, v)]
/-- `exposed` for an application. -/
def exposedApp (h : Hierarchy) (v : Variance) : App Ty → List (String × Variance)
  | ⟨head, args⟩ => h.exposedAll v ((h.find? head).elim (fun _ => .invariant) Node.variance) 0 args
/-- `exposed` for the arguments from position `i` on. -/
def exposedAll (h : Hierarchy) (v : Variance) (variance : Nat → Variance) (i : Nat) :
    List Ty → List (String × Variance)
  | [] => []
  | t :: ts => h.exposed (v.compose (variance i)) t ++ h.exposedAll v variance (i + 1) ts
end

/-- Every record exposes a parameter at most once, and with its declared variance. -/
def Faithful (h : Hierarchy) : Prop :=
  ∀ n ∈ h.nodes, ∀ e ∈ n.ancestors.entries, (h.exposedApp .covariant e.2).Subperm n.signature

instance (h : Hierarchy) : Decidable h.Faithful := inferInstanceAs (Decidable
  (∀ n ∈ h.nodes, ∀ e ∈ n.ancestors.entries, (h.exposedApp .covariant e.2).Subperm n.signature))

section Exposed

variable {n m : Node} {v : Variance} {a b : App Ty}

theorem exposedAll_eq {variance : Nat → Variance} {ts : List Ty} {i : Nat} :
    h.exposedAll v variance i ts =
      (ts.zipIdx i).flatMap fun e => h.exposed (v.compose (variance e.2)) e.1 := by
  induction ts generalizing i with
  | nil => rfl
  | cons t ts ih => rw [exposedAll, ih, List.zipIdx_cons, List.flatMap_cons]

theorem exposed_app (hm : h.find? a.head = some m) : h.exposed v (.app a) =
    a.args.zipIdx.flatMap fun e => h.exposed (v.compose (m.variance e.2)) e.1 := by
  obtain ⟨f, as⟩ := a
  have hm : h.find? f = some m := hm
  rw [exposed, exposedApp, hm, exposedAll_eq]
  rfl

theorem exposed_anonymous : h.exposed v .anonymous = [] := by
  rw [Ty.anonymous, exposed]
  exact if_pos (Or.inr rfl)

/-- Nothing is exposed at an invariant place. -/
theorem exposed_invariant (t : Ty) : h.exposed .invariant t = [] := by
  induction t using Ty.induct with
  | app f as ih =>
      rw [exposed, exposedApp, exposedAll_eq, List.flatMap_eq_nil_iff]
      intro e he
      exact ih e.1 (List.fst_mem_of_mem_zipIdx he)
  | var name lower upper => rw [exposed, if_pos (Or.inl rfl)]

/-- What is put in is exposed where the variables are. -/
theorem exposed_put (hn : n.paramIndex? "" = none) {p : Ty} (hp : h.isNormal p = true)
    (xs : List Ty) : h.exposed v (p.mapVars (n.argument xs)) =
      (h.exposed v p).flatMap fun e => h.exposed e.2 (n.argument xs (.free e.1)) := by
  induction p using Ty.induct generalizing v with
  | app f as ih =>
      obtain ⟨⟨m, hm, -⟩, has⟩ := isNormalApp_iff.1 (isNormal_app.symm.trans hp)
      have hm' : h.find? ((App.mk f as).mapVars (n.argument xs)).head = some m := by
        rw [App.head_mapVars]
        exact hm
      rw [Ty.mapVars_app, exposed_app hm', exposed_app hm, App.args_mapVars, List.zipIdx_map,
        List.flatMap_map, List.flatMap_assoc]
      refine List.flatMap_congr fun e he => ?_
      have hmem := List.fst_mem_of_mem_zipIdx he
      exact ih e.1 hmem (has e.1 hmem)
  | var name lower upper =>
      rw [Ty.mapVars_var]
      by_cases hv : v = .invariant
      · subst hv
        rw [exposed_invariant, exposed_invariant]
        rfl
      · by_cases hname : name = ""
        · subst hname
          have hnone : h.exposed v (.var ⟨"", lower, upper⟩) = [] := by
            rw [exposed]
            exact if_pos (Or.inr rfl)
          rw [hnone]
          show h.exposed v (n.argument xs (.free "")) = []
          rw [Node.argument_anonymous hn, exposed_anonymous]
        · have hnot : ¬ (v = .invariant ∨ (Var.mk name lower upper).isAnonymous = true) := by
            simp [hv, hname, Var.isAnonymous]
          rw [exposed, if_neg hnot, List.flatMap_cons, List.flatMap_nil, List.append_nil]
          rfl

/-- The declared parameters of a type stand for the arguments. -/
theorem flatMap_signature (hn : (n.params.map Param.name).Nodup) {args : List Ty}
    (hl : args.length = n.arity) {f : Ty → Variance → List (String × Variance)} :
    (n.signature.flatMap fun e => f (n.argument args (.free e.1)) e.2) =
      args.zipIdx.flatMap fun e => f e.1 (n.variance e.2) := by
  rw [List.flatMap_def, List.flatMap_def]
  congr 1
  refine List.ext_getElem (by simp [Node.signature, hl, Node.arity]) fun i hi hj => ?_
  have hlt : i < n.params.length := by simpa [Node.signature] using hi
  have hlt' : i < args.length := by rwa [hl]
  have hp := List.getElem?_eq_getElem hlt
  have hx := List.getElem?_eq_getElem hlt'
  have harg : n.argument args (.free n.params[i].name) = args[i] :=
    Node.argument_of_index (Node.paramIndex?_of_nodup hn hp) hx
  simp [Node.signature, Node.variance, harg, hlt]

variable (F : h.Faithful) (S : Sound h) (N : Named h)
include F S N

/-- **Raising exposes nothing that was not exposed before, and nothing twice.** -/
theorem Faithful.exposed_raise {target : Nat} (ha : h.isNormal (.app a) = true)
    (e : h.raise a target = some b) :
    (h.exposed .covariant (.app b)).Subperm (h.exposed .covariant (.app a)) := by
  obtain ⟨n, r, hn, hr, rfl⟩ := raise_eq_some.1 e
  have hmem := find?_mem hn
  obtain ⟨⟨n', hn', hl⟩, -⟩ := isNormalApp_iff.1 (isNormal_app.symm.trans ha)
  rw [hn] at hn'
  cases hn'
  have hrec : (h.exposed .covariant (.app r)).Subperm n.signature := by
    rw [exposed]
    exact F n hmem _ (S.mem_entries hmem hr)
  have hput := exposed_put (v := .covariant) (N n hmem) (S.isNormal_record hmem hr) a.args
  rw [Ty.mapVars_app] at hput
  rw [Node.substitute, hput, exposed_app hn]
  simp only [Variance.compose_covariant]
  rw [← flatMap_signature (S.params_nodup hmem) hl (f := fun t v => h.exposed v t)]
  exact subperm_flatMap_right hrec _

end Exposed

/-! ## 3. Matching -/

/-- The constraints that leave their parameter a range, as parameters with a relation. -/
def loose (cs : List Constraint) : List (String × Variance) :=
  (cs.filter (·.relation ≠ .invariant)).map fun c => (c.param, c.relation)

/-- Arguments meet a constraint on a parameter. -/
structure Met (h : Hierarchy) (k : Nat) (n : Node) (xs : List Ty) (c : Constraint) : Prop where
  sketch : h.Sketch c.value
  agrees : agreeAt (h.fulfills k) c.relation (n.argument xs (.free c.param)) c.value = some true

/-- A match comes to an end with constraints that the arguments meet. Only exposed parameters are
    left a range. -/
structure Fitted (h : Hierarchy) (k : Nat) (n : Node) (xs : List Ty) (v : Variance) (p y : Ty)
    (cs : List Constraint) : Prop where
  found : ∀ᶠ m in Filter.atTop, constraints h m v p y = some (some cs)
  loose_exposed : (loose cs).Subperm (h.exposed v p)
  met : ∀ c ∈ cs, h.Met k n xs c

section Match

variable {n m : Node} {v : Variance} {p y p' y' : App Ty} {k : Nat} {xs : List Ty}

theorem loose_flatMap {α : Type} (es : List α) (f : α → List Constraint) :
    loose (es.flatMap f) = es.flatMap fun e => loose (f e) := by
  rw [loose, List.filter_flatMap, List.map_flatMap]
  rfl

theorem matchAll_of_forall {α : Type} {f : α → Option Match} {es : List α}
    {found : α → List Constraint} (hf : ∀ e ∈ es, f e = some (some (found e))) :
    matchAll f es = some (some (es.flatMap found)) := by
  induction es with
  | nil => rfl
  | cons e es ih =>
      rw [List.forall_mem_cons] at hf
      rw [matchAll, hf.1, ih hf.2]
      rfl

/-- Pattern and value are matched where they meet. -/
theorem Sound.matchApp_of_meets (S : Sound h) {rec : Variance → Ty → Ty → Option Match}
    (hm : h.Meets p y m v p' y') : matchApp h rec v p y = matchArgs rec v m p'.args y'.args := by
  cases hm with
  | raised hn hr =>
      have hhead : h.find? p'.head = some m := by rwa [S.raise_head hn hr]
      simp only [matchApp, hn, hr, Option.bind_some, matchSame, hhead]
  | lowered hn hr => simp only [matchApp, hn, hr, Option.bind_some, matchSame]
  | level hn hhead => simp only [matchApp, if_pos hhead, matchSame, hn]

theorem Fitted.later {q z : Ty} {cs : List Constraint} (hf : h.Fitted k n xs v q z cs) :
    h.Fitted (k + 1) n xs v q z cs where
  found := hf.found
  loose_exposed := hf.loose_exposed
  met := fun c hc => ⟨(hf.met c hc).sketch,
    agreeAt_keeps (h.fulfills_keeps (Nat.le_succ k)) _ _ _ (hf.met c hc).agrees⟩

/-- A variable of the pattern gives one constraint or none. -/
theorem fitted_var {s : Var Ty} {t : Ty} (ht : h.Sketch t)
    (e : agreeAt (h.fulfills k) v (n.argument xs s) t = some true) :
    ∃ cs, h.Fitted k n xs v (.var s) t cs := by
  have hfound (cs : List Constraint)
      (hcs : (if s.isAnonymous then [] else [⟨s.name, t, v⟩]) = cs) :
      ∀ᶠ m in Filter.atTop, constraints h m v (.var s) t = some (some cs) := by
    refine eventually_of_succ (Filter.Eventually.of_forall fun m => ?_)
    rw [constraints, matchWith, hcs]
  by_cases hs : s.isAnonymous = true
  · exact ⟨[], hfound [] (if_pos hs), List.nil_subperm, fun _ hc => absurd hc List.not_mem_nil⟩
  · refine ⟨[⟨s.name, t, v⟩], hfound _ (if_neg hs), ?_, ?_⟩
    · by_cases hv : v = .invariant
      · simp [loose, hv]
      · simp [loose, exposed, hv, hs]
    · intro c hc
      rw [List.mem_singleton] at hc
      subst hc
      exact ⟨ht, e⟩

/-- A value that leaves everything open gives none. -/
theorem fitted_open (s : Var Ty) : h.Fitted k n xs v (.app p) (.var s) [] where
  found := eventually_of_succ (Filter.Eventually.of_forall fun _ => rfl)
  loose_exposed := List.nil_subperm
  met := nofun

variable (F : h.Faithful) (S : Sound h) (N : Named h)
include F S N

/-- A match of two applications is put together from the positions where they meet. -/
theorem Faithful.exists_fitted_app (hp : h.isNormal (.app p) = true) (hy : h.Sketch (.app y))
    (hm : h.Meets p y m v p' y')
    (hargs : ∀ (i : Nat) (q z : Ty), p'.args[i]? = some q → y'.args[i]? = some z →
      h.isNormal q = true → h.Sketch z →
        ∃ cs, h.Fitted k n xs (v.compose (m.variance i)) q z cs) :
    ∃ cs, h.Fitted k n xs v (.app p) (.app y) cs := by
  have hp' : h.isNormal (.app p') = true :=
    hm.pattern_of (P := fun q => h.isNormal (.app q) = true) hp fun _ => S.isNormal_raise hp
  have hy' : h.Sketch (.app y') :=
    hm.value_of (P := fun z => h.Sketch (.app z)) hy fun _ => searchClosed_sketch.raise S hy
  obtain ⟨hm', hhead⟩ := S.meets_find hm
  obtain ⟨⟨m', hm'', hlp⟩, hnormal⟩ := isNormalApp_iff.1 (isNormal_app.symm.trans hp')
  obtain rfl := Option.some_inj.1 (hm'.symm.trans hm'')
  have hly := hy'.length (hhead ▸ hm')
  have hall : ∀ (i : Nat) (q z : Ty), ∃ cs, p'.args[i]? = some q → y'.args[i]? = some z →
      h.Fitted k n xs (v.compose (m.variance i)) q z cs := by
    intro i q z
    by_cases hi : p'.args[i]? = some q ∧ y'.args[i]? = some z
    · obtain ⟨cs, hcs⟩ := hargs i q z hi.1 hi.2 (hnormal q (List.mem_of_getElem? hi.1))
        (hy'.arg hi.2)
      exact ⟨cs, fun _ _ => hcs⟩
    · exact ⟨[], fun hq hz => absurd ⟨hq, hz⟩ hi⟩
  choose found hfound using hall
  have hat : ∀ e ∈ (p'.args.zip y'.args).zipIdx,
      h.Fitted k n xs (v.compose (m.variance e.2)) e.1.1 e.1.2 (found e.2 e.1.1 e.1.2) :=
    forall_mem_zip_zipIdx.2 hfound
  refine ⟨(p'.args.zip y'.args).zipIdx.flatMap fun e => found e.2 e.1.1 e.1.2, ?_, ?_, ?_⟩
  · refine eventually_of_succ ?_
    filter_upwards [eventually_positions fun i q z hq hz => (hfound i q z hq hz).found] with r hr
    rw [constraints, matchWith, S.matchApp_of_meets hm]
    exact matchAll_of_forall (forall_mem_zip_zipIdx.2 hr)
  · have hsub : (h.exposed v (.app p')).Subperm (h.exposed v (.app p)) := by
      cases hm with
      | raised _ hr => exact F.exposed_raise S N hp hr
      | lowered _ _ => exact List.Subperm.refl _
      | level _ _ => exact List.Subperm.refl _
    refine List.Subperm.trans ?_ hsub
    rw [loose_flatMap, exposed_app hm', zipIdx_eq_map_zip (hlp.trans hly.symm), List.flatMap_map]
    exact subperm_flatMap_left fun e he => (hat e he).loose_exposed
  · intro c hc
    obtain ⟨e, he, hc⟩ := List.mem_flatMap.1 hc
    exact (hat e he).met c hc

/-- At an invariant place the match follows the pattern. -/
theorem Faithful.exists_fitted_invariant (hxs : ∀ x ∈ xs, h.Sketch x) {q z : Ty}
    (hq : h.isNormal q = true) (hz : h.Sketch z)
    (e : agreeAt (h.fulfills k) .invariant (q.mapVars (n.argument xs)) z = some true) :
    ∃ cs, h.Fitted k n xs .invariant q z cs := by
  induction q using Ty.induct generalizing z with
  | var name lower upper => exact fitted_var hz (by rwa [Ty.mapVars_var] at e)
  | app f qs ih =>
      cases z with
      | var s => exact ⟨[], fitted_open s⟩
      | app y =>
          have hput := searchClosed_sketch.put (n := n) hxs hq
          rw [Ty.mapVars_app] at e hput
          obtain ⟨c, hqc, hyc⟩ := (agreeAt_invariant_iff hput hz).1 e
          obtain ⟨c, rfl, hqc⟩ := Ty.app_covers_iff.1 hqc
          obtain ⟨hhead, hqargs⟩ := App.covers_iff.1 hqc
          obtain ⟨hhead', hyargs⟩ := App.covers_iff.1 (Ty.app_covers_app.1 hyc)
          obtain ⟨⟨m, hm, -⟩, hqs⟩ := (isNormal_app_iff f qs).1 hq
          refine F.exists_fitted_app S N hq hz
            (.level hm (hhead.trans hhead'.symm)) fun i q z hqi hzi hnq hsz => ?_
          obtain ⟨t, hti, hzt⟩ := forall₂_getElem?_right hyargs.flip hzi
          obtain ⟨q', hqi', hqt⟩ := forall₂_getElem?_right hqargs hti
          rw [App.args_mapVars, List.getElem?_map, hqi] at hqi'
          cases hqi'
          exact ih q (List.mem_of_getElem? hqi) hnq hsz
            ((agreeAt_invariant_iff (searchClosed_sketch.put hxs hnq) hsz).2 ⟨t, hqt, hzt⟩)

/-- **A record can be matched against what it fulfills with some arguments in it.** -/
theorem Faithful.exists_fitted (hxs : ∀ x ∈ xs, h.Sketch x) (hn : n ∈ h.nodes) {q z : Ty}
    (hq : h.isNormal q = true) (hz : h.Sketch z)
    (e : agreeAt (h.fulfills k) v (q.mapVars (n.argument xs)) z = some true) :
    ∃ cs, h.Fitted k n xs v q z cs := by
  induction k generalizing v q z with
  | zero =>
      cases v with
      | covariant => cases e
      | contravariant => cases e
      | invariant => exact F.exists_fitted_invariant S N hxs hq hz e
  | succ k ih =>
      cases q with
      | var s => exact fitted_var hz (by rwa [Ty.mapVars_var] at e)
      | app p =>
          cases z with
          | var s => exact ⟨[], fitted_open s⟩
          | app y =>
              cases v with
              | invariant => exact F.exists_fitted_invariant S N hxs hq hz e
              | covariant =>
                  rw [Ty.mapVars_app] at e
                  obtain ⟨m, raised, hm, hr, hargs⟩ := fulfills_app_iff.1 e
                  have hr : h.raise (n.substitute p xs) m.id = some raised := hr
                  rw [raise_substitute (N n hn)] at hr
                  obtain ⟨p', hp', rfl⟩ := Option.map_eq_some_iff.1 hr
                  refine F.exists_fitted_app S N hq hz (.raised hm hp')
                    fun i q z hqi hzi hnq hsz => ?_
                  have hput : (n.substitute p' xs).args[i]? = some (q.mapVars (n.argument xs)) := by
                    rw [Node.args_substitute, List.getElem?_map, hqi]
                    rfl
                  obtain ⟨cs, hcs⟩ := ih hnq hsz (hargs i _ z hput hzi)
                  rw [Variance.compose_covariant]
                  exact ⟨cs, hcs.later⟩
              | contravariant =>
                  rw [Ty.mapVars_app] at e
                  obtain ⟨m, raised, hm, hr, hargs⟩ := fulfills_app_iff.1 e
                  rw [App.head_mapVars] at hm
                  refine F.exists_fitted_app S N hq hz (.lowered hm hr)
                    fun i q z hqi hzi hnq hsz => ?_
                  have hput : (p.mapVars (n.argument xs)).args[i]? =
                      some (q.mapVars (n.argument xs)) := by
                    rw [App.args_mapVars, List.getElem?_map, hqi]
                    rfl
                  have hsq : h.Sketch (q.mapVars (n.argument xs)) := searchClosed_sketch.put hxs hnq
                  obtain ⟨cs, hcs⟩ := ih hnq hsz
                    ((agreeAt_swap hsz hsq).trans (hargs i z _ hzi hput))
                  exact ⟨cs, hcs.later⟩

end Match

end Hierarchy

end Lineage

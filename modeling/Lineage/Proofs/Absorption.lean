import Lineage.Proofs.Exposure
import Lineage.Proofs.Table

/-!
# Related operands

If one ground instance fulfills another one, the lower one is their only nearest common descendant.
Subtyping raises the lower instance and compares at the upper type, while the search takes the upper
instance down and combines at the lower type. In a faithful hierarchy the two ways agree:

* `exists_solution`, `exists_lowering`: there is one way to take the upper instance down, and what
  comes out for a parameter covers the argument of the lower instance or agrees with it at the
  variance of the parameter;
* `absorbs_of_covers`, `Faithful.absorbs_of_agreeAt`: so the lower instance comes out at every
  position, and nothing else.

Where a record exposes an invariant parameter, the instance taken down is too special at an
invariant position, and nothing comes out.
-/

namespace Lineage

open Nearest

/-! ## 1. Lists -/

section Lists

variable {α β κ : Type}

/-- One option for each position leaves one way to choose. -/
theorem choices_single {options : α → Option (List β)} {xs : List α} {g : α → β}
    (ho : ∀ x ∈ xs, options x = some [g x]) : choices options xs = some [xs.map g] := by
  induction xs with
  | nil => rfl
  | cons x xs ih =>
      rw [List.forall_mem_cons] at ho
      rw [choices, ho.1, ih ho.2]
      rfl

theorem matchAll_map {f : β → Option Match} {g : α → β} {xs : List α} :
    matchAll f (xs.map g) = matchAll (fun x => f (g x)) xs := by
  induction xs with
  | nil => rfl
  | cons x xs ih => rw [List.map_cons, matchAll, matchAll, ih]

/-- A key occurs once in a list without double keys. -/
theorem filter_key_eq [DecidableEq κ] {f : α → κ} {xs : List α} (hn : (xs.map f).Nodup) {x : α}
    (hx : x ∈ xs) : xs.filter (fun y => f y = f x) = [x] := by
  induction xs with
  | nil => cases hx
  | cons y ys ih =>
      rw [List.map_cons, List.nodup_cons] at hn
      rcases List.mem_cons.1 hx with rfl | hx
      · rw [List.filter_cons_of_pos (by simp), List.filter_eq_nil_iff.2 ?_]
        intro z hz
        simp only [decide_eq_true_eq]
        intro heq
        exact hn.1 (heq ▸ List.mem_map_of_mem hz)
      · have hne : f y ≠ f x := fun heq => hn.1 (heq ▸ List.mem_map_of_mem hx)
        rw [List.filter_cons_of_neg (by simpa using hne)]
        exact ih hn.2 hx

end Lists

namespace Hierarchy

variable {h : Hierarchy} {tables : Tables}

/-! ## 2. One parameter -/

/-- Leaving more open keeps instances fulfilling each other. -/
theorem fulfills_of_covers (S : Sound h) (N : Named h) {k : Nat} {x y s t : Ty} (hx : h.Sketch x)
    (hy : h.Sketch y) (hs : h.Sketch s) (ht : h.Sketch t) (hxs : x.Covers s) (hyt : y.Covers t)
    (e : h.fulfills k s t = some true) : h.fulfills k x y = some true := by
  induction k generalizing x y s t with
  | zero => cases e
  | succ k ih =>
      cases x with
      | var w =>
          rw [hx.var]
          cases y with
          | var w' =>
              rw [hy.var]
              rfl
          | app b => rfl
      | app a =>
          cases y with
          | var w =>
              rw [hy.var]
              rfl
          | app b =>
              obtain ⟨s, rfl, has⟩ := Ty.app_covers_iff.1 hxs
              obtain ⟨t, rfl, hbt⟩ := Ty.app_covers_iff.1 hyt
              obtain ⟨hhead, hargs⟩ := App.covers_iff.1 has
              obtain ⟨hhead', hargs'⟩ := App.covers_iff.1 hbt
              obtain ⟨n, raised, hn, hr, hall⟩ := fulfills_app_iff.1 e
              obtain ⟨m, r, hm, hrec, rfl⟩ := raise_eq_some.1 hr
              have hra := raise_of_record (a := a) (hhead ▸ hm) hrec
              refine fulfills_app_iff.2 ⟨n, _, hhead' ▸ hn, hra, fun i z w hz hw => ?_⟩
              -- a record covers the same record with more filled in
              have hcov := Node.substitute_covers (N m (find?_mem hm)) (App.covers_refl r) hargs
              obtain ⟨z', hz', hzz⟩ :=
                forall₂_getElem?_right (App.covers_iff.1 hcov).2.flip hz
              obtain ⟨w', hw', hww⟩ := forall₂_getElem?_right hargs'.flip hw
              have hsz := Over.arg (searchClosed_sketch.raise S hx hra) hz
              have hsz' := Over.arg (searchClosed_sketch.raise S hs hr) hz'
              have hagree := hall i z' w' hz' hw'
              cases hv : n.variance i with
              | covariant =>
                  rw [hv] at hagree
                  exact ih hsz (hy.arg hw) hsz' (ht.arg hw') hzz hww hagree
              | contravariant =>
                  rw [hv] at hagree
                  exact ih (hy.arg hw) hsz (ht.arg hw') hsz' hww hzz hagree
              | invariant =>
                  rw [hv] at hagree
                  obtain ⟨c, hzc, hwc⟩ := (agreeAt_invariant_iff hsz' (ht.arg hw')).1 hagree
                  exact (agreeAt_invariant_iff hsz (hy.arg hw)).2 ⟨c, hzz.trans hzc, hww.trans hwc⟩

section Solutions

variable {k : Nat} {t : Ty} {cs : List Constraint}

/-- A question about one operand is answered at once. -/
theorem common_single (d : Direction) (t : Ty) :
    ∀ᶠ m in Filter.atTop, (answers h tables m).common d [t] = some [t] :=
  eventually_of_succ (Filter.Eventually.of_forall fun _ => rfl)

/-- One constraint is met by its value. -/
theorem solutions_single (ht : h.Sketch t) (name : String) (v : Variance) :
    ∀ᶠ m in Filter.atTop, solutions (answers h tables m) [⟨name, t, v⟩] = some [t] := by
  cases t with
  | var w =>
      rw [ht.var]
      exact Filter.Eventually.of_forall fun m => rfl
  | app a =>
      cases v with
      | covariant =>
          have hone : ∀ᶠ m in Filter.atTop,
              (answers h tables m).common .down [.app a] = some [.app a] := common_single .down _
          filter_upwards [hone] with m hm
          show ((answers h tables m).common .down [.app a] >>= _) = _
          rw [hm]
          rfl
      | contravariant => exact common_single .up (.app a)
      | invariant => exact Filter.Eventually.of_forall fun m => rfl

theorem solutions_filter (q : Answers) (cs : List Constraint) :
    solutions q (cs.filter (!·.value.isFree)) = solutions q cs := by
  rw [solutions, solutions, List.filter_filter]
  simp only [Bool.and_self]

/-- Values that cover an instance have a merge that covers it. -/
theorem exists_foldlM_merge {first : Ty} {rest : List Ty}
    (hfirst : h.Sketch first ∧ first.Covers t) (hrest : ∀ x ∈ rest, h.Sketch x ∧ x.Covers t) :
    ∃ z, rest.foldlM Ty.merge first = some z ∧ h.Sketch z ∧ z.Covers t := by
  induction rest generalizing first with
  | nil => exact ⟨first, rfl, hfirst⟩
  | cons x rest ih =>
      rw [List.forall_mem_cons] at hrest
      obtain ⟨y, hy⟩ := Option.isSome_iff_exists.1 (Ty.refine_isSome hfirst.2 hrest.1.2)
      have hmerge : first.merge x = some y := (hfirst.1.merge_eq hrest.1.1).trans hy
      obtain ⟨z, hz, hzt⟩ := ih ⟨searchClosed_sketch.merge hfirst.1 hrest.1.1 hmerge,
        Ty.refine_covers hy hfirst.2 hrest.1.2⟩ hrest.2
      refine ⟨z, ?_, hzt⟩
      rw [List.foldlM_cons, hmerge]
      exact hz

variable {w : Variance} (S : Sound h) (N : Named h) (ht : h.Ground t)
  (hcs : ∀ c ∈ cs, h.Sketch c.value ∧ agreeAt (h.fulfills k) c.relation t c.value = some true)
include S N ht hcs

variable (tables) in
/-- Exact constraints are met by the merge of their values. It leaves at most more open than the
    instance that meets all constraints, so it meets the other ones too. -/
theorem exists_exact_solution {first : Ty} {rest : List Ty}
    (hinv : valuesOf .invariant (cs.filter (!·.value.isFree)) = first :: rest) :
    ∃ z, (∀ᶠ m in Filter.atTop, solutions (answers h tables m) cs = some [z]) ∧ h.Sketch z ∧
      z.Covers t := by
  have hvalue {v : Variance} {x : Ty} (hx : x ∈ valuesOf v (cs.filter (!·.value.isFree))) :
      h.Sketch x ∧ agreeAt (h.fulfills k) v t x = some true := by
    obtain ⟨c, hc, rfl, rfl⟩ := mem_valuesOf.1 hx
    exact hcs c (List.mem_filter.1 hc).1
  have hexact : ∀ x ∈ first :: rest, h.Sketch x ∧ x.Covers t := by
    intro x hx
    rw [← hinv] at hx
    exact ⟨(hvalue hx).1, covers_of_agreeAt ht (hvalue hx).1 (hvalue hx).2⟩
  rw [List.forall_mem_cons] at hexact
  obtain ⟨z, hz, hsz, hzt⟩ := exists_foldlM_merge hexact.1 hexact.2
  refine ⟨z, ?_, hsz, hzt⟩
  filter_upwards [Filter.eventually_ge_atTop k] with m hm
  have hfits : fits (answers h tables m) (valuesOf .covariant (cs.filter (!·.value.isFree)))
      (valuesOf .contravariant (cs.filter (!·.value.isFree))) z = some true := by
    have huppers : (valuesOf .covariant (cs.filter (!·.value.isFree))).allM
        ((answers h tables m).fulfills z ·) = some true := by
      refine allM_eq_true.2 fun u hu => h.fulfills_keeps hm _ _ ?_
      exact fulfills_of_covers S N hsz (hvalue hu).1 ht.toOver (hvalue hu).1 hzt (Ty.covers_refl u)
        (hvalue hu).2
    rw [fits, huppers]
    refine allM_eq_true.2 fun l hl => h.fulfills_keeps hm _ _ ?_
    exact fulfills_of_covers S N (hvalue hl).1 hsz (hvalue hl).1 ht.toOver (Ty.covers_refl l) hzt
      (hvalue hl).2
  have hne : (cs.filter (!·.value.isFree)).isEmpty ≠ true := by
    intro hnil
    rw [List.isEmpty_iff.1 hnil] at hinv
    cases hinv
  simp only [solutions, if_neg hne, hinv, hz]
  exact keep_eq_self (List.forall_mem_singleton.2 hfits)

variable (tables) in
/-- **One value comes out for a parameter**, if an instance meets its constraints and at most one
    of them leaves a range. -/
theorem exists_solution {name : String} (hloose : (loose cs).Subperm [(name, w)]) :
    ∃ z, (∀ᶠ m in Filter.atTop, solutions (answers h tables m) cs = some [z]) ∧ h.Sketch z ∧
      (z.Covers t ∨ agreeAt (h.fulfills k) w t z = some true) := by
  cases hinv : valuesOf .invariant (cs.filter (!·.value.isFree)) with
  | cons first rest =>
      obtain ⟨z, hsol, hsz, hzt⟩ := exists_exact_solution tables S N ht hcs hinv
      exact ⟨z, hsol, hsz, Or.inl hzt⟩
  | nil =>
      have hrange : ∀ c ∈ cs.filter (!·.value.isFree), c.relation ≠ .invariant := by
        intro c hc hrel
        have := mem_valuesOf.2 ⟨c, hc, hrel, rfl⟩
        rw [hinv] at this
        cases this
      -- nothing but constraints that leave a range
      have hsub : ((cs.filter (!·.value.isFree)).map fun c => (c.param, c.relation)).Subperm
          [(name, w)] := by
        have hself : (cs.filter (!·.value.isFree)).filter (·.relation ≠ .invariant) =
            cs.filter (!·.value.isFree) := by
          refine List.filter_eq_self.2 fun c hc => ?_
          simpa using hrange c hc
        rw [← hself, List.filter_comm]
        exact (List.filter_sublist.map _).subperm.trans hloose
      have hmem : ∀ c ∈ cs.filter (!·.value.isFree), c ∈ cs := fun c hc => (List.mem_filter.1 hc).1
      simp only [← solutions_filter _ cs]
      cases hds : cs.filter (!·.value.isFree) with
      | nil =>
          exact ⟨.anonymous, Filter.Eventually.of_forall fun m => rfl, sketch_anonymous,
            Or.inl (Ty.anonymous_covers t)⟩
      | cons c rest =>
          rw [hds] at hsub hmem
          cases rest with
          | cons c' rest =>
              have hle := hsub.length_le
              simp at hle
          | nil =>
              obtain ⟨hsc, hagree⟩ := hcs c (hmem c List.mem_cons_self)
              have hkey := hsub.subset List.mem_cons_self
              rw [List.mem_singleton, Prod.mk.injEq] at hkey
              rw [hkey.2] at hagree
              exact ⟨c.value, solutions_single hsc c.param c.relation, hsc, Or.inr hagree⟩

end Solutions

/-! ## 3. One operand taken down -/

section Lowerings

variable {n source : Node} {x s : App Ty} {k : Nat}

/-- One value for each parameter gives one instance. -/
theorem lowerings_single {q : Answers} {record : App Ty} {cs : List Constraint} {g : Param → Ty}
    (hs : h.find? x.head = some source) (hr : n.ancestors.get? source.id = some record)
    (hm : matchArgs q.constraints .covariant source record.args x.args = some (some cs))
    (hsol : ∀ p ∈ n.params, solutions q (cs.filter (·.param = p.name)) = some [g p]) :
    lowerings h q x n = some [⟨n.name, n.params.map g⟩] := by
  simp only [lowerings, hs, hr, hm]
  show (choices (fun p : Param => solutions q (cs.filter (·.param = p.name))) n.params >>= _) = _
  rw [choices_single hsol]
  rfl

/-- The parameters stand for the arguments one by one. -/
theorem map_argument (hn : (n.params.map Param.name).Nodup) {args : List Ty}
    (hl : args.length = n.arity) :
    n.params.map (fun p => n.argument args (.free p.name)) = args := by
  have e := congrArg App.args (Node.substitute_self hn hl)
  rw [Node.args_substitute, Node.self, Node.generic, List.map_map] at e
  simpa only [Function.comp_def, Ty.mapVars_var] using e

/-- A parameter stands for the argument at its position. -/
theorem argument_at (hn : (n.params.map Param.name).Nodup) {args : List Ty} {i : Nat} {p : Param}
    {t : Ty} (hp : n.params[i]? = some p) (ht : args[i]? = some t) :
    n.argument args (.free p.name) = t ∧ n.variance i = p.variance :=
  ⟨Node.argument_of_index (Node.paramIndex?_of_nodup hn hp) ht, by rw [Node.variance, hp]; rfl⟩

theorem exists_argument (hn : (n.params.map Param.name).Nodup) {args : List Ty}
    (hl : args.length = n.arity) {p : Param} (hp : p ∈ n.params) : ∃ i t, n.params[i]? = some p ∧
      args[i]? = some t ∧ n.argument args (.free p.name) = t ∧ n.variance i = p.variance := by
  obtain ⟨i, hi⟩ := List.mem_iff_getElem?.1 hp
  have hlt : i < args.length := by
    rw [hl]
    exact (List.getElem?_eq_some_iff.1 hi).1
  have ht := List.getElem?_eq_getElem hlt
  exact ⟨i, args[i], hi, ht, argument_at hn hi ht⟩

/-- At most one constraint on a parameter leaves a range, and then in the declared relation. -/
theorem loose_filter (hn : (n.params.map Param.name).Nodup) {cs : List Constraint}
    (hl : (loose cs).Subperm n.signature) {p : Param} (hp : p ∈ n.params) :
    (loose (cs.filter (·.param = p.name))).Subperm [(p.name, p.variance)] := by
  have hkeys : (n.signature.map Prod.fst).Nodup := by
    rw [Node.signature, List.map_map]
    exact hn
  have hkey : (p.name, p.variance) ∈ n.signature := List.mem_map_of_mem hp
  have hcs : loose (cs.filter (·.param = p.name)) = (loose cs).filter (·.1 = p.name) := by
    rw [loose, loose, List.filter_map, List.filter_comm]
    rfl
  rw [hcs, ← filter_key_eq hkeys hkey]
  exact hl.filter _

/-- Every parameter with its argument as the only constraint on it, in the declared relation. -/
def pinned (n : Node) (args : List Ty) : List Constraint :=
  (n.params.zip args).map fun e => ⟨e.1.name, e.2, e.1.variance⟩

theorem filter_pinned (hn : (n.params.map Param.name).Nodup) {args : List Ty}
    (hl : args.length = n.arity) {i : Nat} {p : Param} {t : Ty} (hp : n.params[i]? = some p)
    (ht : args[i]? = some t) :
    (pinned n args).filter (·.param = p.name) = [⟨p.name, t, p.variance⟩] := by
  have hkeys : ((pinned n args).map Constraint.param).Nodup := by
    rw [pinned, List.map_map]
    show ((n.params.zip args).map (Param.name ∘ Prod.fst)).Nodup
    rw [← List.map_map, List.map_fst_zip (by rw [hl]; exact le_refl _)]
    exact hn
  have hc : ⟨p.name, t, p.variance⟩ ∈ pinned n args :=
    List.mem_map.2 ⟨(p, t), List.mem_of_getElem? (List.getElem?_zip_eq_some.2 ⟨hp, ht⟩), rfl⟩
  exact filter_key_eq hkeys hc

/-- A type matched against an instance of it gives one constraint for each parameter. -/
theorem matchArgs_self (N : Named h) (hn : n ∈ h.nodes) {args : List Ty} :
    ∀ᶠ m in Filter.atTop, matchArgs (constraints h m) .covariant n n.self.args args =
      some (some (pinned n args)) := by
  refine eventually_of_succ (Filter.Eventually.of_forall fun m => ?_)
  have hall : ∀ e ∈ (n.params.zip args).zipIdx, constraints h (m + 1)
      (Variance.covariant.compose (n.variance e.2)) (.var (.free e.1.1.name)) e.1.2 =
        some (some [⟨e.1.1.name, e.1.2, e.1.1.variance⟩]) := by
    refine forall_mem_zip_zipIdx.2 fun i p t hp ht => ?_
    have hvar : n.variance i = p.variance := by
      rw [Node.variance, hp]
      rfl
    have hname : (Var.free p.name : Var Ty).isAnonymous ≠ true := by
      intro hanon
      have hempty : p.name = "" := by simpa [Var.free, Var.isAnonymous] using hanon
      have hsome : (n.paramIndex? "").isSome = true :=
        Node.paramIndex?_isSome_iff.2 (List.mem_map.2 ⟨p, List.mem_of_getElem? hp, hempty⟩)
      rw [N n hn] at hsome
      cases hsome
    rw [constraints, matchWith, if_neg hname, Variance.compose_covariant, hvar]
    rfl
  rw [matchArgs, Node.self, Node.generic, List.zip_map_left, List.zipIdx_map, matchAll_map]
  refine (matchAll_of_forall hall).trans ?_
  rw [← List.map_eq_flatMap]
  show some (some ((n.params.zip args).zipIdx.map
    ((fun e => (⟨e.1.name, e.2, e.1.variance⟩ : Constraint)) ∘ Prod.fst))) = _
  rw [← List.map_map, List.zipIdx_map_fst, pinned]

variable (S : Sound h) (N : Named h)
include S N

/-- There is one way to take an instance down to its own type. -/
theorem lowerings_self (hx : h.Sketch (.app x)) (hn : h.find? x.head = some n) :
    ∀ᶠ m in Filter.atTop, lowerings h (answers h tables m) x n = some [x] := by
  have hmem := find?_mem hn
  have hl := hx.length hn
  have hself : n.ancestors.get? n.id = some n.self := by
    have := S.record_self (S.node_of_mem hmem)
    rwa [record?, S.node_of_mem hmem] at this
  have hsol : ∀ p ∈ n.params, ∀ᶠ m in Filter.atTop, solutions (answers h tables m)
      ((pinned n x.args).filter (·.param = p.name)) =
        some [n.argument x.args (.free p.name)] := by
    intro p hp
    obtain ⟨i, t, hi, ht, harg, -⟩ := exists_argument (S.params_nodup hmem) hl hp
    rw [filter_pinned (S.params_nodup hmem) hl hi ht, harg]
    exact solutions_single (hx.arg ht) p.name p.variance
  filter_upwards [eventually_forall_mem hsol, matchArgs_self N hmem] with m hsol hmatch
  rw [lowerings_single hn hself hmatch hsol, map_argument (S.params_nodup hmem) hl, find?_name hn]

section Fulfilled

variable (F : h.Faithful) (hs : h.Ground (.app s)) (hn : h.find? s.head = some n)
include F hs hn

/-- The record of a type is matched against an instance of it that a given instance fulfills. -/
theorem exists_fitted_record (hx : h.Sketch (.app x))
    (e : h.fulfills (k + 1) (.app s) (.app x) = some true) : ∃ source record cs,
      h.find? x.head = some source ∧ n.ancestors.get? source.id = some record ∧
      (∀ᶠ m in Filter.atTop, matchArgs (constraints h m) .covariant source record.args x.args =
        some (some cs)) ∧
      (loose cs).Subperm n.signature ∧ ∀ c ∈ cs, h.Met k n s.args c := by
  have hmem := find?_mem hn
  obtain ⟨source, raised, hsource, hr, hargs⟩ := fulfills_app_iff.1 e
  obtain ⟨n', m, r, hn', hrec, rfl, hm, hrsource⟩ := S.raise_cases hr
  obtain rfl := Option.some_inj.1 (hn.symm.trans hn')
  rw [S.node_of_find hsource] at hm
  cases hm
  have hnormal := S.isNormal_record hmem hrec
  obtain ⟨⟨_, hfind, hlr⟩, -⟩ := isNormalApp_iff.1 (isNormal_app.symm.trans hnormal)
  obtain rfl := Option.some_inj.1 (hrsource.symm.trans hfind)
  -- the record is an instance of the type already, so nothing is raised
  have hmeets : h.Meets r x source .covariant r x := .raised hsource (S.raise_self hrsource hlr)
  have hsargs : ∀ t ∈ s.args, h.Sketch t := fun t ht => Ground.toOver ((over_app_iff.1 hs).2 t ht)
  have hex : ∃ cs, h.Fitted k n s.args .covariant (.app r) (.app x) cs := by
    refine F.exists_fitted_app S N hnormal hx hmeets fun i q z hqi hzi hnq hsz => ?_
    refine F.exists_fitted S N hsargs hmem hnq hsz ?_
    rw [Variance.compose_covariant]
    refine hargs i _ z ?_ hzi
    rw [Node.args_substitute, List.getElem?_map, hqi]
    rfl
  obtain ⟨cs, hfit⟩ := hex
  refine ⟨source, r, cs, hsource, hrec, ?_, ?_, hfit.met⟩
  · obtain ⟨j, hj⟩ := Filter.eventually_atTop.1 hfit.found
    refine Filter.eventually_atTop.2 ⟨j, fun m hm => ?_⟩
    have hfound := hj (m + 1) (by omega)
    rwa [constraints, matchWith, S.matchApp_of_meets hmeets] at hfound
  · have hrec := F n hmem _ (S.mem_entries hmem hrec)
    rw [← exposed] at hrec
    exact hfit.loose_exposed.trans hrec

omit F in
variable (tables) in
/-- One value comes out for each parameter, if the arguments of an instance meet all constraints. -/
theorem exists_value {cs : List Constraint} (hloose : (loose cs).Subperm n.signature)
    (hmet : ∀ c ∈ cs, h.Met k n s.args c) {p : Param} (hp : p ∈ n.params) :
    ∃ z, (∀ᶠ m in Filter.atTop,
      solutions (answers h tables m) (cs.filter (·.param = p.name)) = some [z]) ∧ h.Sketch z ∧
        (z.Covers (n.argument s.args (.free p.name)) ∨ agreeAt (h.fulfills k) p.variance
          (n.argument s.args (.free p.name)) z = some true) := by
  have hnodup := S.params_nodup (find?_mem hn)
  obtain ⟨i, t, -, ht, harg, -⟩ := exists_argument hnodup (hs.length hn) hp
  have hground : h.Ground (n.argument s.args (.free p.name)) := by
    rw [harg]
    exact hs.arg ht
  refine exists_solution tables S N hground (fun c hc => ?_) (loose_filter hnodup hloose hp)
  obtain ⟨hc, hname⟩ := List.mem_filter.1 hc
  have hname : c.param = p.name := by simpa using hname
  rw [← hname]
  exact ⟨(hmet c hc).sketch, (hmet c hc).agrees⟩

/-- **There is one way to take an instance down to a type of which an instance fulfills it.** What
    comes out for a parameter leaves more open than the argument of that instance, or agrees with it
    at the variance of the parameter. -/
theorem exists_lowering (hx : h.Sketch (.app x))
    (e : h.fulfills (k + 1) (.app s) (.app x) = some true) :
    ∃ y, (∀ᶠ m in Filter.atTop, lowerings h (answers h tables m) x n = some [y]) ∧
      y.args.length = n.arity ∧ ∀ (i : Nat) (z t : Ty), y.args[i]? = some z →
        s.args[i]? = some t → h.Sketch z ∧
          (z.Covers t ∨ agreeAt (h.fulfills k) (n.variance i) t z = some true) := by
  have hmem := find?_mem hn
  have hnodup := S.params_nodup hmem
  obtain ⟨source, record, cs, hsource, hrec, hmatch, hloose, hmet⟩ :=
    exists_fitted_record S N F hs hn hx e
  have hvalue : ∀ p : Param, ∃ z, p ∈ n.params → (∀ᶠ m in Filter.atTop,
      solutions (answers h tables m) (cs.filter (·.param = p.name)) = some [z]) ∧ h.Sketch z ∧
        (z.Covers (n.argument s.args (.free p.name)) ∨ agreeAt (h.fulfills k) p.variance
          (n.argument s.args (.free p.name)) z = some true) := by
    intro p
    by_cases hp : p ∈ n.params
    · obtain ⟨z, hz⟩ := exists_value tables S N hs hn hloose hmet hp
      exact ⟨z, fun _ => hz⟩
    · exact ⟨.anonymous, fun hp' => absurd hp' hp⟩
  choose g hg using hvalue
  refine ⟨⟨n.name, n.params.map g⟩, ?_, by simp [Node.arity], fun i z t hz ht => ?_⟩
  · filter_upwards [hmatch, eventually_forall_mem fun p hp => (hg p hp).1] with m hmatch hsol
    exact lowerings_single hsource hrec hmatch hsol
  · rw [List.getElem?_map] at hz
    obtain ⟨p, hp, rfl⟩ := Option.map_eq_some_iff.1 hz
    obtain ⟨harg, hvar⟩ := argument_at hnodup hp ht
    have hfacts := (hg p (List.mem_of_getElem? hp)).2
    rwa [harg, ← hvar] at hfacts

end Fulfilled

end Lowerings

/-! ## 4. Two operands -/

/-- From some round on, the question for two instances is answered with the second one, in either
    order. -/
def Absorbs (h : Hierarchy) (tables : Tables) (d : Direction) (x s : Ty) : Prop :=
  ∀ᶠ m in Filter.atTop, Nearest.common h tables m d [x, s] = some [s] ∧
    Nearest.common h tables m d [s, x] = some [s]

/-- The same for a position of some variance. -/
def AbsorbsAt (h : Hierarchy) (tables : Tables) (d : Direction) (v : Variance) (x s : Ty) : Prop :=
  ∀ᶠ m in Filter.atTop, combineAt (answers h tables m) d v x s = some [s] ∧
    combineAt (answers h tables m) d v s x = some [s]

section Absorbs

variable {d : Direction} {v : Variance} {x s : Ty}

/-- A single application has nothing nearer beside it. -/
theorem eventually_common_of_combine {a : App Ty}
    (hc : ∀ᶠ m in Filter.atTop, combine h tables (answers h tables m) d x s = some [.app a]) :
    ∀ᶠ m in Filter.atTop, Nearest.common h tables m d [x, s] = some [.app a] := by
  refine eventually_of_succ ?_
  filter_upwards [hc] with m hm
  exact common_pair.2 ⟨_, hm, keepNearest_single _ d _⟩

/-- `_` gives way to the other operand. -/
theorem absorbs_anonymous (a : App Ty) : h.Absorbs tables d .anonymous (.app a) := by
  refine (eventually_common_of_combine ?_).and (eventually_common_of_combine ?_)
  · exact Filter.Eventually.of_forall fun m => combineVarApp_free
  · exact Filter.Eventually.of_forall fun m => combineVarApp_free

/-- What covers a ground instance is merged with it to the instance. -/
theorem merge_of_covers (hx : h.Sketch x) (hs : h.Ground s) (hc : x.Covers s) :
    x.merge s = some s ∧ s.merge x = some s := by
  have hss : h.Sketch s := hs.toOver
  have hleast {c : Ty} (hsc : s.Covers c) : s = c :=
    hsc.eq_of_noWildcard fun v hv => (hs.vars v hv).elim
  constructor
  · obtain ⟨c, hc⟩ := Option.isSome_iff_exists.1 (Ty.refine_isSome hc (Ty.covers_refl s))
    rw [hx.merge_eq hss, hc, ← hleast (Ty.covers_refine hc).2]
  · obtain ⟨c, hc⟩ := Option.isSome_iff_exists.1 (Ty.refine_isSome (Ty.covers_refl s) hc)
    rw [hss.merge_eq hx, hc, ← hleast (Ty.covers_refine hc).1]

/-- A position takes the question in the same direction, in the other one, or a merge. -/
theorem absorbsAt_of (hx : h.Sketch x) (hs : h.Ground s)
    (hcov : v = .covariant → h.Absorbs tables d x s)
    (hcontra : v = .contravariant → h.Absorbs tables d.flip x s)
    (hinv : v = .invariant → x.Covers s) : h.AbsorbsAt tables d v x s := by
  cases v with
  | covariant => exact hcov rfl
  | contravariant => exact hcontra rfl
  | invariant =>
      obtain ⟨hxs, hsx⟩ := merge_of_covers hx hs (hinv rfl)
      refine Filter.Eventually.of_forall fun m => ?_
      rw [combineAt, combineAt, hxs, hsx]
      exact ⟨rfl, rfl⟩

/-- One option for each position gives one instance. -/
theorem combineArgs_single {q : Answers} {n : Node} {a b : App Ty} {g : (Ty × Ty) × Nat → Ty}
    (hg : ∀ (i : Nat) (y z : Ty), a.args[i]? = some y → b.args[i]? = some z →
      combineAt q d (n.variance i) y z = some [g ((y, z), i)]) :
    combineArgs q d n a b = some [⟨n.name, (a.args.zip b.args).zipIdx.map g⟩] := by
  have hoptions : ∀ e ∈ (a.args.zip b.args).zipIdx,
      combineAt q d (n.variance e.2) e.1.1 e.1.2 = some [g e] := forall_mem_zip_zipIdx.2 hg
  exact Option.bind_eq_some_iff.2 ⟨_, choices_single hoptions, rfl⟩

variable (S : Sound h) (htab : h.tables = some tables)
include S

/-- An instance is carried to its own type as it is. -/
theorem carry_self (N : Named h) {a : App Ty} {n : Node} (ha : h.Sketch (.app a))
    (hn : h.find? a.head = some n) :
    ∀ᶠ m in Filter.atTop, carry h (answers h tables m) d a n = some [a] := by
  cases d with
  | down => exact lowerings_self S N ha hn
  | up =>
      exact Filter.Eventually.of_forall fun m => carry_up (S.raise_self hn (ha.length hn))

include htab

/-- The table gives the type that is reached from the other one, and nothing else. -/
theorem get_of_reaches {i j : Nat} (hij : h.Reaches d i j) :
    tables.get d i j = [j] ∧ tables.get d j i = [j] := by
  have hi : i < h.nodes.length := by
    obtain ⟨n, hn⟩ := S.node_of_reaches_left hij
    exact (List.getElem?_eq_some_iff.1 hn).1
  have hj := S.lt_of_reaches hij
  have hexact : h.Exact d j i [j] := by
    refine ⟨List.pairwise_singleton _ _, fun {c} => ?_⟩
    rw [List.mem_singleton, nearest_of_reaches S hij]
  rw [get_tables S htab, get_tables S htab]
  exact ⟨(filled_build S hi hj).unique hexact.symm, (filled_build S hj hi).unique hexact⟩

omit S htab in
/-- Two applications with one type to meet at, one way to carry them there and one way to combine
    their arguments. -/
theorem eventually_common_at {a b a' b' c : App Ty} {n : Node} {i j : Nat}
    (hi : h.idOf? a.head = some i) (hj : h.idOf? b.head = some j) (hn : h.nodes[n.id]? = some n)
    (hcell : tables.get d i j = [n.id])
    (ha : ∀ᶠ m in Filter.atTop, carry h (answers h tables m) d a n = some [a'])
    (hb : ∀ᶠ m in Filter.atTop, carry h (answers h tables m) d b n = some [b'])
    (hc : ∀ᶠ m in Filter.atTop, combineArgs (answers h tables m) d n a' b' = some [c]) :
    ∀ᶠ m in Filter.atTop, Nearest.common h tables m d [.app a, .app b] = some [.app c] := by
  refine eventually_common_of_combine ?_
  filter_upwards [ha, hb, hc] with m ha hb hc
  have happs : combineApps h tables (answers h tables m) d a b = some [c] := by
    have hcandidates : (tables.get d i j).filterMap (h.nodes[·]?) = [n] := by
      rw [hcell]
      simp [hn]
    simp only [combineApps, hi, hj, hcandidates]
    rw [List.mapM_cons, List.mapM_nil, combineVia_single ha hb, hc]
    rfl
  rw [combine, happs]
  rfl

/-- **An instance absorbs another one if its arguments do**, once the other one has been carried to
    its type. -/
theorem absorbs_app {a b c : App Ty} {n m : Node} (hm : h.find? a.head = some m)
    (hn : h.find? b.head = some n) (hb : h.Ground (.app b)) (hr : h.Reaches d m.id n.id)
    (hself : ∀ᶠ m in Filter.atTop, carry h (answers h tables m) d b n = some [b])
    (hc : ∀ᶠ m in Filter.atTop, carry h (answers h tables m) d a n = some [c])
    (hl : c.args.length = n.arity)
    (hpos : ∀ (i : Nat) (z t : Ty), c.args[i]? = some z → b.args[i]? = some t →
      h.AbsorbsAt tables d (n.variance i) z t) : h.Absorbs tables d (.app a) (.app b) := by
  have hid := S.idOf?_of_find hm
  have hid' := S.idOf?_of_find hn
  obtain ⟨hcell, hcell'⟩ := get_of_reaches S htab hr
  have hlb := hb.length hn
  refine (eventually_common_at hid hid' (S.node_of_find hn) hcell hc hself ?_).and
    (eventually_common_at hid' hid (S.node_of_find hn) hcell' hself hc ?_)
  · filter_upwards [eventually_positions hpos] with k hk
    have hargs : (c.args.zip b.args).zipIdx.map (fun e => e.1.2) = b.args := by
      show (c.args.zip b.args).zipIdx.map (Prod.snd ∘ Prod.fst) = _
      rw [← List.map_map, List.zipIdx_map_fst, List.map_snd_zip (by omega)]
    rw [combineArgs_single (g := fun e => e.1.2)
      fun i z t hz ht => (hk i z t hz ht).1, hargs, find?_name hn]
  · filter_upwards [eventually_positions hpos] with k hk
    have hargs : (b.args.zip c.args).zipIdx.map (fun e => e.1.1) = b.args := by
      show (b.args.zip c.args).zipIdx.map (Prod.fst ∘ Prod.fst) = _
      rw [← List.map_map, List.zipIdx_map_fst, List.map_fst_zip (by omega)]
    rw [combineArgs_single (g := fun e => e.1.1)
      fun i t z ht hz => (hk i z t hz ht).2, hargs, find?_name hn]

/-- **A ground instance absorbs whatever covers it.** -/
theorem absorbs_of_covers (N : Named h) {x s : Ty} (hx : h.Sketch x) (hs : h.Ground s)
    (hc : x.Covers s) : h.Absorbs tables d x s := by
  induction s using Ty.induct generalizing x d with
  | var name lower upper =>
      obtain ⟨a, e⟩ := hs.app
      cases e
  | app f ss ih =>
      cases x with
      | var w =>
          rw [hx.var]
          exact absorbs_anonymous _
      | app a =>
          obtain ⟨hhead, hargs⟩ := App.covers_iff.1 (Ty.app_covers_app.1 hc)
          obtain ⟨⟨n, hn, -⟩, hss⟩ := over_app_iff.1 hs
          have ha : h.find? a.head = some n := hhead ▸ hn
          refine absorbs_app S htab ha hn hs (S.reaches_refl (S.node_of_find hn))
            (carry_self S N hs.toOver hn) (carry_self S N hx ha) (hx.length ha)
            fun i z t hz ht => ?_
          have hmem := List.mem_of_getElem? ht
          obtain ⟨z', hz', hcov⟩ := forall₂_getElem?_right hargs ht
          rw [hz] at hz'
          cases hz'
          have hsz := hx.arg hz
          exact absorbsAt_of hsz (hss t hmem) (fun _ => ih t hmem hsz (hss t hmem) hcov)
            (fun _ => ih t hmem hsz (hss t hmem) hcov) fun _ => hcov

section Round

variable {k : Nat} {a b : App Ty} (ha : h.Sketch (.app a)) (hb : h.Ground (.app b))
include ha hb

/-- Going down: the other instance is taken down in the one way there is. -/
theorem Faithful.absorbs_down (F : h.Faithful) (N : Named h)
    (hat : ∀ {v : Variance} {z t : Ty}, h.Sketch z → h.Ground t →
      agreeAt (h.fulfills k) v t z = some true → h.AbsorbsAt tables .down v z t)
    (e : h.fulfills (k + 1) (.app b) (.app a) = some true) :
    h.Absorbs tables .down (.app a) (.app b) := by
  obtain ⟨⟨m, hm, -⟩, -⟩ := over_app_iff.1 ha
  obtain ⟨⟨n, hn, -⟩, -⟩ := over_app_iff.1 hb
  obtain ⟨y, hy, hl, hfacts⟩ := exists_lowering S N F hb hn ha e
  have hr : h.Reaches .down m.id n.id := by
    obtain ⟨m', raised, hm', hraise, -⟩ := fulfills_app_iff.1 e
    obtain rfl := Option.some_inj.1 (hm.symm.trans hm')
    exact S.ancestor_descendant.1 ((S.exists_raise_iff hn).1 ⟨raised, hraise⟩)
  refine absorbs_app S htab hm hn hb hr (carry_self S N hb.toOver hn) hy hl
    fun i z t hz ht => ?_
  obtain ⟨hsz, hcov | hagree⟩ := hfacts i z t hz ht
  · have habs {d : Direction} : h.Absorbs tables d z t :=
      absorbs_of_covers S htab N hsz (hb.arg ht) hcov
    exact absorbsAt_of hsz (hb.arg ht) (fun _ => habs) (fun _ => habs) fun _ => hcov
  · exact hat hsz (hb.arg ht) hagree

/-- Going up: the other instance is raised. -/
theorem absorbs_up
    (hat : ∀ {n : Node} {i : Nat} {z t : Ty}, n ∈ h.nodes → h.Sketch z → h.Ground t →
      agreeAt (h.fulfills k) (n.variance i) z t = some true →
        h.AbsorbsAt tables .up (n.variance i) z t)
    (e : h.fulfills (k + 1) (.app a) (.app b) = some true) :
    h.Absorbs tables .up (.app a) (.app b) := by
  obtain ⟨⟨m, hm, -⟩, -⟩ := over_app_iff.1 ha
  obtain ⟨n, y, hn, hy, hargs⟩ := fulfills_app_iff.1 e
  have hr : h.Reaches .up m.id n.id := (S.exists_raise_iff hm).1 ⟨y, hy⟩
  have hly : y.args.length = n.arity := by
    refine S.raise_length hy ?_
    rwa [S.raise_head hn hy]
  refine absorbs_app S htab hm hn hb hr
    (Filter.Eventually.of_forall fun _ => carry_up (S.raise_self hn (hb.length hn)))
    (Filter.Eventually.of_forall fun _ => carry_up hy) hly fun i z t hz ht => ?_
  have hsz := Over.arg (searchClosed_sketch.raise S ha hy) hz
  exact hat (find?_mem hn) hsz (hb.arg ht) (hargs i z t hz ht)

end Round

/-- **A ground instance absorbs whatever lies beyond it**, seen from the other operand. The rounds
    in which the two agree carry the induction: a round asks about arguments in the round before, at
    contravariant positions in the other direction. -/
theorem Faithful.absorbs_of_agreeAt (F : h.Faithful) (N : Named h) {k : Nat} {x s : Ty}
    (hx : h.Sketch x) (hs : h.Ground s)
    (e : agreeAt (h.fulfills k) d.sense s x = some true) : h.Absorbs tables d x s := by
  induction k generalizing d x s with
  | zero => cases d <;> cases e
  | succ k ih =>
      have hat {d : Direction} {v : Variance} {z t : Ty} (hz : h.Sketch z) (ht : h.Ground t)
          (e : agreeAt (h.fulfills k) (d.sense.compose v) t z = some true) :
          h.AbsorbsAt tables d v z t := by
        refine absorbsAt_of hz ht (fun hv => ih hz ht ?_) (fun hv => ih hz ht ?_) fun hv => ?_
        · subst hv
          rwa [Variance.compose_comm, Variance.compose_covariant] at e
        · subst hv
          rwa [← Direction.sense_flip] at e
        · subst hv
          rw [Variance.compose_comm] at e
          exact covers_of_agreeAt ht hz e
      obtain ⟨b, rfl⟩ := hs.app
      cases x with
      | var w =>
          rw [hx.var]
          exact absorbs_anonymous b
      | app a =>
          cases d with
          | down =>
              refine F.absorbs_down S htab hx hs N (fun hz ht hagree => hat hz ht ?_) e
              rwa [Direction.sense, Variance.compose_covariant]
          | up =>
              exact absorbs_up S htab hx hs
                (fun _ hz ht hagree => hat hz ht ((agreeAt_swap hz ht.toOver).trans hagree)) e

end Absorbs

/-- **Nearest common descendants agree with subtyping.** If every record exposes a parameter at most
    once and with its declared variance, the nearest common descendants of two ground instances, one
    of which fulfills the other, are found, and there is only the lower one of the two. -/
theorem descendants_of_fulfills (hr : Reachable h) (hf : h.isFinalized = true) (hn : Named h)
    (hF : h.Faithful) {a b : Ty} (ha : h.isGround a = true) (hb : h.isGround b = true)
    (hba : ∃ k, h.typeFulfills k b a = some true) :
    ∃ k, ∀ m ≥ k, (h.nearestCommon m .down [a, b]).run = some (.ok [b]) ∧
      (h.nearestCommon m .down [b, a]).run = some (.ok [b]) := by
  have S := sound_of_reachable hr
  obtain ⟨tables, htab⟩ := Option.isSome_iff_exists.1 hf
  have hsa : h.Sketch a := (isGround_iff.1 ha).toOver
  have hsb : h.Sketch b := (isGround_iff.1 hb).toOver
  obtain ⟨k, hk⟩ := hba
  rw [typeFulfills_of_sketch hsb hsa] at hk
  have habs : h.Absorbs tables .down a b :=
    hF.absorbs_of_agreeAt S htab hn hsa (isGround_iff.1 hb) hk
  obtain ⟨j, hj⟩ := Filter.eventually_atTop.1 habs
  exact ⟨j, fun m hm => ⟨(nearestCommon_pair_eq_ok htab hsa hsb).2 (hj m hm).1,
    (nearestCommon_pair_eq_ok htab hsb hsa).2 (hj m hm).2⟩⟩

/-- Handlers of events that give an answer. Routers hand out replies. -/
def handlers : Hierarchy := [
  .declare "event" [],
  .declare "click" [],
  .declare "reply" [⟨"t", .covariant⟩],
  .declare "handler" [⟨"e", .contravariant⟩, ⟨"r", .covariant⟩],
  .declare "router" [⟨"y", .covariant⟩, ⟨"x", .contravariant⟩],
  .addParent "click" (bareType "event"),
  .addParent "router" (.app ⟨"handler",
    [.var (.free "x"), .app ⟨"reply", [.var (.free "y")]⟩]⟩),
  .finalize].foldl perform empty

/-- A router of all events to clicks can handle clicks and reply with events. -/
theorem router_absorbs : Named handlers ∧ handlers.Faithful ∧
    handlers.typeFulfills 4 (.app ⟨"router", [bareType "click", bareType "event"]⟩)
      (.app ⟨"handler", [bareType "click", .app ⟨"reply", [bareType "event"]⟩]⟩) = some true ∧
    ∃ k, ∀ m ≥ k, (handlers.nearestCommon m .down
        [.app ⟨"handler", [bareType "click", .app ⟨"reply", [bareType "event"]⟩]⟩,
          .app ⟨"router", [bareType "click", bareType "event"]⟩]).run =
        some (.ok [.app ⟨"router", [bareType "click", bareType "event"]⟩]) ∧
      (handlers.nearestCommon m .down
        [.app ⟨"router", [bareType "click", bareType "event"]⟩,
          .app ⟨"handler", [bareType "click", .app ⟨"reply", [bareType "event"]⟩]⟩]).run =
        some (.ok [.app ⟨"router", [bareType "click", bareType "event"]⟩]) := by
  have hn : Named handlers := by decide
  have hF : handlers.Faithful := by decide
  exact ⟨hn, hF, rfl, descendants_of_fulfills ⟨_, rfl⟩ rfl hn hF (by decide) (by decide) ⟨4, rfl⟩⟩

/-- What can be gone through is read only, and a list can be changed. -/
def sequences : Hierarchy := [
  .declare "number" [],
  .declare "int" [],
  .declare "iterable" [⟨"t", .covariant⟩],
  .declare "list" [⟨"t", .invariant⟩],
  .addParent "int" (bareType "number"),
  .addParent "list" (.app ⟨"iterable", [.var (.free "t")]⟩),
  .finalize].foldl perform empty

/-- **An exposed invariant parameter loses the lower operand.** A list of `int` can be gone through
    as one of `number`. Taken down to lists, what can be gone through as `number` is a list of
    `number`, and that is no list of `int`. -/
theorem lists_apart : Reachable sequences ∧ sequences.isFinalized = true ∧ Named sequences ∧
    sequences.isGround (.app ⟨"iterable", [bareType "number"]⟩) = true ∧
    sequences.isGround (.app ⟨"list", [bareType "int"]⟩) = true ∧
    sequences.typeFulfills 2 (.app ⟨"list", [bareType "int"]⟩)
      (.app ⟨"iterable", [bareType "number"]⟩) = some true ∧
    ∀ m, (sequences.nearestCommon (m + 2) .down
        [.app ⟨"iterable", [bareType "number"]⟩, .app ⟨"list", [bareType "int"]⟩]).run =
        some (.ok []) ∧
      (sequences.nearestCommon (m + 2) .down
        [.app ⟨"list", [bareType "int"]⟩, .app ⟨"iterable", [bareType "number"]⟩]).run =
        some (.ok []) :=
  ⟨⟨_, rfl⟩, rfl, by decide, by decide, by decide, rfl, fun _ => ⟨rfl, rfl⟩⟩

end Hierarchy

end Lineage

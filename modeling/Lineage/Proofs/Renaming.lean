import Lineage.Hierarchy.Build
import Lineage.Proofs.Monadic
import Lineage.Proofs.Substitution

/-!
# Renaming parameters

A renaming gives every name another one, different names for different names, and leaves `_`
nameless. Each type has a renaming for its parameters. It reaches everything that is written in
them: the records of the type, and the parents that are given to it.

* `Node.substitute_rename`: putting arguments in for parameters takes a record from the names of one
  type to those of another;
* `App.refine_rename`: joining records looks at names only to tell them apart;
* `Hierarchy.normalize_rename`, `foreign_rename`: what is refused is refused with other names.
-/

namespace Lineage

/-! ## 1. Results that differ in names -/

/-- The result and the error of a computation replaced by their images. -/
def outcome {α β ε : Type} (f : ε → ε) (g : α → β) : Except ε α → Except ε β
  | .ok a => .ok (g a)
  | .error e => .error (f e)

section Outcome

variable {α α' β β' ε : Type} {f : ε → ε}

theorem outcome_bind {g : α → α'} {g' : β → β'} {x : Except ε α} {x' : Except ε α'}
    {k : α → Except ε β} {k' : α' → Except ε β'} (hx : x' = outcome f g x)
    (hk : ∀ a, k' (g a) = outcome f g' (k a)) : (x' >>= k') = outcome f g' (x >>= k) := by
  rw [hx]
  cases x with
  | error e => rfl
  | ok a => exact hk a

theorem outcome_mapM {g : β → β'} {r : α → α'} {k : α → Except ε β} {k' : α' → Except ε β'}
    {xs : List α} (hk : ∀ x ∈ xs, k' (r x) = outcome f g (k x)) :
    (xs.map r).mapM k' = outcome f (List.map g) (xs.mapM k) := by
  induction xs with
  | nil => rfl
  | cons x xs ih =>
      rw [List.forall_mem_cons] at hk
      rw [List.map_cons, List.mapM_cons, List.mapM_cons]
      exact outcome_bind hk.1 fun y => outcome_bind (ih hk.2) fun ys => rfl

end Outcome

/-! ## 2. Instances -/

/-- Other names for names. Every bijection of the names that are not empty is one. -/
structure Renaming where
  map : String → String
  injective : Function.Injective map
  map_empty : map "" = ""

/-- The renaming that changes nothing. -/
def Renaming.refl : Renaming := ⟨id, Function.injective_id, rfl⟩

@[simp] theorem Renaming.refl_map (name : String) : Renaming.refl.map name = name := rfl

mutual
/-- The instance with all variables renamed, those in bounds included. -/
def Ty.rename (σ : Renaming) : Ty → Ty
  | .app a => .app (a.rename σ)
  | .var ⟨name, lower, upper⟩ => .var ⟨σ.map name, App.renameAll σ lower, App.renameAll σ upper⟩
/-- The application with all variables renamed. -/
def App.rename (σ : Renaming) : App Ty → App Ty
  | ⟨head, args⟩ => ⟨head, Ty.renameAll σ args⟩
/-- `Ty.rename` on every instance of a list. -/
def Ty.renameAll (σ : Renaming) : List Ty → List Ty
  | [] => []
  | t :: ts => t.rename σ :: Ty.renameAll σ ts
/-- `App.rename` on every application of a list. -/
def App.renameAll (σ : Renaming) : List (App Ty) → List (App Ty)
  | [] => []
  | a :: as => a.rename σ :: App.renameAll σ as
end

/-- The variable renamed, with its bounds. -/
def Var.rename (σ : Renaming) (v : Var Ty) : Var Ty :=
  ⟨σ.map v.name, v.lower.map (App.rename σ), v.upper.map (App.rename σ)⟩

section Instances

variable (σ τ : Renaming)

theorem Ty.renameAll_eq_map (ts : List Ty) : Ty.renameAll σ ts = ts.map (Ty.rename σ) := by
  induction ts with
  | nil => rw [Ty.renameAll, List.map_nil]
  | cons t ts ih => rw [Ty.renameAll, List.map_cons, ih]

theorem App.renameAll_eq_map (as : List (App Ty)) : App.renameAll σ as = as.map (App.rename σ) := by
  induction as with
  | nil => rw [App.renameAll, List.map_nil]
  | cons a as ih => rw [App.renameAll, List.map_cons, ih]

@[simp] theorem Ty.rename_app (a : App Ty) : (Ty.app a).rename σ = .app (a.rename σ) := by
  rw [Ty.rename]

@[simp] theorem Ty.rename_var (v : Var Ty) : (Ty.var v).rename σ = .var (v.rename σ) := by
  obtain ⟨name, lower, upper⟩ := v
  rw [Ty.rename, App.renameAll_eq_map, App.renameAll_eq_map, Var.rename]

theorem App.rename_eq (a : App Ty) : a.rename σ = ⟨a.head, a.args.map (Ty.rename σ)⟩ := by
  obtain ⟨head, args⟩ := a
  rw [App.rename, Ty.renameAll_eq_map]

@[simp] theorem App.head_rename (a : App Ty) : (a.rename σ).head = a.head := by
  rw [App.rename_eq]

@[simp] theorem App.args_rename (a : App Ty) : (a.rename σ).args = a.args.map (Ty.rename σ) := by
  rw [App.rename_eq]

@[simp] theorem Ty.rename_anonymous : Ty.anonymous.rename σ = .anonymous := by
  rw [Ty.anonymous, Ty.rename_var, Var.rename, Var.free, σ.map_empty]
  rfl

@[simp] theorem Var.isAnonymous_rename (v : Var Ty) :
    (v.rename σ).isAnonymous = v.isAnonymous := by
  rw [Bool.eq_iff_iff, Var.isAnonymous, Var.isAnonymous, String.isEmpty_iff, String.isEmpty_iff,
    Var.rename, ← σ.map_empty]
  exact σ.injective.eq_iff.trans (by rw [σ.map_empty])

@[simp] theorem Var.isBounded_rename (v : Var Ty) : (v.rename σ).isBounded = v.isBounded := by
  rw [Var.isBounded, Var.isBounded, Var.rename, List.isEmpty_map, List.isEmpty_map]

@[simp] theorem Ty.isWildcard_rename (t : Ty) : (t.rename σ).isWildcard = t.isWildcard := by
  cases t with
  | app a => rw [Ty.rename_app, Ty.isWildcard, Ty.isWildcard]
  | var v => rw [Ty.rename_var, Ty.isWildcard, Ty.isWildcard, Var.isAnonymous_rename,
      Var.isBounded_rename]

theorem Ty.rename_refl (t : Ty) : t.rename .refl = t := by
  have hargs {ts : List Ty} (ih : ∀ t ∈ ts, t.rename .refl = t) : ts.map (Ty.rename .refl) = ts :=
    (List.map_congr_left ih).trans (List.map_id' ts)
  have hbounds {bs : List (App Ty)} (ih : ∀ b ∈ bs, ∀ t ∈ b.args, t.rename .refl = t) :
      bs.map (App.rename .refl) = bs := by
    refine (List.map_congr_left fun b hb => ?_).trans (List.map_id' bs)
    rw [App.rename_eq, hargs (ih b hb)]
  induction t using Ty.induct with
  | app head args ih => rw [Ty.rename_app, App.rename_eq, hargs ih]
  | var name lower upper lo up =>
      rw [Ty.rename_var, Var.rename, hbounds lo, hbounds up]
      rfl

theorem App.rename_refl (a : App Ty) : a.rename .refl = a :=
  Ty.app.inj ((Ty.rename_app _ a).symm.trans (Ty.rename_refl (.app a)))

/-- **Renaming makes nothing equal.** -/
theorem Ty.rename_injective : Function.Injective (Ty.rename σ) := by
  -- arguments stand in applications, and applications in bounds: one step for each kind of list
  have hlist {ts us : List Ty} (ih : ∀ t ∈ ts, ∀ u, t.rename σ = u.rename σ → t = u)
      (e : ts.map (Ty.rename σ) = us.map (Ty.rename σ)) : ts = us := by
    induction ts generalizing us with
    | nil => exact (List.map_eq_nil_iff.1 e.symm).symm
    | cons t ts iht =>
        obtain ⟨u, us', rfl, hu, hus⟩ := List.map_eq_cons_iff.1 e.symm
        rw [List.forall_mem_cons] at ih
        rw [ih.1 u hu.symm, iht ih.2 hus.symm]
  have happ {a b : App Ty} (ih : ∀ t ∈ a.args, ∀ u, t.rename σ = u.rename σ → t = u)
      (e : a.rename σ = b.rename σ) : a = b := by
    obtain ⟨f, as⟩ := a
    obtain ⟨g, bs⟩ := b
    rw [App.rename_eq, App.rename_eq] at e
    obtain ⟨hhead, hargs⟩ := App.mk.inj e
    exact congrArg₂ App.mk hhead (hlist ih hargs)
  have hbounds {as bs : List (App Ty)}
      (ih : ∀ b ∈ as, ∀ t ∈ b.args, ∀ u, t.rename σ = u.rename σ → t = u)
      (e : as.map (App.rename σ) = bs.map (App.rename σ)) : as = bs := by
    induction as generalizing bs with
    | nil => exact (List.map_eq_nil_iff.1 e.symm).symm
    | cons a as iha =>
        obtain ⟨b, bs', rfl, hb, hbs⟩ := List.map_eq_cons_iff.1 e.symm
        rw [List.forall_mem_cons] at ih
        rw [happ ih.1 hb.symm, iha ih.2 hbs.symm]
  intro t
  induction t using Ty.induct with
  | app head args ih =>
      intro u e
      cases u with
      | app b =>
          rw [Ty.rename_app, Ty.rename_app] at e
          rw [happ ih (Ty.app.inj e)]
      | var w =>
          rw [Ty.rename_app, Ty.rename_var] at e
          cases e
  | var name lower upper lo up =>
      intro u e
      cases u with
      | app b =>
          rw [Ty.rename_app, Ty.rename_var] at e
          cases e
      | var w =>
          obtain ⟨name', lower', upper'⟩ := w
          rw [Ty.rename_var, Ty.rename_var] at e
          obtain ⟨hname, hlo, hup⟩ := Var.mk.inj (Ty.var.inj e)
          cases σ.injective hname
          cases hbounds lo hlo
          cases hbounds up hup
          rfl

theorem App.rename_injective : Function.Injective (App.rename σ) := by
  intro a b e
  refine Ty.app.inj (Ty.rename_injective σ ?_)
  rw [Ty.rename_app, Ty.rename_app, e]

/-- Replacing renamed variables, by what is renamed in another way. -/
theorem Ty.mapVars_rename {f g : Var Ty → Ty} (hfg : ∀ v, g (v.rename σ) = (f v).rename τ)
    (t : Ty) : (t.rename σ).mapVars g = (t.mapVars f).rename τ := by
  induction t using Ty.induct with
  | app head args ih =>
      rw [Ty.rename_app, Ty.mapVars_app, Ty.mapVars_app, Ty.rename_app, App.mapVars_eq,
        App.mapVars_eq, App.rename_eq, App.rename_eq, List.map_map, List.map_map]
      exact congrArg (fun ts => Ty.app ⟨head, ts⟩) (List.map_congr_left ih)
  | var name lower upper _ _ =>
      rw [Ty.rename_var, Ty.mapVars_var, Ty.mapVars_var, hfg]

theorem App.mapVars_rename {f g : Var Ty → Ty} (hfg : ∀ v, g (v.rename σ) = (f v).rename τ)
    (a : App Ty) : (a.rename σ).mapVars g = (a.mapVars f).rename τ := by
  refine Ty.app.inj ?_
  rw [← Ty.mapVars_app, ← Ty.rename_app, ← Ty.rename_app, ← Ty.mapVars_app]
  exact Ty.mapVars_rename σ τ hfg (.app a)

mutual
theorem App.refine_rename : ∀ a b : App Ty,
    (a.rename σ).refine (b.rename σ) = (a.refine b).map (App.rename σ)
  | ⟨f, as⟩, ⟨g, bs⟩ => by
      rw [App.rename, App.rename, App.refine, App.refine, Ty.refineAll_rename as bs]
      split
      · rw [Option.map_map, Option.map_map]
        refine congrArg (Option.map · _) (funext fun cs => ?_)
        rw [Function.comp_apply, Function.comp_apply, App.rename]
      · rfl
termination_by structural a => a
theorem Ty.refine_rename : ∀ a b : Ty,
    (a.rename σ).refine (b.rename σ) = (a.refine b).map (Ty.rename σ)
  | .app a, .app b => by
      rw [Ty.rename_app, Ty.rename_app, Ty.refine, Ty.refine, App.refine_rename a b]
      rw [Option.map_map, Option.map_map]
      exact congrArg (Option.map · _) (funext fun c => (Ty.rename_app σ c).symm)
  | .app a, .var w => by
      have hw := Ty.isWildcard_rename σ (.var w)
      rw [Ty.rename_var] at hw
      rw [Ty.rename_app, Ty.rename_var, Ty.refine, Ty.refine, hw]
      split
      · rw [Option.map_some, Ty.rename_app]
      · rfl
  | .var v, b => by
      have hv := Ty.isWildcard_rename σ (.var v)
      have hb : b.rename σ = .var (v.rename σ) ↔ b = .var v := by
        rw [← Ty.rename_var]
        exact (Ty.rename_injective σ).eq_iff
      rw [Ty.rename_var] at hv
      rw [Ty.rename_var, Ty.refine, Ty.refine, hv, Ty.isWildcard_rename]
      simp only [hb]
      split
      · rfl
      · split
        · rw [Option.map_some, Ty.rename_var]
        · split
          · rw [Option.map_some, Ty.rename_var]
          · rfl
termination_by structural a => a
theorem Ty.refineAll_rename : ∀ as bs : List Ty,
    Ty.refineAll (Ty.renameAll σ as) (Ty.renameAll σ bs) =
      (Ty.refineAll as bs).map (Ty.renameAll σ)
  | [], [] => by
      simp only [Ty.renameAll, Ty.refineAll, Option.map_some]
  | [], _ :: _ => by
      simp only [Ty.renameAll, Ty.refineAll, Option.map_none]
  | _ :: _, [] => by
      simp only [Ty.renameAll, Ty.refineAll, Option.map_none]
  | a :: as, b :: bs => by
      rw [Ty.renameAll, Ty.renameAll, Ty.refineAll, Ty.refineAll, Ty.refine_rename a b,
        Ty.refineAll_rename as bs]
      cases a.refine b with
      | none => rfl
      | some c =>
          cases Ty.refineAll as bs with
          | none => rfl
          | some cs =>
              simp only [Option.map_some, Ty.renameAll]
termination_by structural as => as
end

end Instances

/-! ## 3. Nodes -/

/-- The parameter renamed. -/
def Param.rename (σ : Renaming) (p : Param) : Param := ⟨σ.map p.name, p.variance⟩

/-- The roster with its values replaced by their images. -/
def Roster.map {α β γ : Type} (f : β → γ) (r : Roster α β) : Roster α γ :=
  ⟨r.entries.map fun e => (e.1, f e.2)⟩

section Rosters

variable {α β γ : Type} [DecidableEq α] (f : β → γ) (r : Roster α β)

@[simp] theorem Roster.get?_map (k : α) : (r.map f).get? k = (r.get? k).map f := by
  obtain ⟨es⟩ := r
  rw [Roster.map, Roster.get?, Roster.get?]
  induction es with
  | nil => rfl
  | cons e es ih =>
      obtain ⟨k', v⟩ := e
      simp only [List.map_cons, Roster.lookup]
      split
      · rfl
      · exact ih

@[simp] theorem Roster.contains_map (k : α) : (r.map f).contains k = r.contains k := by
  rw [Roster.contains, Roster.contains, Roster.get?_map, Option.isSome_map]

theorem Roster.map_insert (k : α) (v : β) : (r.insert k v).map f = (r.map f).insert k (f v) := by
  obtain ⟨es⟩ := r
  simp only [Roster.map, Roster.insert, Roster.mk.injEq]
  induction es with
  | nil => rfl
  | cons e es ih =>
      obtain ⟨k', v'⟩ := e
      simp only [List.map_cons, Roster.write]
      split
      · rfl
      · rw [List.map_cons, ih]

end Rosters

/-- The node with its parameters renamed, in everything that is written in them. -/
def Node.rename (ρ : String → Renaming) (n : Node) : Node :=
  { n with
    params := n.params.map (Param.rename (ρ n.name))
    parents := n.parents.map (App.rename (ρ n.name))
    ancestors := n.ancestors.map (App.rename (ρ n.name)) }

namespace Node

variable (ρ : String → Renaming) (n : Node)

@[simp] theorem arity_rename : (n.rename ρ).arity = n.arity := List.length_map _

@[simp] theorem variance_rename : (n.rename ρ).variance = n.variance := by
  funext i
  rw [variance, variance, rename, List.getElem?_map, Option.map_map]
  rfl

@[simp] theorem paramIndex?_rename (name : String) :
    (n.rename ρ).paramIndex? ((ρ n.name).map name) = n.paramIndex? name := by
  rw [paramIndex?, paramIndex?, rename, List.findIdx?_map]
  congr 1
  funext p
  rw [Function.comp_apply, Param.rename, Bool.eq_iff_iff, beq_iff_eq, beq_iff_eq]
  exact (ρ n.name).injective.eq_iff

theorem argument_rename (τ : Renaming) (args : List Ty) (v : Var Ty) :
    (n.rename ρ).argument (args.map (Ty.rename τ)) (v.rename (ρ n.name)) =
      (n.argument args v).rename τ := by
  have hname : (v.rename (ρ n.name)).name = (ρ n.name).map v.name := rfl
  rw [argument, argument, hname, paramIndex?_rename]
  cases n.paramIndex? v.name with
  | none => exact (Ty.rename_anonymous τ).symm
  | some i =>
      rw [Option.bind_some, Option.bind_some, List.getElem?_map]
      cases args[i]? with
      | none => exact (Ty.rename_anonymous τ).symm
      | some t => rfl

/-- **A record with arguments put in is written in the names of the arguments.** -/
theorem substitute_rename (τ : Renaming) (r : App Ty) (args : List Ty) :
    (n.rename ρ).substitute (r.rename (ρ n.name)) (args.map (Ty.rename τ)) =
      (n.substitute r args).rename τ :=
  App.mapVars_rename _ τ (n.argument_rename ρ τ args) r

theorem rename_new (id : Nat) (name : String) (params : List Param) :
    (Node.new id name params).rename ρ =
      Node.new id name (params.map (Param.rename (ρ name))) := by
  have hgeneric : (generic name params).rename (ρ name) =
      generic name (params.map (Param.rename (ρ name))) := by
    rw [generic, generic, App.rename_eq, List.map_map, List.map_map]
    refine congrArg (App.mk name) (List.map_congr_left fun p _ => ?_)
    rw [Function.comp_apply, Ty.rename_var]
    rfl
  rw [rename, new, new, ← hgeneric]
  rfl

end Node

/-! ## 4. Refusals -/

/-- The misfit in a parent that is written in renamed parameters. -/
def Misfit.rename (σ : Renaming) : Misfit → Misfit
  | parentIsVariable child parent => parentIsVariable child (parent.rename σ)
  | unregistered name => unregistered name
  | wrongArity found declared => wrongArity (found.rename σ) declared
  | emptyRange lower range upper => emptyRange (lower.rename σ) (range.rename σ) (upper.rename σ)
  | boundedInParent child found => boundedInParent child (found.rename σ)
  | foreignVariable child name => foreignVariable child (σ.map name)

/-- The error of the same kind, with renamed parameters: `σ` renames those of the type that the
    call is about. -/
def Error.rename (ρ : String → Renaming) (σ : Renaming) : Error → Error
  | incompatible why => incompatible (why.rename σ)
  | notFinalized => notFinalized
  | alreadyFinalized => alreadyFinalized
  | duplicateType name => duplicateType name
  | duplicateParam type param => duplicateParam type ((ρ type).map param)
  | undefinedType name => undefinedType name
  | cyclicParent child parent => cyclicParent child parent
  | conflict type existing incoming =>
      conflict type (existing.rename (ρ type)) (incoming.rename (ρ type))
  | unreadable report => unreadable report

/-- The hierarchy with the parameters of all types renamed. -/
def Hierarchy.rename (ρ : String → Renaming) (h : Hierarchy) : Hierarchy :=
  ⟨h.nodes.map (Node.rename ρ), h.tables⟩

namespace Hierarchy

variable (ρ ρ' : String → Renaming) (σ : Renaming) (h : Hierarchy)

@[simp] theorem find?_rename (name : String) :
    (h.rename ρ).find? name = (h.find? name).map (Node.rename ρ) := List.find?_map ..

@[simp] theorem idOf?_rename (name : String) : (h.rename ρ).idOf? name = h.idOf? name :=
  List.findIdx?_map ..

@[simp] theorem getElem?_rename (i : Nat) :
    (h.rename ρ).nodes[i]? = h.nodes[i]?.map (Node.rename ρ) := List.getElem?_map ..

mutual
theorem normalize_rename : ∀ t : Ty, (h.rename ρ).normalize (t.rename σ) =
    outcome (Error.rename ρ' σ) (Ty.rename σ) (h.normalize t)
  | .app a => by
      rw [Ty.rename, normalize, normalize]
      exact outcome_bind (normalizeApp_rename a) fun b =>
        congrArg Except.ok (Ty.rename_app σ b).symm
  | .var ⟨name, lower, upper⟩ => by
      rw [Ty.rename, normalize, normalize]
      refine outcome_bind (normalizeApps_rename lower) fun lo =>
        outcome_bind (normalizeApps_rename upper) fun up => ?_
      exact congrArg Except.ok (Ty.rename_var σ ⟨name, lo, up⟩).symm
theorem normalizeApp_rename : ∀ a : App Ty, (h.rename ρ).normalizeApp (a.rename σ) =
    outcome (Error.rename ρ' σ) (App.rename σ) (h.normalizeApp a)
  | ⟨head, args⟩ => by
      rw [App.rename, normalizeApp, normalizeApp, find?_rename]
      cases h.find? head with
      | none => rfl
      | some n =>
          rw [Option.map_some]
          dsimp only
          rw [Node.arity_rename, Ty.renameAll_eq_map, List.isEmpty_map, List.length_map]
          split
          · rw [outcome, App.rename_eq, List.map_replicate, Ty.rename_anonymous]
          · split
            · rw [← Ty.renameAll_eq_map]
              exact outcome_bind (normalizeAll_rename args) fun ts =>
                congrArg Except.ok (App.rename_eq σ ⟨head, ts⟩).symm
            · rw [outcome, Error.rename, Misfit.rename, App.rename_eq]
theorem normalizeAll_rename : ∀ ts : List Ty, (h.rename ρ).normalizeAll (Ty.renameAll σ ts) =
    outcome (Error.rename ρ' σ) (List.map (Ty.rename σ)) (h.normalizeAll ts)
  | [] => by
      rw [Ty.renameAll, normalizeAll, normalizeAll]
      rfl
  | t :: ts => by
      rw [Ty.renameAll, normalizeAll, normalizeAll]
      exact outcome_bind (normalize_rename t) fun u =>
        outcome_bind (normalizeAll_rename ts) fun us => rfl
theorem normalizeApps_rename : ∀ as : List (App Ty),
    (h.rename ρ).normalizeApps (App.renameAll σ as) =
      outcome (Error.rename ρ' σ) (List.map (App.rename σ)) (h.normalizeApps as)
  | [] => by
      rw [App.renameAll, normalizeApps, normalizeApps]
      rfl
  | a :: as => by
      rw [App.renameAll, normalizeApps, normalizeApps]
      exact outcome_bind (normalizeApp_rename a) fun b =>
        outcome_bind (normalizeApps_rename as) fun bs => rfl
end

mutual
theorem foreign_rename (child : Node) : ∀ t : Ty,
    foreign (child.rename ρ) (t.rename (ρ child.name)) =
      (foreign child t).map (Misfit.rename (ρ child.name))
  | .app a => by rw [Ty.rename_app, foreign, foreign, foreignApp_rename child a]
  | .var v => by
      have hindex : (child.rename ρ).paramIndex? (v.rename (ρ child.name)).name =
          child.paramIndex? v.name := child.paramIndex?_rename ρ v.name
      rw [Ty.rename_var, foreign, foreign, Var.isBounded_rename, Var.isAnonymous_rename, hindex]
      split
      · rfl
      · split
        · rfl
        · rfl
theorem foreignApp_rename (child : Node) : ∀ a : App Ty,
    foreignApp (child.rename ρ) (a.rename (ρ child.name)) =
      (foreignApp child a).map (Misfit.rename (ρ child.name))
  | ⟨head, args⟩ => by rw [App.rename, foreignApp, foreignApp, foreignAny_rename child args]
theorem foreignAny_rename (child : Node) : ∀ ts : List Ty,
    foreignAny (child.rename ρ) (Ty.renameAll (ρ child.name) ts) =
      (foreignAny child ts).map (Misfit.rename (ρ child.name))
  | [] => by
      rw [Ty.renameAll, foreignAny, foreignAny]
      rfl
  | t :: ts => by
      rw [Ty.renameAll, foreignAny, foreignAny, foreign_rename child t,
        foreignAny_rename child ts, Option.map_or]
end

end Hierarchy

end Lineage

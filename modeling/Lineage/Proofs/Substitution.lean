import Lineage.Hierarchy.Node

/-!
# Putting arguments into records

What `Ty.mapVars` does to the variables of an instance, and what follows for `Node.substitute`:

* variables that come out are variables of the images (`Ty.mem_vars_mapVars`), so a record stays
  inside the parameters of the type it is written for (`Node.Admits`);
* substitutions one after the other are one substitution (`Node.substitute_substitute`);
* a type applied to its own parameters is neutral on both sides (`Node.substitute_self`,
  `Node.substitute_generic`).

A parameter without a name would catch every `_` of a record. What needs `_` to stay put asks for
`paramIndex? "" = none`.
-/

namespace Lineage

/-! ## 1. Variables of an instance -/

@[simp] theorem Ty.vars_app (a : App Ty) : (Ty.app a).vars = a.vars := by rw [Ty.vars]

@[simp] theorem Ty.vars_var (v : Var Ty) : (Ty.var v).vars = [v] := by rw [Ty.vars]

theorem App.mapVars_eq (f : Var Ty → Ty) (a : App Ty) :
    a.mapVars f = ⟨a.head, a.args.map (Ty.mapVars f)⟩ := by
  obtain ⟨head, args⟩ := a
  rw [App.mapVars, Ty.mapVarsAll_eq_map]

theorem App.mem_vars {a : App Ty} {v : Var Ty} : v ∈ a.vars ↔ ∃ t ∈ a.args, v ∈ t.vars := by
  rw [App.vars_eq_flatMap, List.mem_flatMap]

/-- **The variables of an image are the variables of the images.** -/
theorem Ty.vars_mapVars (f : Var Ty → Ty) (t : Ty) :
    (t.mapVars f).vars = t.vars.flatMap fun v => (f v).vars := by
  induction t using Ty.induct with
  | app head args ih =>
      rw [Ty.mapVars_app, Ty.vars_app, Ty.vars_app, App.vars_eq_flatMap, App.vars_eq_flatMap,
        App.args_mapVars, List.flatMap_map, List.flatMap_assoc, List.flatMap_def,
        List.map_congr_left ih, ← List.flatMap_def]
  | var name lower upper => simp

theorem App.vars_mapVars (f : Var Ty → Ty) (a : App Ty) :
    (a.mapVars f).vars = a.vars.flatMap fun v => (f v).vars := by
  simpa using Ty.vars_mapVars f (.app a)

theorem Ty.mem_vars_mapVars {f : Var Ty → Ty} {v : Var Ty} (t : Ty) :
    v ∈ (t.mapVars f).vars ↔ ∃ w ∈ t.vars, v ∈ (f w).vars := by
  rw [Ty.vars_mapVars, List.mem_flatMap]

theorem App.mem_vars_mapVars {f : Var Ty → Ty} {v : Var Ty} (a : App Ty) :
    v ∈ (a.mapVars f).vars ↔ ∃ w ∈ a.vars, v ∈ (f w).vars := by
  rw [App.vars_mapVars, List.mem_flatMap]

/-- Images depend on the variables that occur. -/
theorem Ty.mapVars_congr {f g : Var Ty → Ty} (t : Ty) (h : ∀ v ∈ t.vars, f v = g v) :
    t.mapVars f = t.mapVars g := by
  induction t using Ty.induct with
  | app head args ih =>
      rw [Ty.mapVars_app, Ty.mapVars_app, App.mapVars_eq, App.mapVars_eq]
      have hargs : args.map (Ty.mapVars f) = args.map (Ty.mapVars g) :=
        List.map_congr_left fun t ht => ih t ht fun v hv =>
          h v (by rw [Ty.vars_app]; exact App.mem_vars.2 ⟨t, ht, hv⟩)
      simp only [hargs]
  | var name lower upper =>
      rw [Ty.mapVars_var, Ty.mapVars_var]
      exact h _ (by simp)

theorem App.mapVars_congr {f g : Var Ty → Ty} (a : App Ty) (h : ∀ v ∈ a.vars, f v = g v) :
    a.mapVars f = a.mapVars g := by
  have := Ty.mapVars_congr (f := f) (g := g) (.app a) (by simpa using h)
  simpa using this

/-- Replacing every variable by itself changes nothing. -/
theorem Ty.mapVars_eq_self {f : Var Ty → Ty} (t : Ty) (h : ∀ v ∈ t.vars, f v = .var v) :
    t.mapVars f = t := by
  induction t using Ty.induct with
  | app head args ih =>
      rw [Ty.mapVars_app, App.mapVars_eq]
      have hargs : args.map (Ty.mapVars f) = args := by
        refine (List.map_congr_left fun t ht => ?_).trans (List.map_id args)
        exact ih t ht fun v hv => h v (by rw [Ty.vars_app]; exact App.mem_vars.2 ⟨t, ht, hv⟩)
      simp only [hargs]
  | var name lower upper =>
      rw [Ty.mapVars_var]
      exact h _ (by simp)

/-- **Replacing twice is replacing once.** -/
theorem Ty.mapVars_mapVars (f g : Var Ty → Ty) (t : Ty) :
    (t.mapVars f).mapVars g = t.mapVars fun v => (f v).mapVars g := by
  induction t using Ty.induct with
  | app head args ih =>
      simp only [Ty.mapVars_app, App.mapVars_eq, List.map_map]
      have hargs : args.map (Ty.mapVars g ∘ Ty.mapVars f) =
          args.map (Ty.mapVars fun v => (f v).mapVars g) :=
        List.map_congr_left fun t ht => ih t ht
      rw [hargs]
  | var name lower upper => simp

theorem App.mapVars_mapVars (f g : Var Ty → Ty) (a : App Ty) :
    (a.mapVars f).mapVars g = a.mapVars fun v => (f v).mapVars g := by
  have := Ty.mapVars_mapVars f g (.app a)
  simpa using this

/-! ## 2. The variables that records may mention -/

namespace Node

variable {n m : Node}

/-- Whether a variable may stand in a record of the node: it has no bounds, and it is `_` or names
    a parameter. -/
def Admits (n : Node) (v : Var Ty) : Prop :=
  v.isBounded = false ∧ (v.isAnonymous = true ∨ (n.paramIndex? v.name).isSome = true)

/-- The node as it was declared. -/
def bare (n : Node) : Node := Node.new n.id n.name n.params

theorem bare_eq_iff : n.bare = m.bare ↔ n.id = m.id ∧ n.name = m.name ∧ n.params = m.params := by
  constructor
  · intro h
    have hi : n.bare.id = m.bare.id := congrArg Node.id h
    have hn : n.bare.name = m.bare.name := congrArg Node.name h
    have hp : n.bare.params = m.bare.params := congrArg Node.params h
    exact ⟨hi, hn, hp⟩
  · rintro ⟨hi, hn, hp⟩
    rw [bare, bare, hi, hn, hp]

theorem paramIndex?_bare (n : Node) : n.bare.paramIndex? = n.paramIndex? := rfl

theorem variance_bare (n : Node) : n.bare.variance = n.variance := rfl

theorem substitute_bare (n : Node) : n.bare.substitute = n.substitute := rfl

theorem paramIndex?_eq_some {name : String} {i : Nat} (h : n.paramIndex? name = some i) :
    ∃ p, n.params[i]? = some p ∧ p.name = name := by
  rw [paramIndex?, List.findIdx?_eq_some_iff_getElem] at h
  obtain ⟨hi, hp, -⟩ := h
  exact ⟨n.params[i], List.getElem?_eq_getElem hi, by simpa using hp⟩

theorem paramIndex?_lt {name : String} {i : Nat} (h : n.paramIndex? name = some i) :
    i < n.arity := by
  obtain ⟨p, hp, -⟩ := paramIndex?_eq_some h
  exact (List.getElem?_eq_some_iff.1 hp).1

/-- **Parameters of different names are found at their own positions.** -/
theorem paramIndex?_of_nodup (hn : (n.params.map Param.name).Nodup) {i : Nat} {p : Param}
    (hp : n.params[i]? = some p) : n.paramIndex? p.name = some i := by
  obtain ⟨hi, rfl⟩ := List.getElem?_eq_some_iff.1 hp
  rw [paramIndex?, List.findIdx?_eq_some_iff_getElem]
  refine ⟨hi, by simp, fun j hj => ?_⟩
  have hj' : j < n.params.length := Nat.lt_trans hj hi
  have hne : n.params[j].name ≠ n.params[i].name := by
    intro e
    have : j = i := (List.getElem?_inj (by simpa using hj') hn).1 (by
      simp [List.getElem?_eq_getElem hi, List.getElem?_eq_getElem hj', e])
    omega
  simpa using hne

theorem paramIndex?_isSome_iff {name : String} :
    (n.paramIndex? name).isSome = true ↔ name ∈ n.params.map Param.name := by
  rw [paramIndex?, List.findIdx?_isSome, List.any_eq_true, List.mem_map]
  simp

/-! ## 3. The argument a variable stands for -/

theorem argument_of_index {args : List Ty} {v : Var Ty} {i : Nat} {t : Ty}
    (hi : n.paramIndex? v.name = some i) (ht : args[i]? = some t) : n.argument args v = t := by
  simp [argument, hi, ht]

theorem argument_of_none {args : List Ty} {v : Var Ty} (hv : n.paramIndex? v.name = none) :
    n.argument args v = .anonymous := by
  simp [argument, hv]

theorem argument_eq_or_mem (n : Node) (args : List Ty) (v : Var Ty) :
    n.argument args v = .anonymous ∨ n.argument args v ∈ args := by
  cases hi : n.paramIndex? v.name with
  | none => exact Or.inl (argument_of_none hi)
  | some i =>
      cases ht : args[i]? with
      | none => exact Or.inl (by simp [argument, hi, ht])
      | some t =>
          rw [argument_of_index hi ht]
          exact Or.inr (List.mem_of_getElem? ht)

/-- With as many arguments as parameters, a parameter stands for one of them. -/
theorem argument_mem {args : List Ty} (hl : args.length = n.arity) {v : Var Ty}
    (hv : (n.paramIndex? v.name).isSome = true) : n.argument args v ∈ args := by
  obtain ⟨i, hi⟩ := Option.isSome_iff_exists.1 hv
  have hlt : i < args.length := hl ▸ paramIndex?_lt hi
  rw [argument_of_index hi (List.getElem?_eq_getElem hlt)]
  exact List.getElem_mem hlt

theorem argument_map {g : Ty → Ty} (hg : g .anonymous = .anonymous) (args : List Ty) (v : Var Ty) :
    n.argument (args.map g) v = g (n.argument args v) := by
  cases hi : n.paramIndex? v.name with
  | none => rw [argument_of_none hi, argument_of_none hi, hg]
  | some i =>
      cases ht : args[i]? with
      | none => simp [argument, hi, ht, hg]
      | some t =>
          rw [argument_of_index hi ht]
          exact argument_of_index hi (by rw [List.getElem?_map, ht]; rfl)

/-- Where no parameter is nameless, `_` stays `_`. -/
theorem argument_anonymous (hn : n.paramIndex? "" = none) (args : List Ty) :
    n.argument args (.free "") = .anonymous :=
  argument_of_none (v := .free "") hn

/-! ## 4. Substitution -/

theorem head_substitute (n : Node) (r : App Ty) (args : List Ty) :
    (n.substitute r args).head = r.head := App.head_mapVars _ r

theorem args_substitute (n : Node) (r : App Ty) (args : List Ty) :
    (n.substitute r args).args = r.args.map (Ty.mapVars (n.argument args)) := App.args_mapVars _ r

/-- **Arguments that a type admits give a record that it admits.** -/
theorem admits_substitute {r : App Ty} {args : List Ty}
    (ha : ∀ t ∈ args, ∀ v ∈ t.vars, m.Admits v) :
    ∀ v ∈ (n.substitute r args).vars, m.Admits v := by
  intro v hv
  obtain ⟨w, -, hvw⟩ := (App.mem_vars_mapVars r).1 hv
  rcases n.argument_eq_or_mem args w with h | h
  · rw [h, Ty.anonymous, Ty.vars_var, List.mem_singleton] at hvw
    subst hvw
    exact ⟨rfl, Or.inl rfl⟩
  · exact ha _ h v hvw

/-- **Substitution is associative** where `_` stays put. -/
theorem substitute_substitute (hn : n.paramIndex? "" = none) (r : App Ty) (xs ys : List Ty) :
    n.substitute (m.substitute r xs) ys =
      m.substitute r (xs.map (Ty.mapVars (n.argument ys))) := by
  rw [substitute, substitute, substitute, App.mapVars_mapVars]
  refine App.mapVars_congr r fun v _ => ?_
  rw [argument_map]
  rw [Ty.anonymous, Ty.mapVars_var, argument_anonymous hn, Ty.anonymous]

/-- A type applied to its parameters becomes the type applied to the arguments. -/
theorem substitute_self (hn : (n.params.map Param.name).Nodup) {args : List Ty}
    (hl : args.length = n.arity) : n.substitute n.self args = ⟨n.name, args⟩ := by
  rw [substitute, App.mapVars_eq, self, generic, List.map_map]
  congr 1
  refine List.ext_getElem? fun i => ?_
  rw [List.getElem?_map]
  cases hp : n.params[i]? with
  | none =>
      have : args.length ≤ i := hl ▸ List.getElem?_eq_none_iff.1 hp
      simp [List.getElem?_eq_none_iff.2 this]
  | some p =>
      have hi : i < args.length := hl ▸ (List.getElem?_eq_some_iff.1 hp).1
      rw [List.getElem?_eq_getElem hi]
      exact congrArg some (argument_of_index (v := .free p.name) (paramIndex?_of_nodup hn hp)
        (List.getElem?_eq_getElem hi))

/-- A record with the parameters themselves put in is unchanged. -/
theorem substitute_generic {r : App Ty} (hr : ∀ v ∈ r.vars, n.Admits v) :
    n.substitute r n.self.args = r := by
  have key : (Ty.app r).mapVars (n.argument n.self.args) = .app r := by
    refine Ty.mapVars_eq_self _ fun v hv => ?_
    obtain ⟨hb, hv⟩ := hr v (by simpa using hv)
    obtain ⟨name, lower, upper⟩ := v
    simp only [Var.isBounded, Bool.or_eq_false_iff, Bool.not_eq_false', List.isEmpty_iff] at hb
    obtain ⟨rfl, rfl⟩ := hb
    cases hi : n.paramIndex? name with
    | none =>
        have : name = "" := by simpa [hi, Var.isAnonymous] using hv
        subst this
        rw [argument_of_none hi]
        rfl
    | some i =>
        obtain ⟨p, hp, rfl⟩ := paramIndex?_eq_some hi
        refine argument_of_index hi ?_
        simp [self, generic, hp, Var.free]
  simpa [substitute] using key

end Node

end Lineage

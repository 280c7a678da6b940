import Lineage.Ty.Basic

/-!
# Replacing variables

`Ty.mapVars f` replaces every variable of an instance by what `f` makes of it. The bounds of a
variable are not entered: `f` sees the variable whole. `Ty.vars` lists the variables in the order
in which they are met.
-/

namespace Lineage

mutual
/-- Replace every variable by its image. -/
def Ty.mapVars (f : Var Ty → Ty) : Ty → Ty
  | .app a => .app (a.mapVars f)
  | .var v => f v
/-- Replace every variable of the arguments by its image. -/
def App.mapVars (f : Var Ty → Ty) : App Ty → App Ty
  | ⟨head, args⟩ => ⟨head, Ty.mapVarsAll f args⟩
/-- `Ty.mapVars` on every instance of a list. -/
def Ty.mapVarsAll (f : Var Ty → Ty) : List Ty → List Ty
  | [] => []
  | t :: ts => t.mapVars f :: Ty.mapVarsAll f ts
end

mutual
/-- The variables that `Ty.mapVars` replaces, from left to right. -/
def Ty.vars : Ty → List (Var Ty)
  | .app a => a.vars
  | .var v => [v]
/-- The variables among the arguments, from left to right. -/
def App.vars : App Ty → List (Var Ty)
  | ⟨_, args⟩ => Ty.varsAll args
/-- The variables of a list of instances, from left to right. -/
def Ty.varsAll : List Ty → List (Var Ty)
  | [] => []
  | t :: ts => t.vars ++ Ty.varsAll ts
end

@[simp] theorem Ty.mapVars_app (f : Var Ty → Ty) (a : App Ty) :
    (Ty.app a).mapVars f = .app (a.mapVars f) := by rw [Ty.mapVars]

@[simp] theorem Ty.mapVars_var (f : Var Ty → Ty) (v : Var Ty) : (Ty.var v).mapVars f = f v := by
  rw [Ty.mapVars]

theorem Ty.mapVarsAll_eq_map (f : Var Ty → Ty) :
    ∀ ts : List Ty, Ty.mapVarsAll f ts = ts.map (Ty.mapVars f)
  | [] => by rw [Ty.mapVarsAll, List.map_nil]
  | t :: ts => by rw [Ty.mapVarsAll, List.map_cons, Ty.mapVarsAll_eq_map f ts]

@[simp] theorem App.head_mapVars (f : Var Ty → Ty) (a : App Ty) : (a.mapVars f).head = a.head := by
  obtain ⟨head, args⟩ := a
  rw [App.mapVars]

@[simp] theorem App.args_mapVars (f : Var Ty → Ty) (a : App Ty) :
    (a.mapVars f).args = a.args.map (Ty.mapVars f) := by
  obtain ⟨head, args⟩ := a
  rw [App.mapVars, Ty.mapVarsAll_eq_map]

theorem Ty.varsAll_eq_flatMap : ∀ ts : List Ty, Ty.varsAll ts = ts.flatMap Ty.vars
  | [] => by rw [Ty.varsAll, List.flatMap_nil]
  | t :: ts => by rw [Ty.varsAll, List.flatMap_cons, Ty.varsAll_eq_flatMap ts]

theorem App.vars_eq_flatMap (a : App Ty) : a.vars = a.args.flatMap Ty.vars := by
  obtain ⟨head, args⟩ := a
  rw [App.vars, Ty.varsAll_eq_flatMap]

end Lineage

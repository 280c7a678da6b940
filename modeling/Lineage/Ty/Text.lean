import Lineage.Ty.Basic

/-!
# Type instances in writing

* an application is its head, with the arguments in brackets unless there are none: `map[k, v]`;
* a variable is its name, `_` when it has none;
* bounds stand beside the name: `t <: U, V` above, `t >: L, M` below, `L, M <: t <: U, V` both.
-/

namespace Lineage

/-- Items with a comma and a space between them. -/
def commaList (items : List String) : String := ", ".intercalate items

/-- The name as written: `_` stands for the empty one. -/
def Var.label (v : Var Ty) : String := if v.isAnonymous then "_" else v.name

/-- A head with the written arguments in brackets, if there are any. -/
def App.frame (head : String) : List String → String
  | [] => head
  | arg :: args => head ++ "[" ++ commaList (arg :: args) ++ "]"

/-- A name between the written bounds of both sides. -/
def Var.frame (label : String) : (lower upper : List String) → String
  | [], [] => label
  | [], up :: ups => label ++ " <: " ++ commaList (up :: ups)
  | lo :: los, [] => label ++ " >: " ++ commaList (lo :: los)
  | lo :: los, up :: ups =>
      commaList (lo :: los) ++ " <: " ++ label ++ " <: " ++ commaList (up :: ups)

mutual
/-- The written form of an instance. -/
def Ty.text : Ty → String
  | .app a => a.text
  | .var ⟨name, lower, upper⟩ =>
      Var.frame (Var.label ⟨name, lower, upper⟩) (App.texts lower) (App.texts upper)
/-- The written form of an application. -/
def App.text : App Ty → String
  | ⟨head, args⟩ => App.frame head (Ty.texts args)
/-- The written forms of a list of instances. -/
def Ty.texts : List Ty → List String
  | [] => []
  | t :: ts => t.text :: Ty.texts ts
/-- The written forms of a list of applications. -/
def App.texts : List (App Ty) → List String
  | [] => []
  | a :: as => a.text :: App.texts as
end

/-- The written form of a variable. -/
def Var.text (v : Var Ty) : String := (Ty.var v).text

theorem Ty.texts_eq_map : ∀ ts : List Ty, Ty.texts ts = ts.map Ty.text
  | [] => by rw [Ty.texts, List.map_nil]
  | t :: ts => by rw [Ty.texts, List.map_cons, Ty.texts_eq_map ts]

theorem App.texts_eq_map : ∀ as : List (App Ty), App.texts as = as.map App.text
  | [] => by rw [App.texts, List.map_nil]
  | a :: as => by rw [App.texts, List.map_cons, App.texts_eq_map as]

@[simp] theorem Ty.text_app (a : App Ty) : (Ty.app a).text = a.text := by rw [Ty.text]

theorem App.text_eq (a : App Ty) : a.text = App.frame a.head (a.args.map Ty.text) := by
  obtain ⟨head, args⟩ := a
  rw [App.text, Ty.texts_eq_map]

theorem Var.text_eq (v : Var Ty) :
    v.text = Var.frame v.label (v.lower.map App.text) (v.upper.map App.text) := by
  obtain ⟨name, lower, upper⟩ := v
  rw [Var.text, Ty.text, App.texts_eq_map, App.texts_eq_map]

end Lineage

import Lineage.Ty.Basic

/-!
# Joining two instances into the more specific one

* `App.refine` joins two records of one ancestor that differ only where one of them has `_`. Named
  variables are parameters of the heir and agree with themselves only.
* `Ty.merge` joins two instances at an invariant position: they have to be equal up to variables
  without bounds, whatever their names.
-/

namespace Lineage

mutual
/-- The more specific of two records, if they differ by `_` only. -/
def App.refine : App Ty → App Ty → Option (App Ty)
  | ⟨f, as⟩, ⟨g, bs⟩ => if f = g then (Ty.refineAll as bs).map (⟨f, ·⟩) else none
termination_by structural a => a
/-- The more specific of two arguments of records. -/
def Ty.refine : Ty → Ty → Option Ty
  | .app a, .app b => (a.refine b).map .app
  | .app a, .var w => if (Ty.var w).isWildcard then some (.app a) else none
  | .var v, b =>
      if (Ty.var v).isWildcard then some b
      else if b.isWildcard then some (.var v)
      else if b = .var v then some (.var v)
      else none
termination_by structural a => a
/-- `Ty.refine` position by position, on lists of one length. -/
def Ty.refineAll : List Ty → List Ty → Option (List Ty)
  | [], [] => some []
  | a :: as, b :: bs =>
      match a.refine b, Ty.refineAll as bs with
      | some c, some cs => some (c :: cs)
      | _, _ => none
  | _, _ => none
termination_by structural as => as
end

mutual
/-- The more specific of two instances that are equal up to variables without bounds. -/
def Ty.merge : Ty → Ty → Option Ty
  | .app ⟨f, as⟩, .app ⟨g, bs⟩ =>
      if f = g then (Ty.mergeAll as bs).map fun cs => .app ⟨f, cs⟩ else none
  | .app a, .var w => if w.isBounded then none else some (.app a)
  | .var v, b =>
      if !v.isBounded then some b
      else match b with
        | .app _ => none
        | .var w => if !w.isBounded || v.equivalent w then some (.var v) else none
termination_by structural a => a
/-- `Ty.merge` position by position, on lists of one length. -/
def Ty.mergeAll : List Ty → List Ty → Option (List Ty)
  | [], [] => some []
  | a :: as, b :: bs =>
      match a.merge b, Ty.mergeAll as bs with
      | some c, some cs => some (c :: cs)
      | _, _ => none
  | _, _ => none
termination_by structural as => as
end

end Lineage

import Lineage.Variance

/-!
# Type instances

A type instance is one of two things:

* an *application* (`App`): a named type with positional arguments, `list[int]`;
* a *variable* (`Var`): a name with lower and upper bounds, `int <: t <: number`. Bounds are
  applications. The empty name marks the anonymous variable, written `_`.

Both structures take the type of their arguments as a parameter, and `Ty` ties the knot. Functions
on `Ty` come as families: one on instances, one on applications, one on each kind of list.
-/

namespace Lineage

/-- A named type applied to positional arguments. -/
structure App (α : Type) where
  head : String
  args : List α
  deriving DecidableEq

/-- A type variable with its bounds in the order in which they were written. -/
structure Var (α : Type) where
  name : String
  lower : List (App α)
  upper : List (App α)
  deriving DecidableEq

/-- A type instance: an application or a variable. -/
inductive Ty where
  | app (a : App Ty)
  | var (v : Var Ty)

instance : Inhabited Ty := ⟨.var ⟨"", [], []⟩⟩

/-! ## 1. Induction -/

/-- Induction on instances: the hypothesis covers the arguments of an application, and the
    arguments of every bound of a variable. -/
theorem Ty.induct {P : Ty → Prop}
    (app : ∀ head args, (∀ t ∈ args, P t) → P (.app ⟨head, args⟩))
    (var : ∀ name lower upper, (∀ b ∈ lower, ∀ t ∈ b.args, P t) →
      (∀ b ∈ upper, ∀ t ∈ b.args, P t) → P (.var ⟨name, lower, upper⟩)) (t : Ty) : P t :=
  @Ty.rec P
    (fun a => ∀ t ∈ a.args, P t)
    (fun v => (∀ b ∈ v.lower, ∀ t ∈ b.args, P t) ∧ (∀ b ∈ v.upper, ∀ t ∈ b.args, P t))
    (fun ts => ∀ t ∈ ts, P t)
    (fun bs => ∀ b ∈ bs, ∀ t ∈ b.args, P t)
    (fun a ih => app a.head a.args ih)
    (fun v ih => var v.name v.lower v.upper ih.1 ih.2)
    (fun _ _ ih => ih)
    (fun _ _ _ lo up => ⟨lo, up⟩)
    (fun _ h => nomatch h)
    (fun _ _ ht hts => List.forall_mem_cons.2 ⟨ht, hts⟩)
    (fun _ h => nomatch h)
    (fun _ _ hb hbs => List.forall_mem_cons.2 ⟨hb, hbs⟩)
    t

/-! ## 2. Equality -/

mutual
/-- Whether two instances are the same, names and order of bounds included. -/
def Ty.same : Ty → Ty → Bool
  | .app a, .app b => a.same b
  | .var ⟨x, lo, up⟩, .var ⟨y, lo', up'⟩ => x == y && App.sameAll lo lo' && App.sameAll up up'
  | _, _ => false
termination_by structural t => t
/-- `Ty.same` on applications. -/
def App.same : App Ty → App Ty → Bool
  | ⟨f, as⟩, ⟨g, bs⟩ => f == g && Ty.sameAll as bs
termination_by structural a => a
/-- `Ty.same` position by position. -/
def Ty.sameAll : List Ty → List Ty → Bool
  | [], [] => true
  | a :: as, b :: bs => a.same b && Ty.sameAll as bs
  | _, _ => false
termination_by structural as => as
/-- `App.same` position by position. -/
def App.sameAll : List (App Ty) → List (App Ty) → Bool
  | [], [] => true
  | a :: as, b :: bs => a.same b && App.sameAll as bs
  | _, _ => false
termination_by structural as => as
end

mutual
theorem Ty.same_iff : ∀ a b : Ty, a.same b = true ↔ a = b
  | .app a, .app b => by rw [Ty.same, App.same_iff a b, Ty.app.injEq]
  | .var ⟨x, lo, up⟩, .var ⟨y, lo', up'⟩ => by
      simp [Ty.same, App.sameAll_iff lo lo', App.sameAll_iff up up', and_assoc]
  | .app _, .var _ => by simp [Ty.same]
  | .var _, .app _ => by simp [Ty.same]
termination_by structural a => a
theorem App.same_iff : ∀ a b : App Ty, a.same b = true ↔ a = b
  | ⟨f, as⟩, ⟨g, bs⟩ => by simp [App.same, Ty.sameAll_iff as bs]
termination_by structural a => a
theorem Ty.sameAll_iff : ∀ as bs : List Ty, Ty.sameAll as bs = true ↔ as = bs
  | [], [] => by simp [Ty.sameAll]
  | [], _ :: _ => by simp [Ty.sameAll]
  | _ :: _, [] => by simp [Ty.sameAll]
  | a :: as, b :: bs => by simp [Ty.sameAll, Ty.same_iff a b, Ty.sameAll_iff as bs]
termination_by structural as => as
theorem App.sameAll_iff : ∀ as bs : List (App Ty), App.sameAll as bs = true ↔ as = bs
  | [], [] => by simp [App.sameAll]
  | [], _ :: _ => by simp [App.sameAll]
  | _ :: _, [] => by simp [App.sameAll]
  | a :: as, b :: bs => by simp [App.sameAll, App.same_iff a b, App.sameAll_iff as bs]
termination_by structural as => as
end

instance : DecidableEq Ty := fun a b => decidable_of_iff _ (Ty.same_iff a b)

/-! ## 3. Making and telling apart -/

namespace Var

/-- The variable of a name, without bounds. -/
def free (name : String) : Var Ty := ⟨name, [], []⟩

/-- Whether the variable is written `_`. -/
def isAnonymous (v : Var Ty) : Bool := v.name.isEmpty

/-- Whether the variable has a bound on either side. -/
def isBounded (v : Var Ty) : Bool := !v.lower.isEmpty || !v.upper.isEmpty

end Var

namespace Ty

/-- The application in an instance that is one. -/
def app? : Ty → Option (App Ty)
  | app a => some a
  | var _ => none

/-- The variable in an instance that is one. -/
def var? : Ty → Option (Var Ty)
  | app _ => none
  | var v => some v

/-- The head of an application, the name of a variable. -/
def name : Ty → String
  | app a => a.head
  | var v => v.name

/-- The anonymous variable without bounds, written `_`. -/
def anonymous : Ty := var (.free "")

/-- Whether the instance is a variable without bounds, named or not. Such a variable never narrows
    anything. -/
def isFree : Ty → Bool
  | app _ => false
  | var v => !v.isBounded

/-- Whether the instance is `_`: a variable with neither name nor bounds. -/
def isWildcard : Ty → Bool
  | app _ => false
  | var v => v.isAnonymous && !v.isBounded

end Ty

/-- A variable bounded by those of the given instances that are applications; the others are
    dropped. -/
def Var.bounded (name : String) (lower upper : List Ty) : Var Ty :=
  ⟨name, lower.filterMap Ty.app?, upper.filterMap Ty.app?⟩

/-! ## 4. Equivalence -/

/-- Lists of bounds that are equally long and hold the same members. -/
def App.sameBounds (as bs : List (App Ty)) : Bool :=
  as.length == bs.length && as.all bs.contains && bs.all as.contains

/-- Variables are equivalent when their bounds are the same up to order; names do not count. -/
def Var.equivalent (v w : Var Ty) : Bool :=
  App.sameBounds v.lower w.lower && App.sameBounds v.upper w.upper

/-- Equality up to the names of variables and the order of their bounds, at the outermost level:
    applications have to be equal. -/
def Ty.equivalent : Ty → Ty → Bool
  | .app a, .app b => a == b
  | .var v, .var w => v.equivalent w
  | _, _ => false

end Lineage

/-!
# Variance of a type parameter

How the subtyping of an argument bears on the subtyping of the whole type:

* covariant: the whole follows the argument;
* contravariant: the whole goes against the argument;
* invariant: the arguments have to agree. A parameter declared without a variance is invariant.
-/

namespace Lineage

/-- How a parameter carries subtyping from an argument to the whole type. -/
inductive Variance where
  | covariant
  | contravariant
  | invariant
  deriving DecidableEq

namespace Variance

instance : Inhabited Variance := ⟨invariant⟩

/-- The variance seen from the opposite side. -/
def flip : Variance → Variance
  | covariant => contravariant
  | contravariant => covariant
  | invariant => invariant

/-- The variance of a position of variance `inner` inside a position of variance `outer`. -/
def compose : (outer inner : Variance) → Variance
  | invariant, _ => invariant
  | _, invariant => invariant
  | covariant, inner => inner
  | contravariant, inner => inner.flip

/-- The word a variance is written with. -/
def text : Variance → String
  | covariant => "covariant"
  | contravariant => "contravariant"
  | invariant => "invariant"

/-- All variances, in the order in which messages list them. -/
def all : List Variance := [covariant, contravariant, invariant]

/-- The variance a word stands for. -/
def ofText? (word : String) : Option Variance :=
  all.find? (·.text == word)

@[simp] theorem flip_flip (v : Variance) : v.flip.flip = v := by cases v <;> rfl

@[simp] theorem compose_covariant (v : Variance) : compose covariant v = v := by cases v <;> rfl

theorem compose_comm (v w : Variance) : v.compose w = w.compose v := by
  cases v <;> cases w <;> rfl

theorem compose_assoc (u v w : Variance) : (u.compose v).compose w = u.compose (v.compose w) := by
  cases u <;> cases v <;> cases w <;> rfl

@[simp] theorem ofText?_text (v : Variance) : ofText? v.text = some v := by cases v <;> decide

end Variance

end Lineage

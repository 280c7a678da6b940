import Lineage.Hierarchy.Node

/-!
# Directions

Questions about common relatives come in two directions: up, towards ancestors, and down, towards
descendants. What is said of one direction holds of the other with parents and children, ancestors
and descendants exchanged.
-/

namespace Lineage

/-- Towards ancestors or towards descendants. -/
inductive Direction where
  | up
  | down
  deriving DecidableEq

namespace Direction

/-- The opposite direction. -/
def flip : Direction → Direction
  | up => down
  | down => up

@[simp] theorem flip_flip (d : Direction) : d.flip.flip = d := by cases d <;> rfl

/-- The nodes one step away. -/
def steps : Direction → Node → List Nat
  | up, n => n.parents.keys
  | down, n => n.children

/-- The nodes from which this one is one step away. -/
def backSteps (d : Direction) (n : Node) : List Nat := d.flip.steps n

/-- Whether a node can be reached from `other` by going in this direction, in no step or more. -/
def reachedFrom : Direction → Node → (other : Nat) → Bool
  | up, n, other => n.descendants.contains other
  | down, n, other => n.ancestors.contains other

end Direction

end Lineage

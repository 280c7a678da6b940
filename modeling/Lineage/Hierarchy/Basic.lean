import Lineage.Hierarchy.Error
import Lineage.Nearest.Table

/-!
# Hierarchies

A hierarchy is the list of its nodes in the order of declaration. It is open at first: types are
declared and parents added. Finalizing it computes the tables of nearest common relatives, and from
then on it does not change.

A type has its position in this list as its number. Numbers are not cut to a machine word: a
hierarchy is assumed to have fewer than 2³² types.
-/

namespace Lineage

/-- The declared types, and the tables once the hierarchy is finalized. -/
structure Hierarchy where
  nodes : List Node
  tables : Option Nearest.Tables
  deriving DecidableEq

namespace Hierarchy

/-- The open hierarchy without types. -/
def empty : Hierarchy := ⟨[], none⟩

/-- The number of declared types. -/
def size (h : Hierarchy) : Nat := h.nodes.length

/-- Whether the hierarchy is finalized. -/
def isFinalized (h : Hierarchy) : Bool := h.tables.isSome

/-- The node of a name. -/
def find? (h : Hierarchy) (name : String) : Option Node := h.nodes.find? (·.name == name)

/-- The number of the type of a name. -/
def idOf? (h : Hierarchy) (name : String) : Option Nat := h.nodes.findIdx? (·.name == name)

/-- The finalized hierarchy. Finalizing again changes nothing. -/
def finalize (h : Hierarchy) : Hierarchy :=
  if h.isFinalized then h else { h with tables := some (Nearest.Tables.build h.nodes) }

/-- An application of a type as an application of its ancestor `target`: the record of the
    ancestor with the arguments put in. -/
def raise (h : Hierarchy) (a : App Ty) (target : Nat) : Option (App Ty) := do
  let n ← h.find? a.head
  let record ← n.ancestors.get? target
  return n.substitute record a.args

end Hierarchy

end Lineage

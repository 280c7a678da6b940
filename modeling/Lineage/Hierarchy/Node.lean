import Lineage.Roster
import Lineage.Ty.Subst

/-!
# Nodes

A node is a declared type with its place among the others. Types are referred to by their number,
which counts declarations from zero. A node keeps

* its direct parents and all its ancestors, each with the instantiation it is inherited under: a
  record written in the node's own parameters (`listset[t]` has `collection[t]` as its record of
  `collection`);
* its direct children and all its descendants.

Ancestors and descendants start with the node itself.
-/

namespace Lineage

/-- A declared parameter. -/
structure Param where
  name : String
  variance : Variance
  deriving DecidableEq

/-- A declared type and its relatives. -/
structure Node where
  id : Nat
  name : String
  params : List Param
  parents : Roster Nat (App Ty)
  children : List Nat
  ancestors : Roster Nat (App Ty)
  descendants : List Nat
  deriving DecidableEq

namespace Node

/-- A type applied to its own parameters. -/
def generic (name : String) (params : List Param) : App Ty :=
  ⟨name, params.map fun p => .var (.free p.name)⟩

/-- A type without relatives but itself. -/
def new (id : Nat) (name : String) (params : List Param) : Node where
  id := id
  name := name
  params := params
  parents := .empty
  children := []
  ancestors := .insert .empty id (generic name params)
  descendants := [id]

/-- The type applied to its own parameters. -/
def self (n : Node) : App Ty := generic n.name n.params

/-- The number of parameters. -/
def arity (n : Node) : Nat := n.params.length

/-- The position of a parameter. -/
def paramIndex? (n : Node) (name : String) : Option Nat := n.params.findIdx? (·.name == name)

/-- The variance of a position; positions without a parameter are invariant. -/
def variance (n : Node) (i : Nat) : Variance := (n.params[i]?.map Param.variance).getD .invariant

/-- The argument a variable of this node's records stands for. A variable that names no parameter
    or has no argument becomes `_`. -/
def argument (n : Node) (args : List Ty) (v : Var Ty) : Ty :=
  ((n.paramIndex? v.name).bind (args[·]?)).getD .anonymous

/-- A record of this node with arguments put in for the parameters. -/
def substitute (n : Node) (record : App Ty) (args : List Ty) : App Ty :=
  record.mapVars (n.argument args)

/-- The node with a direct parent recorded. -/
def addParent (n : Node) (id : Nat) (record : App Ty) : Node :=
  { n with parents := n.parents.insert id record }

/-- The node with a direct child recorded. -/
def addChild (n : Node) (id : Nat) : Node := { n with children := addNew n.children id }

/-- The node with an ancestor recorded. -/
def addAncestor (n : Node) (id : Nat) (record : App Ty) : Node :=
  { n with ancestors := n.ancestors.insert id record }

/-- The node with a descendant recorded. -/
def addDescendant (n : Node) (id : Nat) : Node := { n with descendants := addNew n.descendants id }

end Node

end Lineage

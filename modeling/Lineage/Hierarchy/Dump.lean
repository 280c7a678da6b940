import Lineage.Hierarchy.Basic
import Lineage.Listing
import Lineage.Manifest

/-!
# Hierarchies in writing

A dump has an entry for every declared type, with its parameters, parents, ancestors and
descendants. Ancestors and descendants leave the type itself out.
-/

namespace Lineage

/-- A declared type as a dump shows it. -/
structure Entry where
  name : String
  params : List Param
  parents : List (App Ty)
  ancestors : List (App Ty)
  descendants : List String
  deriving DecidableEq

namespace Hierarchy

/-- The name of a numbered type. -/
def nameOf? (h : Hierarchy) (id : Nat) : Option String := h.nodes[id]?.map Node.name

/-- The entry of a node. -/
def entry (h : Hierarchy) (n : Node) : Entry where
  name := n.name
  params := n.params
  parents := n.parents.entries.map Prod.snd
  ancestors := (n.ancestors.entries.filter (·.1 != n.id)).map Prod.snd
  descendants := (n.descendants.filter (· != n.id)).filterMap h.nameOf?

/-- The entries of all types, in the order of declaration. -/
def entries (h : Hierarchy) : List Entry := h.nodes.map h.entry

end Hierarchy

namespace Entry

/-- A line of a dump, left out if there is nothing to list. -/
def part (label : String) : List String → List String
  | [] => []
  | item :: items => [s!"  {label}: {commaList (item :: items)}"]

/-- The lines of an entry: the type applied to its parameters, then what is known of it. -/
def listing (e : Entry) : List String :=
  (Node.generic e.name e.params).text ::
    (part "params" (e.params.map Param.text) ++
      part "parents" (e.parents.map App.text) ++
      part "ancestors" (e.ancestors.map App.text) ++
      part "descendants" e.descendants)

/-- An entry as a JSON value. -/
def toValue (e : Entry) : Json.Value :=
  .object
    [("name", .str e.name),
     ("params", .list (e.params.map Param.toValue)),
     ("parents", .list (e.parents.map App.toValue)),
     ("ancestors", .list (e.ancestors.map App.toValue)),
     ("descendants", .list (e.descendants.map .str))]

end Entry

namespace Hierarchy

/-- The dump of a hierarchy. -/
def dump (h : Hierarchy) : String := lines (h.entries.flatMap Entry.listing)

/-- The dump of a hierarchy as a JSON value. -/
def dumpValue (h : Hierarchy) : Json.Value := .list (h.entries.map Entry.toValue)

/-- The dump of a hierarchy in one of the two forms. -/
def dumpAs (json : Bool) (h : Hierarchy) : String :=
  if json then lines [h.dumpValue.text] else h.dump

end Hierarchy

end Lineage

import Lineage.Nearest.Order

/-!
# Tables of nearest common relatives

For two nodes, the nearest common ancestors are those common ancestors that have no other common
ancestor below them; the nearest common descendants are defined the same way downwards. A table
holds them for every pair of nodes, each cell in increasing order.

The table is filled row by row. If one node of the pair is reached from the other, it is the only
entry of the cell. Otherwise the entries are found in the rows of the nodes one step away, which
have been filled before.
-/

namespace Lineage.Nearest

/-- Cells by row and column. -/
structure Table where
  rows : List (List (List Nat))
  deriving DecidableEq

namespace Table

/-- The cell of a pair; outside the table cells are empty. -/
def get (t : Table) (a b : Nat) : List Nat := ((t.rows[a]?.getD [])[b]?).getD []

/-- The table with empty cells. -/
def blank (width : Nat) : Table := ⟨List.replicate width (List.replicate width [])⟩

/-- Whether `x` is a node that is reached from `y`. -/
def beyond (nodes : List Node) (d : Direction) (x y : Nat) : Bool :=
  (nodes[x]?.map (d.reachedFrom · y)).getD false

/-- A number put into its place in an increasing list. -/
def insertSorted (x : Nat) : List Nat → List Nat
  | [] => [x]
  | y :: ys => if x ≤ y then x :: y :: ys else y :: insertSorted x ys

/-- A list in increasing order. -/
def sorted (xs : List Nat) : List Nat := xs.foldr insertSorted []

/-- Those of the candidates that lie beyond no other candidate, in increasing order. -/
def nearest (nodes : List Node) (d : Direction) (candidates : List Nat) : List Nat :=
  sorted (candidates.filter fun x => !candidates.any fun y => y != x && beyond nodes d x y)

/-- What the rows of the nodes one step away hold in column `b`, every node once. -/
def candidates (d : Direction) (t : Table) (n : Node) (b : Nat) : List Nat :=
  ((d.steps n).flatMap (t.get · b)).foldl addNew []

/-- The cell of a node and column `b`, from the rows filled before. -/
def cell (nodes : List Node) (d : Direction) (t : Table) (n : Node) (b : Nat) : List Nat :=
  if d.reachedFrom n b then [n.id] else nearest nodes d (candidates d t n b)

/-- The row of a node. -/
def row (nodes : List Node) (d : Direction) (t : Table) (n : Node) : List (List Nat) :=
  (List.range nodes.length).map (cell nodes d t n)

/-- The table with the row of a node filled in. -/
def fill (nodes : List Node) (d : Direction) (t : Table) (id : Nat) : Table :=
  match nodes[id]? with
  | none => t
  | some n => ⟨t.rows.set id (row nodes d t n)⟩

/-- The table of a list of nodes in one direction. -/
def build (nodes : List Node) (d : Direction) : Table :=
  (visitOrder nodes d).foldl (fill nodes d) (blank nodes.length)

end Table

/-- The tables of both directions. -/
structure Tables where
  up : Table
  down : Table
  deriving DecidableEq

namespace Tables

/-- The tables of a list of nodes. -/
def build (nodes : List Node) : Tables := ⟨Table.build nodes .up, Table.build nodes .down⟩

/-- The table of a direction. -/
def table (t : Tables) : Direction → Table
  | .up => t.up
  | .down => t.down

/-- The nearest common relatives of two nodes. -/
def get (t : Tables) (d : Direction) (a b : Nat) : List Nat := (t.table d).get a b

end Tables

end Lineage.Nearest

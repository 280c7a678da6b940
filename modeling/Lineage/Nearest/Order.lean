import Lineage.Nearest.Direction

/-!
# The order in which nodes are visited

Nodes are put in line so that each comes behind all nodes one step away from it. A node waits for
its steps: a counter per node says how many of them are still to come. A node without steps goes
into the queue at once, the others when their counter comes down to zero.
-/

namespace Lineage.Nearest

/-- Where the ordering stands: the counters by number of node, the nodes ready to be visited, and
    those visited already. -/
structure Visit where
  pending : List Int
  queue : List Nat
  visited : List Nat
  deriving DecidableEq

namespace Visit

/-- Nothing visited: the nodes without steps are ready. -/
def start (nodes : List Node) (d : Direction) : Visit where
  pending := nodes.map fun n => (d.steps n).length
  queue := (nodes.filter fun n => (d.steps n).isEmpty).map Node.id
  visited := []

/-- One of the nodes that `next` waits for was visited. -/
def release (v : Visit) (next : Nat) : Visit :=
  let left := v.pending.getD next 0 - 1
  let pending := v.pending.set next left
  if left = 0 then { v with pending, queue := v.queue ++ [next] } else { v with pending }

/-- Visit the first node of the queue. -/
def step (nodes : List Node) (d : Direction) (v : Visit) : Visit :=
  match v.queue with
  | [] => v
  | id :: rest =>
      let waiting := (nodes[id]?.map d.backSteps).getD []
      waiting.foldl release { v with queue := rest, visited := v.visited ++ [id] }

/-- `rounds` visits. -/
def run (nodes : List Node) (d : Direction) : (rounds : Nat) → Visit → Visit
  | 0, v => v
  | rounds + 1, v => run nodes d rounds (step nodes d v)

end Visit

/-- The nodes in the order in which they are visited. Each is visited once, so there are as many
    visits as nodes. -/
def visitOrder (nodes : List Node) (d : Direction) : List Nat :=
  (Visit.run nodes d nodes.length (Visit.start nodes d)).visited

end Lineage.Nearest

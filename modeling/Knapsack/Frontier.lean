import Knapsack.Bound
import Knapsack.Node.Basic

/-! # The frontier

The nodes that wait to be explored stand in a queue in the order in which they will leave it. A node
that joins goes behind all the nodes that it does not outrank, so nodes of equal rank leave in
insertion order.
-/

namespace Knapsack

/-- How promising two nodes are, compared; the greatest node is explored first. -/
abbrev Ranking := Node → Node → Ordering

namespace Ranking

/-- Highest relaxed value first, then the deepest node. -/
def bestBound : Ranking := fun a b => (compare a.value b.value).then (compare a.depth b.depth)

/-- Deepest node first, then the highest relaxed value. -/
def depthFirst : Ranking := fun a b => (compare a.depth b.depth).then (compare a.value b.value)

/-- Shallowest node first, then the highest relaxed value. -/
def breadthFirst : Ranking := fun a b => (compare b.depth a.depth).then (compare a.value b.value)

/-- Smallest key first. -/
def minKey {κ : Type} [Ord κ] (key : Node → κ) : Ranking := fun a b => compare (key b) (key a)

end Ranking

/-- Waiting nodes, the next one first, and the ranking that puts them in order. -/
structure Frontier where
  ranking : Ranking
  queue : List Node

namespace Frontier

/-- A frontier where no node waits. -/
def empty (ranking : Ranking) : Frontier := ⟨ranking, []⟩

def size (frontier : Frontier) : Nat := frontier.queue.length

/-- Puts a node in front of the first waiting node that it outranks. -/
def insert (ranking : Ranking) (node : Node) : List Node → List Node
  | [] => [node]
  | first :: rest =>
    if ranking node first = .gt then node :: first :: rest
    else first :: insert ranking node rest

def enqueue (frontier : Frontier) (node : Node) : Frontier :=
  { frontier with queue := insert frontier.ranking node frontier.queue }

def clear (frontier : Frontier) : Frontier := { frontier with queue := [] }

/-- The node to be explored next, and the frontier without it. -/
def next? (frontier : Frontier) : Option (Node × Frontier) :=
  match frontier.queue with
  | [] => none
  | node :: rest => some (node, { frontier with queue := rest })

/-- The greater of a value, if there is one, and that of a node that is feasible. -/
def raise (best? : Option Fraction) (node : Node) : Option Fraction :=
  if !node.feasible then best?
  else
    match best? with
    | none => some node.value
    | some best => if best < node.value then some node.value else best?

/-- The greatest relaxed value of a feasible waiting node. -/
def upperBound (frontier : Frontier) : Bound := .ofValue? (frontier.queue.foldl raise none)

end Frontier

end Knapsack

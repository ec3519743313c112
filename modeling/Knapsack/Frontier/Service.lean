import Knapsack.Error
import Knapsack.Frontier

/-! # What a search asks of a frontier

A search does only a few things with the nodes that wait, and any frontier that offers them will do.
One keeps its queue in order. Another one stamps the nodes that join and puts them on a max-heap
from elsewhere, of which it knows nothing but its operations.
-/

namespace Knapsack

namespace Frontier

/-- The operations of a frontier. -/
class Service (σ : Type) where
  enqueue : Node → σ → σ
  next : σ → Except Error (Node × σ)
  upperBound : σ → Bound
  clear : σ → σ
  size : σ → Nat

def Service.isEmpty {σ : Type} [Service σ] (frontier : σ) : Bool := size frontier == 0

/-- Whether some node waits to be explored. -/
def Service.hasNext {σ : Type} [Service σ] (frontier : σ) : Bool := !isEmpty frontier

/-- The operations of a frontier that keeps its queue in order. -/
@[default_instance]
instance service : Service Frontier where
  enqueue node frontier := frontier.enqueue node
  next frontier :=
    match frontier.next? with
    | none => .error .emptyFrontier
    | some served => .ok served
  upperBound := upperBound
  clear := clear
  size := size

end Frontier

/-- A max-heap of entries that were given an order when it was made. -/
structure MaxHeap (α : Type) where
  Store : Type
  empty : Store
  push : α → Store → Store
  pop? : Store → Option (α × Store)
  clear : Store → Store
  entries : Store → List α
  size : Store → Nat

/-- A node that waits on a heap, with the stamp that it got when it joined. -/
structure Arrival where
  stamp : Nat
  node : Node
deriving DecidableEq

/-- How urgent two waiting nodes are, compared: by rank, and then by age. -/
def Arrival.compare (ranking : Ranking) (a b : Arrival) : Ordering :=
  (ranking a.node b.node).then (Ord.compare b.stamp a.stamp)

/-- Waiting nodes on a max-heap, and the stamp of the node that joins next. -/
structure Stamped (heap : MaxHeap Arrival) where
  store : heap.Store
  nextStamp : Nat

namespace Stamped

variable (heap : MaxHeap Arrival)

/-- A new frontier, where no node waits. -/
def empty : Stamped heap := ⟨heap.empty, 0⟩

/-- The operations of a frontier on a max-heap. Clearing it does not take back the stamps. -/
instance service : Frontier.Service (Stamped heap) where
  enqueue node frontier :=
    ⟨heap.push ⟨frontier.nextStamp, node⟩ frontier.store, frontier.nextStamp + 1⟩
  next frontier :=
    match heap.pop? frontier.store with
    | none => .error .emptyFrontier
    | some (arrival, store) => .ok (arrival.node, { frontier with store })
  upperBound frontier :=
    .ofValue? (((heap.entries frontier.store).map (·.node)).foldl Frontier.raise none)
  clear frontier := { frontier with store := heap.clear frontier.store }
  size frontier := heap.size frontier.store

end Stamped

end Knapsack

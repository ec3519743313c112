import Knapsack.Json.Writer
import Knapsack.Search.Event

/-! # Recording the search tree

A tree recorder remembers every node that was created, what became of it, and the order in which
nodes were processed. A recorder that goes on to watch another search keeps what it recorded.
-/

namespace Knapsack

/-- What is remembered about one node. Its value is rounded for display, and its bounds are the
global ones right after it was processed. -/
structure RecordedNode where
  id : Nat
  parent? : Option Nat
  depth : Nat
  value : Binary64
  feasible : Bool
  integral : Bool
  createdAt : Nat
  processedAt? : Option Nat
  status : Status
  bounds? : Option (Binary64 × Binary64)
deriving DecidableEq

/-- The recorded nodes and the processed ones, both with the latest first. -/
structure TreeRecorder where
  created : List RecordedNode := []
  processed : List Nat := []
deriving DecidableEq

namespace TreeRecorder

/-- The recorded nodes in creation order. -/
def nodes (recorder : TreeRecorder) : List RecordedNode := recorder.created.reverse

/-- The processed nodes in processing order. -/
def iterations (recorder : TreeRecorder) : List Nat := recorder.processed.reverse

/-- The node that was last created with an identifier. -/
def node? (recorder : TreeRecorder) (id : Nat) : Option RecordedNode :=
  recorder.created.find? (·.id == id)

/-- The children of a node, in creation order. -/
def children (recorder : TreeRecorder) (id : Nat) : List RecordedNode :=
  recorder.nodes.filter (·.parent? == some id)

/-- Changes the first node with an identifier, if there is one. -/
def amend (id : Nat) (change : RecordedNode → RecordedNode) :
    List RecordedNode → List RecordedNode
  | [] => []
  | node :: rest => if node.id = id then change node :: rest else node :: amend id change rest

/-- A node that was just created; only the parent has to be known. -/
def create (recorder : TreeRecorder) (node : Node) : Except Defect TreeRecorder := do
  if let some parent := node.parent? then
    if (recorder.node? parent).isNone then throw (.orphan node.id parent)
  let recorded : RecordedNode := {
    id := node.id
    parent? := node.parent?
    depth := node.depth
    value := node.value.toBinary64.toThousandths
    feasible := node.feasible
    integral := node.relaxed.isIntegral
    createdAt := recorder.processed.length
    processedAt? := none
    status := node.status
    bounds? := none }
  return { recorder with created := recorded :: recorder.created }

/-- A node that was just processed; its latest record is completed, if there is one. -/
def process (recorder : TreeRecorder) (node : Node) (lower upper : Bound) : TreeRecorder where
  created := amend node.id (fun recorded => { recorded with
    processedAt? := some recorder.processed.length
    status := node.status
    bounds? := some (lower.toBinary64, upper.toBinary64) }) recorder.created
  processed := node.id :: recorder.processed

/-- Only the creation and the processing of nodes are recorded. -/
def observe (recorder : TreeRecorder) : Search.Event → Except Defect TreeRecorder
  | .nodeCreated node => recorder.create node
  | .nodeProcessed node lower upper _ _ => .ok (recorder.process node lower upper)
  | _ => .ok recorder

/-- What a recorder knows after it watched some events. -/
def observeAll (recorder : TreeRecorder) (events : List Search.Event) :
    Except Defect TreeRecorder :=
  events.foldlM observe recorder

/-- The document of a recorded node. -/
def nodeJson (node : RecordedNode) : String :=
  Json.object [
    ("id", toString node.id),
    ("parent_id", Json.optional toString node.parent?),
    ("depth", toString node.depth),
    ("relaxed_value", Json.number node.value),
    ("fractionally_feasible", Json.boolean node.feasible),
    ("integral", Json.boolean node.integral),
    ("created_at", toString node.createdAt),
    ("processed_at", Json.optional toString node.processedAt?),
    ("status", Json.quoted node.status.text),
    ("bounds", Json.optional (fun (lower, upper) => Json.array [Json.number lower,
      Json.number upper]) node.bounds?)]

/-- The recorded tree as a JSON document. -/
def json (recorder : TreeRecorder) : String :=
  Json.object [
    ("nodes", Json.array (recorder.nodes.map nodeJson)),
    ("iterations", Json.array (recorder.iterations.map toString))]

end TreeRecorder

end Knapsack

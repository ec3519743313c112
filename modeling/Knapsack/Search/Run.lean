import Knapsack.Frontier.Service
import Knapsack.Search.State

/-! # Branch and bound

Nodes leave the frontier one at a time. Each is classified and then discarded, accepted as a
solution, or split into children that join the frontier. The search is over when the frontier is
empty or when its bound shows that the incumbent is optimal, and it is interrupted when its budget
of nodes is used up. Whatever happened before an interruption remains in the state. Nodes may wait
on any kind of frontier that offers the service.
-/

namespace Knapsack.Search

open Frontier (Service)

/-- A step of a search: it changes the state, also when it fails. -/
abbrev Step (φ : Type) := EStateM Failure (State φ)

variable {φ : Type}

/-- A result of a computation outside the search. -/
def Step.ofExcept {α : Type} : Except Failure α → Step φ α
  | .ok result => pure result
  | .error failure => throw failure

/-- A result that may have broken a contract. -/
def Step.ofDefect {α : Type} (outcome : Except Defect α) : Step φ α :=
  Step.ofExcept (Failure.ofDefect outcome)

/-! ## Steps beside the frontier -/

/-- Reports an event to the observers. -/
def emit (event : Event) : Step φ Unit :=
  modify fun state => { state with journal := state.journal.push (.event event) }

/-- Tells the user something. -/
def tell (notice : Notice) : Step φ Unit :=
  modify fun state => { state with journal := state.journal.push (.notice notice) }

/-- Records a solution, and tells when it improves the incumbent. -/
def record (solution : Solution) : Step φ Unit := do
  let value ← Step.ofDefect (exactly solution.value)
  let (solutions, improves) ← Step.ofDefect ((← get).solutions.add solution)
  modify fun state => { state with solutions }
  if improves then tell (.newIncumbent value (← get).tree.created)

/-- Accounts for a solution of the heuristic, which has to be feasible and integral. -/
def accept (node : Node) (solution : Solution) : Step φ Unit := do
  unless (← Step.ofDefect (exactly solution.isFeasible)) && solution.isIntegral do
    throw (.defect (.unfitHeuristicSolution solution))
  let value ← Step.ofDefect (exactly solution.value)
  tell (.heuristicSolution solution value node.id)
  modify fun state => { state with
    statistics.heuristicSolutions := state.statistics.heuristicSolutions + 1 }
  record solution
  emit (.solutionFound node solution (← get).lowerBound)

/-- Runs the heuristic on a node and records what it finds. -/
def runHeuristic (plan : Plan) (node : Node) : Step φ (List Solution) := do
  let call := (← get).heuristicRuns
  modify fun state => { state with heuristicRuns := call + 1 }
  let harvest ← Step.ofDefect (plan.heuristic call plan.inst node)
  harvest.notices.forM tell
  harvest.solutions.forM (accept node)
  return harvest.solutions

/-- Tells everyone that the search begins. -/
def announce (plan : Plan) (limit : Nat) : Step φ Unit := do
  modify fun state => { state with phase := .running }
  emit (.searchStarted plan.inst)
  tell (.searching plan.inst.size plan.inst.capacity.toNat limit)

/-- The outcome of a search that is over: its incumbent, or the error that interrupted it. -/
def outcome : Step φ (Option Solution) := do
  let state ← get
  match state.failure? with
  | some error => throw (.error error)
  | none => return state.solutions.best?

/-! ## Steps that meet the frontier -/

variable [Service φ]

/-- Puts a node on the frontier. -/
def enqueue (node : Node) : Step φ Unit := do
  let node ← Step.ofDefect (node.advance .enqueued)
  modify fun state => { state with frontier := Service.enqueue node state.frontier }

/-- Creates a node, reports it and puts it on the frontier. -/
def create (plan : Plan) (parent? : Option Node) (fixation : Fixation) : Step φ Unit := do
  let (outcome, tree) := (← get).tree.grow plan.relaxation plan.inst parent? fixation
  modify fun state => { state with tree }
  let node ← Step.ofExcept outcome
  emit (.nodeCreated node)
  enqueue node

/-- Creates one child, which has to be more constrained than its parent. -/
def createChild (plan : Plan) (node : Node) (fixation : Fixation) : Step φ Unit := do
  unless fixation.refines node.fixation do throw (.defect (.unrefinedChild node.id))
  create plan (some node) fixation

/-- Splits a node, which has to have children. -/
def branch (plan : Plan) (node : Node) : Step φ Unit := do
  let call := (← get).branchings
  modify fun state => { state with branchings := call + 1 }
  let children ← Step.ofExcept (plan.branching call node)
  if children.isEmpty then throw (.defect (.childless node.id))
  children.forM (createChild plan node)

/-- Classifies a node and acts accordingly; the solutions are those of the heuristic. -/
def classify (plan : Plan) (node : Node) : Step φ (Status × List Solution) := do
  if !node.feasible then
    return (.infeasible, [])
  else if .finite node.value ≤ (← get).lowerBound then
    return (.pruned, [])
  else if node.relaxed.isIntegral then
    record node.relaxed
    return (.feasible, [])
  else
    let found ← runHeuristic plan node
    branch plan node
    return (.branched, found)

/-- The greatest value that a packing can still have: that of a waiting node or of the incumbent. -/
def State.openBound (state : State φ) : Bound :=
  max (Service.upperBound state.frontier) state.lowerBound

/-- Processes a node that left the frontier. -/
def process (plan : Plan) (node : Node) : Step φ Unit := do
  let (status, found) ← classify plan node
  let node ← Step.ofDefect (node.advance status)
  modify fun state => { state with
    statistics := { state.statistics.record status with nodesCreated := state.tree.created }
    upperBound := state.openBound }
  let state ← get
  tell (.classified node.id node.depth node.value status state.lowerBound state.upperBound)
  emit (.nodeProcessed node state.lowerBound state.upperBound state.solutions.best? found)

/-- Processes waiting nodes until none is left or the incumbent is optimal; it is interrupted when
a node is left and the budget is not. -/
def loop (plan : Plan) (limit : Nat) : (budget : Nat) → Step φ Unit
  | 0 => do
    let state ← get
    if Service.hasNext state.frontier then
      tell (.limitReached limit state.lowerBound state.upperBound)
      throw (.error (.iterationLimitExceeded limit))
  | budget + 1 => do
    let state ← get
    if Service.hasNext state.frontier then
      let (node, frontier) ← Step.ofExcept (Failure.ofError (Service.next state.frontier))
      modify fun state => { state with frontier }
      process plan node
      let state ← get
      unless state.upperBound ≤ state.lowerBound do loop plan limit budget

/-- Plants the tree: the root is the only node that waits. -/
def plant (plan : Plan) : Step φ Unit := do
  modify fun state => { state with frontier := Service.clear state.frontier }
  create plan none (.unassigned plan.inst.size)
  modify fun state => { state with upperBound := state.openBound }

/-- Explores the tree from its root. -/
def explore (plan : Plan) (limit : Nat) : Step φ Unit := do
  plant plan
  loop plan limit limit
  modify fun state => { state with upperBound := state.lowerBound }

/-- Searches for an optimal solution, processing at most the given number of nodes. A search is run
only once: later calls repeat its outcome. -/
def search (plan : Plan) (limit : Nat) : Step φ (Option Solution) := do
  if (← get).phase = .finished then outcome
  else
    announce plan limit
    let failure? ← tryCatch (do explore plan limit; return none) fun
      | .error error => return some error
      | .defect defect => throw (.defect defect)
    modify fun state => { state with
      phase := .finished
      failure?
      statistics.nodesCreated := state.tree.created }
    emit (.searchEnded (← get).statistics)
    tell (.finished (← get).statistics)
    outcome

/-- The outcome of a maximization: whether the value was proved optimal, and the value. -/
structure Completion where
  isExact : Bool
  value? : Option Fraction
deriving DecidableEq

/-- Searches within the limit of the plan. Running out of budget is no failure, but then the value
is only the best one known. -/
def maximize (plan : Plan) : Step φ Completion := do
  tryCatch (discard (search plan plan.config.iterationLimit)) fun
    | .error (.iterationLimitExceeded _) => return
    | failure => throw failure
  let state ← get
  return { isExact := state.failure?.isNone, value? := state.solutions.bestValue? }

end Knapsack.Search

import Knapsack.Proofs.Frontier.Queue
import Knapsack.Proofs.Search.Leads
import Knapsack.Proofs.Search.Strategies

/-! # What processing a node does

Everything that can happen when a node leaves the frontier is said here once: the state afterwards
is given exactly, together with what is known about the solutions and the children that came up on
the way. A failure on the way has an excuse when the plan is guarded.
-/

namespace Knapsack

/-- A node that waits on the frontier. -/
def Node.queued (node : Node) : Node := { node with status := .enqueued }

/-- A frontier that new nodes joined one after the other. -/
def Frontier.join (frontier : Frontier) (nodes : List Node) : Frontier :=
  nodes.foldl (fun frontier node => frontier.enqueue node.queued) frontier

theorem Frontier.queue_join_perm (frontier : Frontier) (nodes : List Node) :
    (frontier.join nodes).queue.Perm (nodes.map Node.queued ++ frontier.queue) := by
  unfold join
  induction nodes generalizing frontier with
  | nil => exact List.Perm.refl _
  | cons node rest ih =>
    apply (ih _).trans
    exact ((queue_enqueue_perm _ _).append_left _).trans List.perm_middle

namespace Search

namespace State

variable (state : State Frontier)

/-- After a solution of the given value was recorded. -/
def recorded (solution : Solution) (value : Fraction) : State Frontier :=
  { state with
    solutions := (state.solutions.insert solution value).1
    journal :=
      if (state.solutions.insert solution value).2 then
        state.journal.push (.notice (.newIncumbent value state.tree.created))
      else state.journal }

/-- After a solution of the heuristic was accounted for. -/
def accepted (node : Node) (found : Solution × Fraction) : State Frontier :=
  let counted := { state with
    journal := state.journal.push (.notice (.heuristicSolution found.1 found.2 node.id))
    statistics.heuristicSolutions := state.statistics.heuristicSolutions + 1 }
  let noted := counted.recorded found.1 found.2
  { noted with
    journal := noted.journal.push (.event (.solutionFound node found.1 noted.lowerBound)) }

/-- After some notices were told. -/
def told (notices : List Notice) : State Frontier :=
  { state with
    journal := notices.foldl (fun journal notice => journal.push (.notice notice)) state.journal }

/-- After the heuristic yielded solutions with some notices. -/
def harvested (node : Node) (notices : List Notice) (found : List (Solution × Fraction)) :
    State Frontier :=
  found.foldl (accepted · node)
    ({ state with heuristicRuns := state.heuristicRuns + 1 }.told notices)

/-- After a node was created and joined the frontier. -/
def joined (node : Node) : State Frontier :=
  { state with
    tree := ⟨state.tree.created + 1, state.tree.relaxations + 1⟩
    journal := state.journal.push (.event (.nodeCreated node))
    frontier := state.frontier.enqueue node.queued }

/-- After children were created. -/
def grown (children : List Node) : State Frontier :=
  children.foldl joined { state with branchings := state.branchings + 1 }

/-- After a node was given its final class. -/
def closed (node : Node) (status : Status) (found : List Solution) : State Frontier :=
  { state with
    statistics := { state.statistics.record status with nodesCreated := state.tree.created }
    upperBound := state.openBound
    journal := (state.journal.push (.notice (.classified node.id node.depth node.value status
        state.lowerBound state.openBound))).push
      (.event (.nodeProcessed { node with status } state.lowerBound state.openBound
        state.solutions.best? found)) }

theorem openBound_eq : state.openBound = max state.frontier.upperBound state.lowerBound := rfl

variable {state}

private theorem harvested_keeps {α : Type} (field : State Frontier → α) {node : Node}
    (kept : ∀ state found, field (accepted state node found) = field state)
    (notices : List Notice) (found : List (Solution × Fraction))
    (initial : field ({ state with heuristicRuns := state.heuristicRuns + 1 }.told notices) =
      field state) :
    field (state.harvested node notices found) = field state :=
  List.foldlRecOn (motive := fun later => field later = field state) found _ initial
    fun later same entry _ => (kept later entry).trans same

variable (node : Node) (notices : List Notice) (found : List (Solution × Fraction))

@[simp]
theorem harvested_frontier : (state.harvested node notices found).frontier = state.frontier :=
  harvested_keeps State.frontier (fun _ _ => rfl) notices found rfl

@[simp]
theorem harvested_tree : (state.harvested node notices found).tree = state.tree :=
  harvested_keeps State.tree (fun _ _ => rfl) notices found rfl

@[simp]
theorem harvested_branchings :
    (state.harvested node notices found).branchings = state.branchings :=
  harvested_keeps State.branchings (fun _ _ => rfl) notices found rfl

@[simp]
theorem harvested_iterations : (state.harvested node notices found).statistics.iterations =
    state.statistics.iterations :=
  harvested_keeps (fun state => state.statistics.iterations) (fun _ _ => rfl) notices found rfl

private theorem grown_keeps {α : Type} (field : State Frontier → α)
    (kept : ∀ state child, field (joined state child) = field state) (state : State Frontier)
    (initial : field { state with branchings := state.branchings + 1 } = field state)
    (children : List Node) : field (state.grown children) = field state :=
  List.foldlRecOn (motive := fun later => field later = field state) children _ initial
    fun later same child _ => (kept later child).trans same

/-- No solution is recorded while children are created. -/
@[simp]
theorem grown_solutions (state : State Frontier) (children : List Node) :
    (state.grown children).solutions = state.solutions :=
  grown_keeps State.solutions (fun _ _ => rfl) state rfl children

@[simp]
theorem grown_statistics (state : State Frontier) (children : List Node) :
    (state.grown children).statistics = state.statistics :=
  grown_keeps State.statistics (fun _ _ => rfl) state rfl children

/-- Children join the frontier in the order of their creation. -/
theorem grown_frontier (state : State Frontier) (children : List Node) :
    (state.grown children).frontier = state.frontier.join children := by
  unfold grown Frontier.join
  suffices general : ∀ start : State Frontier, (children.foldl joined start).frontier =
      children.foldl (fun frontier node => frontier.enqueue node.queued) start.frontier from
    general _
  induction children with
  | nil => exact fun _ => rfl
  | cons child rest ih => exact fun start => ih (start.joined child)

/-- Children join what waits already. -/
theorem queue_grown_perm (state : State Frontier) (children : List Node) :
    (state.grown children).frontier.queue.Perm
      (children.map Node.queued ++ state.frontier.queue) :=
  grown_frontier state children ▸ state.frontier.queue_join_perm children

end State

/-- The solutions of a heuristic, each with its exact value. -/
def Valued (inst : Instance) (found : List (Solution × Fraction)) : Prop :=
  ∀ entry ∈ found, entry.1.Packs inst ∧ entry.1.value = .ok entry.2

/-- Children that grow on a tree one after the other, with the given fixations. -/
inductive Grow (inst : Instance) (parent : Node) : Tree → List Fixation → List Node → Prop
  | nil {tree : Tree} : Grow inst parent tree [] []
  | cons {tree : Tree} {fixation : Fixation} {child : Node} {fixations : List Fixation}
      {children : List Node} (refines : fixation.refines parent.fixation = true)
      (drawn : child.Drawn inst) (drafted : tree.Drafted (some parent) fixation child)
      (rest : Grow inst parent ⟨tree.created + 1, tree.relaxations + 1⟩ fixations children) :
      Grow inst parent tree (fixation :: fixations) (child :: children)

namespace Grow

variable {inst : Instance} {parent : Node} {tree : Tree} {fixations : List Fixation}
  {children : List Node}

/-- Children have the given fixations, in their order. -/
theorem map_fixation (grow : Grow inst parent tree fixations children) :
    children.map (·.fixation) = fixations := by
  induction grow with
  | nil => rfl
  | cons _ _ drafted _ ih => rw [List.map_cons, drafted.fixes, ih]

theorem drawn (grow : Grow inst parent tree fixations children) :
    ∀ child ∈ children, child.Drawn inst := by
  induction grow with
  | nil => simp
  | cons _ drawn _ _ ih => exact List.forall_mem_cons.mpr ⟨drawn, ih⟩

theorem refines (grow : Grow inst parent tree fixations children) :
    ∀ child ∈ children, child.fixation.refines parent.fixation = true := by
  induction grow with
  | nil => simp
  | cons refines _ drafted _ ih =>
    exact List.forall_mem_cons.mpr ⟨drafted.fixes ▸ refines, ih⟩

end Grow

/-- The four classes of a node that left the frontier, each with the state that it leads to. -/
inductive Classified (plan : Plan) (node : Node) (before : State Frontier) :
    Status → List Solution → State Frontier → Prop
  | infeasible (infeasible : node.feasible = false) :
      Classified plan node before .infeasible [] before
  | pruned (feasible : node.feasible = true) (dominated : .finite node.value ≤ before.lowerBound) :
      Classified plan node before .pruned [] before
  | feasible (feasible : node.feasible = true)
      (promising : before.lowerBound < .finite node.value)
      (integral : node.relaxed.isIntegral = true) :
      Classified plan node before .feasible [] (before.recorded node.relaxed node.value)
  | branched (feasible : node.feasible = true)
      (promising : before.lowerBound < .finite node.value)
      (fractional : node.relaxed.isIntegral = false)
      {harvest : Harvest} {found : List (Solution × Fraction)}
      (harvests : plan.heuristic before.heuristicRuns plan.inst node = .ok harvest)
      (yields : harvest.solutions = found.map (·.1)) (valued : Valued plan.inst found)
      {fixations : List Fixation} {children : List Node}
      (branches : plan.branching before.branchings node = .ok fixations)
      (shares : plan.Faithful → node.fixation.Partition fixations)
      (grow : Grow plan.inst node before.tree fixations children) :
      Classified plan node before .branched harvest.solutions
        ((before.harvested node harvest.notices found).grown children)

/-- One turn of the search: a node that left the frontier is classified and closed. -/
inductive Turn (plan : Plan) (node : Node) (before : State Frontier) : State Frontier → Prop
  | intro {status : Status} {found : List Solution} {middle : State Frontier}
      (classified : Classified plan node before status found middle) :
      Turn plan node before (middle.closed node status found)

namespace Turn

variable {plan : Plan} {node : Node} {before after : State Frontier}

/-- What waits after a turn: what waited before, and the children if the node was branched. -/
theorem exists_children (turn : Turn plan node before after) : ∃ children : List Node,
    after.frontier.queue.Perm (children.map Node.queued ++ before.frontier.queue) ∧
      ∀ child ∈ children, child.Drawn plan.inst ∧
        child.fixation.refines node.fixation = true := by
  obtain ⟨classified⟩ := turn
  cases classified with
  | infeasible _ => exact ⟨[], List.Perm.refl _, by simp⟩
  | pruned _ _ => exact ⟨[], List.Perm.refl _, by simp⟩
  | feasible _ _ _ => exact ⟨[], List.Perm.refl _, by simp⟩
  | @branched _ _ _ harvest found _ _ _ _ children _ _ grow =>
    have perm := (before.harvested node harvest.notices found).queue_grown_perm children
    rw [State.harvested_frontier] at perm
    exact ⟨children, perm, fun child member =>
      ⟨grow.drawn child member, grow.refines child member⟩⟩

/-- The children of a turn join what waits one after the other. -/
theorem exists_join (turn : Turn plan node before after) :
    ∃ children : List Node, after.frontier = before.frontier.join children := by
  obtain ⟨classified⟩ := turn
  cases classified with
  | infeasible _ => exact ⟨[], rfl⟩
  | pruned _ _ => exact ⟨[], rfl⟩
  | feasible _ _ _ => exact ⟨[], rfl⟩
  | @branched _ _ _ harvest found _ _ _ _ children _ _ _ =>
    refine ⟨children, ?_⟩
    change ((before.harvested node harvest.notices found).grown children).frontier = _
    rw [State.grown_frontier, State.harvested_frontier]

end Turn

end Search

end Knapsack

import Knapsack.Proofs.Search.Chronicle
import Knapsack.Proofs.Search.Coverage

/-! # The block of a processed node

With the strategies of the library, a node that left the frontier adds one block to the events. What
the block says follows from the node, from the size of the tree and from the value of the incumbent;
the children in it, none or two, join the frontier. Nothing else happens in a turn that a later one
could depend on.
-/

namespace Knapsack

/-- A tree after one more node was created. -/
def Tree.next (tree : Tree) : Tree := ⟨tree.created + 1, tree.relaxations + 1⟩

namespace Search

/-- How far a search has come: its tree, and the value of its incumbent. -/
structure Standing where
  tree : Tree
  incumbent : Bound

def State.standing (state : State Frontier) : Standing := ⟨state.tree, state.lowerBound⟩

/-- The events of solutions that were found for a node. Each event carries the value of the
incumbent after it, which is the greater of the value of its solution and that before it. -/
inductive Discoveries (node : Node) : Bound → List Solution → List Event → Bound → Prop
  | nil {incumbent : Bound} : Discoveries node incumbent [] [] incumbent
  | cons {incumbent final : Bound} {solution : Solution} {value : Fraction}
      {found : List Solution} {events : List Event} (worth : solution.value = .ok value)
      (rest : Discoveries node (max incumbent (.finite value)) found events final) :
      Discoveries node incumbent (solution :: found)
        (.solutionFound node solution (max incumbent (.finite value)) :: events) final

/-- The events of a processed node, with the children that were created and with how far the search
has come before and after it. A node that is branched on has two children, which decide one open
item: the first leaves it out, and the second packs it. -/
inductive Block (plan : Plan) (node : Node) (before : Standing) :
    Standing → List Node → List Event → Prop
  | infeasible {upper : Bound} {best? : Option Solution} (infeasible : node.feasible = false) :
      Block plan node before before []
        [.nodeProcessed { node with status := .infeasible } before.incumbent upper best? []]
  | pruned {upper : Bound} {best? : Option Solution} (feasible : node.feasible = true)
      (dominated : .finite node.value ≤ before.incumbent) :
      Block plan node before before []
        [.nodeProcessed { node with status := .pruned } before.incumbent upper best? []]
  | feasible {upper : Bound} {best? : Option Solution} (feasible : node.feasible = true)
      (promising : before.incumbent < .finite node.value)
      (integral : node.relaxed.isIntegral = true) :
      Block plan node before ⟨before.tree, .finite node.value⟩ []
        [.nodeProcessed { node with status := .feasible } (.finite node.value) upper best? []]
  | branched {upper lower : Bound} {best? : Option Solution} (feasible : node.feasible = true)
      (promising : before.incumbent < .finite node.value)
      (fractional : node.relaxed.isIntegral = false) {run call index : ℕ} {harvest : Harvest}
      {discoveries : List Event} {left right : Node}
      (harvests : plan.heuristic run plan.inst node = .ok harvest)
      (discovers : Discoveries node before.incumbent harvest.solutions discoveries lower)
      (undecided : node.fixation.get? index = some none)
      (branches : plan.branching call node =
        .ok [node.fixation.decided index false, node.fixation.decided index true])
      (first : before.tree.Drafted (some node) (node.fixation.decided index false) left)
      (second : before.tree.next.Drafted (some node) (node.fixation.decided index true) right) :
      Block plan node before ⟨before.tree.next.next, lower⟩ [left, right]
        (discoveries ++ [.nodeCreated left, .nodeCreated right,
          .nodeProcessed { node with status := .branched } lower upper best? harvest.solutions])

/-- The children of a node, none or two. Those of a node that is split decide one of its open items
in both ways, and only a feasible fractional node is split. -/
inductive Offspring (node : Node) (tree : Tree) : List Node → Prop
  | none : Offspring node tree []
  | pair (feasible : node.feasible = true) (fractional : node.relaxed.isIntegral = false)
      {index : ℕ} {left right : Node} (undecided : node.fixation.get? index = some none)
      (first : tree.Drafted (some node) (node.fixation.decided index false) left)
      (second : tree.next.Drafted (some node) (node.fixation.decided index true) right) :
      Offspring node tree [left, right]

/-- The children in a block are the offspring of its node. -/
theorem Block.offspring {plan : Plan} {node : Node} {before after : Standing}
    {children : List Node} {events : List Event}
    (block : Block plan node before after children events) :
    Offspring node before.tree children := by
  cases block with
  | infeasible _ => exact .none
  | pruned _ _ => exact .none
  | feasible _ _ _ => exact .none
  | branched feasible _ fractional _ _ undecided _ first second =>
    exact .pair feasible fractional undecided first second

/-- A turn as far as later turns depend on it. -/
structure Advance (plan : Plan) (node : Node) (before : State Frontier) (children : List Node)
    (events : List Event) (after : State Frontier) : Prop where
  block : Block plan node before.standing after.standing children events
  chronicle : after.events = before.events ++ events
  joins : after.frontier = before.frontier.join children
  drawn : ∀ child ∈ children, child.Drawn plan.inst
  counts : after.statistics.iterations = before.statistics.iterations + 1
  bound : after.upperBound = after.openBound

variable {plan : Plan} {node : Node} {before after : State Frontier}

/-- The solutions of a heuristic raise the incumbent one after the other. -/
theorem exists_discoveries {inst : Instance} (lawful : before.solutions.Lawful inst)
    {found : List (Solution × Fraction)} (valued : Valued inst found) (node : Node)
    (notices : List Notice) : ∃ events,
      Discoveries node before.lowerBound (found.map (·.1)) events
        (before.harvested node notices found).lowerBound ∧
      (before.harvested node notices found).events = before.events ++ events := by
  have start : ({ before with heuristicRuns := before.heuristicRuns + 1 }.told notices).events =
      before.events := State.events_told _ notices
  unfold State.harvested
  rw [← start]
  change ∃ events, Discoveries node
    ({ before with heuristicRuns := before.heuristicRuns + 1 }.told notices).lowerBound _ _ _ ∧ _
  replace lawful : ({ before with heuristicRuns := before.heuristicRuns + 1 }.told
    notices).solutions.Lawful inst := lawful
  generalize State.told { before with heuristicRuns := before.heuristicRuns + 1 } notices = start
    at lawful
  induction found generalizing start with
  | nil => exact ⟨[], Discoveries.nil, (List.append_nil _).symm⟩
  | cons entry rest ih =>
    obtain ⟨⟨packs, worth⟩, others⟩ := List.forall_mem_cons.mp valued
    have next : (start.accepted node entry).solutions.Lawful inst := lawful.insert packs worth
    have raised : (start.accepted node entry).lowerBound = max start.lowerBound (.finite entry.2) :=
      lawful.lowerBound_insert packs worth
    obtain ⟨events, discovers, grown⟩ := ih others (start.accepted node entry) next
    refine ⟨_, Discoveries.cons worth (raised ▸ discovers), ?_⟩
    rw [List.foldl_cons, grown, State.events_accepted, lowerBound_recorded lawful packs worth,
      List.append_assoc]
    rfl

/-- Two fixations give two children. -/
theorem Grow.exists_pair {inst : Instance} {parent : Node} {tree : Tree} {left right : Fixation}
    {children : List Node} (grow : Grow inst parent tree [left, right] children) :
    ∃ first second, children = [first, second] ∧ first.Drawn inst ∧ second.Drawn inst ∧
      tree.Drafted (some parent) left first ∧ tree.next.Drafted (some parent) right second := by
  obtain _ | ⟨-, drawn, drafted, rest⟩ := grow
  obtain _ | ⟨-, drawn', drafted', last⟩ := rest
  cases last
  exact ⟨_, _, rfl, drawn, drawn', drafted, drafted'⟩

private theorem exists_discoveries_grown {inst : Instance} (lawful : before.solutions.Lawful inst)
    {found : List (Solution × Fraction)} (valued : Valued inst found) (node left right : Node)
    (notices : List Notice) {middle : State Frontier}
    (grown : (before.harvested node notices found).grown [left, right] = middle) :
    ∃ discoveries,
      Discoveries node before.lowerBound (found.map (·.1)) discoveries middle.lowerBound ∧
      middle.events = before.events ++ (discoveries ++ [.nodeCreated left, .nodeCreated right]) ∧
      middle.tree = before.tree.next.next ∧ middle.frontier = before.frontier.join [left, right] ∧
        middle.statistics.iterations = before.statistics.iterations := by
  obtain ⟨discoveries, discovers, told⟩ := exists_discoveries lawful valued node notices
  have lower : middle.lowerBound = (before.harvested node notices found).lowerBound :=
    grown ▸ congrArg SolutionSet.lowerBound (State.grown_solutions _ _)
  refine ⟨discoveries, lower ▸ discovers, ?_, ?_, ?_, ?_⟩
  · rw [← grown, State.events_grown, told, List.append_assoc]
    rfl
  · rw [← grown]
    change (before.harvested node notices found).tree.next.next = _
    rw [State.harvested_tree]
  · rw [← grown, State.grown_frontier, State.harvested_frontier]
  · rw [← grown, State.grown_statistics, State.harvested_iterations]

/-- With the strategies of the library, a turn adds a block. -/
theorem Turn.exists_advance (builtIn : plan.BuiltIn) (turn : Turn plan node before after)
    (drawn : node.Drawn plan.inst) (lawful : before.solutions.Lawful plan.inst) :
    ∃ children events, Advance plan node before children events after := by
  obtain ⟨classified⟩ := turn
  cases classified with
  | infeasible infeasible =>
    exact ⟨[], _, Block.infeasible infeasible, State.events_closed _ _, rfl, by simp, rfl, rfl⟩
  | pruned feasible dominated =>
    exact ⟨[], _, Block.pruned feasible dominated, State.events_closed _ _, rfl, by simp, rfl, rfl⟩
  | feasible feasible promising integral =>
    have packs := drawn.packs feasible integral
    have raised : (before.recorded node.relaxed node.value).lowerBound = .finite node.value := by
      rw [lowerBound_recorded lawful packs drawn.worth, max_eq_right promising.1]
    refine ⟨[], [.nodeProcessed { node with status := .feasible } (.finite node.value)
      (before.recorded node.relaxed node.value).openBound
      (before.recorded node.relaxed node.value).solutions.best? []], ?_, ?_, rfl, by simp, rfl, rfl⟩
    · change Block plan node before.standing
        ⟨before.tree, (before.recorded node.relaxed node.value).lowerBound⟩ [] _
      rw [raised]
      exact Block.feasible feasible promising integral
    · rw [State.events_closed, State.events_recorded, raised]
  | @branched feasible promising fractional harvest found harvests yields valued fixations children
      branches _ grow =>
    obtain ⟨index, undecided, halves⟩ := builtIn.halves before.branchings node drawn fractional
    obtain rfl := Except.ok.inj (halves.symm.trans branches)
    obtain ⟨left, right, rfl, drawnLeft, drawnRight, first, second⟩ := grow.exists_pair
    generalize grown : (before.harvested node harvest.notices found).grown [left, right] = middle
    obtain ⟨discoveries, discovers, told, tree, joins, counts⟩ :=
      exists_discoveries_grown lawful valued node left right harvest.notices grown
    rw [← yields] at discovers
    refine ⟨[left, right], discoveries ++ [.nodeCreated left, .nodeCreated right,
      .nodeProcessed { node with status := .branched } middle.lowerBound middle.openBound
        middle.solutions.best? harvest.solutions], ?_, ?_, joins, by simp [drawnLeft, drawnRight],
      congrArg (· + 1) counts, rfl⟩
    · change Block plan node before.standing ⟨middle.tree, middle.lowerBound⟩ _ _
      rw [tree]
      exact Block.branched feasible promising fractional harvests discovers undecided halves first
        second
    · rw [State.events_closed, told, List.append_assoc, List.append_assoc]
      rfl

section Head

variable {limit count : ℕ} {frontier : Frontier}

/-- Between two heads, the first node that waits adds its block. -/
theorem Head.exists_advance {rest : Frontier} (builtIn : plan.BuiltIn)
    (head : Head plan limit (.initial plan frontier) count before)
    (next : before.frontier.next? = some (node, rest))
    (processes : process plan node { before with frontier := rest } = .ok () after) :
    before.frontier.queue = node :: rest.queue ∧ rest.ranking = before.frontier.ranking ∧
      ∃ children events,
        Advance plan node { before with frontier := rest } children events after := by
  obtain ⟨queue, ranking, drawn, turn⟩ := head.exists_turn builtIn.tame next processes
  have lawful := (head.covered builtIn.tame
    (SolutionSet.lawful_empty plan.inst plan.config.keepAll)).lawful
  exact ⟨queue, ranking, turn.exists_advance builtIn drawn lawful⟩

/-- A search that comes out adds a further block at every head where it is not over. -/
theorem Head.exists_advance_of_ok {best? : Option Solution} {state full : State Frontier}
    (builtIn : plan.BuiltIn) (head : Head plan limit (.initial plan frontier) count state)
    (answers : search plan limit (.initial plan frontier) = .ok best? full)
    (present : state.frontier.queue ≠ []) (goesOn : ¬ (0 < count ∧ state.Settled)) :
    ∃ node rest children events after, state.frontier.next? = some (node, rest) ∧
      Advance plan node { state with frontier := rest } children events after ∧
        Head plan limit (.initial plan frontier) (count + 1) after := by
  obtain ⟨node, rest, after, next, processes, further⟩ :=
    head.exists_next State.initial_unfinished answers present
      (State.not_stopped_iff.mp goesOn)
  obtain ⟨-, -, children, events, advance⟩ := head.exists_advance builtIn next processes
  exact ⟨node, rest, children, events, after, next, advance, further⟩

/-- What the root establishes and every block keeps holds at all heads of a search. -/
theorem Head.by_blocks {state : State Frontier} (builtIn : plan.BuiltIn)
    (kept : ℕ → State Frontier → Prop)
    (rooted : ∀ root, root.Drawn plan.inst →
      Tree.Drafted {} none (.unassigned plan.inst.size) root →
        kept 0 (((State.initial plan frontier).announced plan limit).planted root))
    (advanced : ∀ count before node rest children events after,
      Head plan limit (.initial plan frontier) count before → kept count before →
        before.frontier.queue = node :: rest.queue → rest.ranking = before.frontier.ranking →
          Advance plan node { before with frontier := rest } children events after →
            kept (count + 1) after)
    (head : Head plan limit (.initial plan frontier) count state) : kept count state := by
  induction head with
  | root announces plants =>
    obtain ⟨root, ⟨drawn, drafted⟩, rfl⟩ := exists_planted builtIn.tame announces plants
    exact rooted root drawn drafted
  | turn head within unsettled next processes ih =>
    obtain ⟨queue, ranking, children, events, advance⟩ :=
      head.exists_advance builtIn next processes
    exact advanced _ _ _ _ children events _ head ih queue ranking advance

end Head

end Search

end Knapsack

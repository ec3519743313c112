import Knapsack.Proofs.Search.Session

/-! # What the observers see of a turn

The journal only ever grows. A turn adds the discoveries of the heuristic, then the creation of the
children, and at last the processing of the node with the bounds that hold after it.
-/

namespace Knapsack.Search

variable {state : State Frontier} {node : Node}

namespace State

private theorem events_push (journal : Array JournalEntry) (event : Event) :
    (journal.push (.event event)).toList.filterMap (·.event?) =
      journal.toList.filterMap (·.event?) ++ [event] := by
  simp [JournalEntry.event?]

private theorem events_push_notice (journal : Array JournalEntry) (notice : Notice) :
    (journal.push (.notice notice)).toList.filterMap (·.event?) =
      journal.toList.filterMap (·.event?) := by
  simp [JournalEntry.event?]

theorem events_recorded (solution : Solution) (value : Fraction) :
    (state.recorded solution value).events = state.events := by
  unfold recorded events
  dsimp only
  split_ifs
  · exact events_push_notice _ _
  · rfl

theorem events_accepted (found : Solution × Fraction) :
    (state.accepted node found).events = state.events ++
      [.solutionFound node found.1 (state.recorded found.1 found.2).lowerBound] := by
  refine (events_push _ _).trans (congrArg (· ++ _) ?_)
  apply (events_recorded found.1 found.2).trans
  exact events_push_notice _ _

theorem events_told (state : State Frontier) (notices : List Notice) :
    (state.told notices).events = state.events := by
  induction notices generalizing state with
  | nil => rfl
  | cons notice rest ih =>
    exact (ih (state.told [notice])).trans (events_push_notice _ _)

/-- The heuristic adds one discovery for each solution. -/
theorem exists_events_harvested (state : State Frontier) (node : Node) (notices : List Notice)
    (found : List (Solution × Fraction)) :
    ∃ discoveries, (state.harvested node notices found).events = state.events ++ discoveries ∧
      ∀ event ∈ discoveries, ∃ entry ∈ found, ∃ incumbent,
        event = .solutionFound node entry.1 incumbent := by
  have start : ({ state with heuristicRuns := state.heuristicRuns + 1 }.told notices).events =
      state.events := events_told _ notices
  unfold harvested
  rw [← start]
  generalize told { state with heuristicRuns := state.heuristicRuns + 1 } notices = start
  induction found generalizing start with
  | nil => exact ⟨[], (List.append_nil _).symm, by simp⟩
  | cons entry rest ih =>
    obtain ⟨discoveries, events, each⟩ := ih (start.accepted node entry)
    refine ⟨.solutionFound node entry.1 (start.recorded entry.1 entry.2).lowerBound :: discoveries,
      ?_, ?_⟩
    · rw [List.foldl_cons, events, events_accepted, List.append_assoc]
      rfl
    · refine List.forall_mem_cons.mpr ⟨⟨entry, List.mem_cons_self .., _, rfl⟩, ?_⟩
      intro event member
      obtain ⟨other, listed, seen⟩ := each event member
      exact ⟨other, List.mem_cons_of_mem _ listed, seen⟩

theorem events_joined (state : State Frontier) (child : Node) :
    (state.joined child).events = state.events ++ [.nodeCreated child] := events_push _ _

theorem events_grown (state : State Frontier) (children : List Node) :
    (state.grown children).events = state.events ++ children.map .nodeCreated := by
  unfold grown
  suffices general : ∀ start : State Frontier,
      (children.foldl joined start).events = start.events ++ children.map .nodeCreated from
    general _
  induction children with
  | nil => exact fun start => (List.append_nil _).symm
  | cons child rest ih =>
    intro start
    rw [List.foldl_cons, ih (start.joined child), events_joined, List.append_assoc]
    rfl

theorem events_closed (status : Status) (found : List Solution) :
    (state.closed node status found).events = state.events ++
      [.nodeProcessed { node with status } state.lowerBound state.openBound
        state.solutions.best? found] := by
  refine (events_push _ _).trans (congrArg (· ++ _) ?_)
  exact events_push_notice _ _

theorem events_planted (root : Node) :
    (state.planted root).events = state.events ++ [.nodeCreated root] := events_push _ _

theorem events_announced (plan : Plan) (limit : ℕ) :
    (state.announced plan limit).events = state.events ++ [.searchStarted plan.inst] :=
  (events_push_notice _ _).trans (events_push _ _)

/-- A search opens with its start and its root. -/
theorem events_opening (plan : Plan) (frontier : Frontier) (limit : ℕ) (root : Node) :
    (((State.initial plan frontier).announced plan limit).planted root).events =
      [.searchStarted plan.inst, .nodeCreated root] := by
  rw [events_planted, events_announced]
  rfl

theorem events_ended (failure? : Option Error) : (state.ended failure?).events =
    state.events ++ [.searchEnded { state.statistics with nodesCreated := state.tree.created }] :=
  (events_push_notice _ _).trans (events_push _ _)

theorem events_completed : state.completed.events =
    state.events ++ [.searchEnded { state.statistics with nodesCreated := state.tree.created }] :=
  events_ended none

theorem events_interrupted (limit : ℕ) : (state.interrupted limit).events =
    state.events ++ [.searchEnded { state.statistics with nodesCreated := state.tree.created }] :=
  (events_ended _).trans (congrArg (· ++ _) (events_told _ _))

end State

namespace Grow

variable {inst : Instance} {parent : Node} {tree : Tree} {fixations : List Fixation}
  {children : List Node}

/-- Children name their parent. -/
theorem names_parent (grow : Grow inst parent tree fixations children) :
    ∀ child ∈ children, child.parent? = some parent.id := by
  induction grow with
  | nil => simp
  | cons _ _ drafted _ ih => exact List.forall_mem_cons.mpr ⟨drafted.below, ih⟩

end Grow

/-- What a turn adds to the events, and to what waits. -/
theorem Turn.exists_events {plan : Plan} {before after : State Frontier}
    (turn : Turn plan node before after) : ∃ (discoveries : List Event) (children : List Node)
      (status : Status) (found : List Solution),
    after.events = before.events ++ (discoveries ++ children.map .nodeCreated ++
      [.nodeProcessed { node with status } after.lowerBound after.upperBound
        after.solutions.best? found]) ∧
    after.frontier.queue.Perm (children.map Node.queued ++ before.frontier.queue) ∧
    (∀ event ∈ discoveries, ∃ solution incumbent, event = .solutionFound node solution incumbent ∧
      ∃ value, solution.value = .ok value) ∧
    ∀ child ∈ children, child.parent? = some node.id := by
  obtain ⟨classified⟩ := turn
  cases classified with
  | infeasible _ =>
    exact ⟨[], [], _, _, State.events_closed _ _, List.Perm.refl _, by simp, by simp⟩
  | pruned _ _ =>
    exact ⟨[], [], _, _, State.events_closed _ _, List.Perm.refl _, by simp, by simp⟩
  | feasible _ _ _ =>
    refine ⟨[], [], .feasible, [], (State.events_closed _ _).trans ?_, List.Perm.refl _, by simp,
      by simp⟩
    rw [State.events_recorded]
    rfl
  | @branched _ _ _ harvest found _ _ valued _ children _ _ grow =>
    have perm := (before.harvested node harvest.notices found).queue_grown_perm children
    rw [State.harvested_frontier] at perm
    obtain ⟨discoveries, events, each⟩ :=
      before.exists_events_harvested node harvest.notices found
    refine ⟨discoveries, children, .branched, harvest.solutions,
      (State.events_closed _ _).trans ?_, perm, ?_, grow.names_parent⟩
    · rw [State.events_grown, events, List.append_assoc, List.append_assoc, List.append_assoc]
      rfl
    · intro event member
      obtain ⟨entry, listed, incumbent, rfl⟩ := each event member
      exact ⟨entry.1, incumbent, rfl, entry.2, (valued entry listed).2⟩

end Knapsack.Search

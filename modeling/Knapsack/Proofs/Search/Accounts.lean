import Knapsack.Proofs.Search.Bounds
import Knapsack.Proofs.Search.Comparison
import Knapsack.Proofs.Search.Story

/-! # The accounts of a search

The statistics, the tree and the frontier count in three places and at different moments. What they
count are events, so each step of a turn is booked together with the event that it reports, and the
three agree with the events, and with each other, whenever a node was processed and when the search
ends, also when it stops early or is interrupted.
-/

namespace Knapsack.Search

/-- Whether an event reports a solution of the heuristic. -/
def Event.isFound : Event → Bool
  | .solutionFound _ _ _ => true
  | _ => false

/-- The processed nodes that were put in some class. -/
def closedAs (status : Status) (events : List Event) : List Node :=
  (processedIn events).filter (·.status = status)

/-- The nodes that were created and not processed. -/
def unprocessedIn (events : List Event) : List Node :=
  (createdIn events).filter fun node => node.id ∉ (processedIn events).map (·.id)

/-- The statistics that events amount to. -/
def tally (events : List Event) : Statistics where
  nodesCreated := (createdIn events).length
  iterations := (processedIn events).length
  infeasible := (closedAs .infeasible events).length
  pruned := (closedAs .pruned events).length
  feasible := (closedAs .feasible events).length
  branched := (closedAs .branched events).length
  heuristicSolutions := events.countP (·.isFound)

/-- What an event adds to the statistics. -/
def Event.book (event : Event) (statistics : Statistics) : Statistics :=
  match event with
  | .nodeCreated _ => { statistics with nodesCreated := statistics.nodesCreated + 1 }
  | .solutionFound _ _ _ =>
    { statistics with heuristicSolutions := statistics.heuristicSolutions + 1 }
  | .nodeProcessed node _ _ _ _ => statistics.record node.status
  | .searchStarted _ | .searchEnded _ => statistics

/-- Events are booked one at a time. -/
theorem tally_concat (events : List Event) (event : Event) :
    tally (events ++ [event]) = event.book (tally events) := by
  simp only [tally, closedAs, createdIn_append, processedIn_append, List.filter_append,
    List.length_append, List.countP_append]
  cases event with
  | searchStarted _ | nodeCreated _ | solutionFound _ _ _ | searchEnded _ => rfl
  | nodeProcessed node _ _ _ _ =>
    obtain ⟨_, _, _, _, _, _, _, status⟩ := node
    cases status <;> rfl

/-- The four final classes make up all that was processed. -/
theorem length_eq_of_terminal {nodes : List Node}
    (terminal : ∀ node ∈ nodes, node.status.isTerminal = true) :
    nodes.length = (nodes.filter (·.status = .infeasible)).length +
      (nodes.filter (·.status = .pruned)).length + (nodes.filter (·.status = .feasible)).length +
        (nodes.filter (·.status = .branched)).length := by
  induction nodes with
  | nil => rfl
  | cons node rest ih =>
    obtain ⟨here, others⟩ := List.forall_mem_cons.mp terminal
    have whole := ih others
    simp only [List.filter_cons]
    cases status : node.status with
    | unknown | enqueued =>
      rw [status] at here
      exact nomatch here
    | infeasible | pruned | feasible | branched =>
      simp
      omega

/-- The statistics with the nodes as the tree counts them. The search itself brings this counter up
to date only when a node was processed and in the end. -/
def State.books (state : State Frontier) : Statistics :=
  { state.statistics with nodesCreated := state.tree.created }

/-- A state whose books agree with its events. -/
def State.Booked (state : State Frontier) : Prop := state.books = tally state.events

section Turns

variable {plan : Plan} {excuse : Failure → Prop} {limit count : ℕ} {frontier : Frontier}
  {node : Node} {state before after : State Frontier}

/-- A step that books the event it reports. -/
theorem State.Booked.step (booked : before.Booked) {event : Event}
    (events : after.events = before.events ++ [event])
    (books : after.books = event.book before.books) : after.Booked := by
  rw [State.Booked, events, tally_concat, books, booked]

theorem State.Booked.recorded (booked : state.Booked) (solution : Solution) (value : Fraction) :
    (state.recorded solution value).Booked := by
  rw [State.Booked, State.events_recorded]
  exact booked

theorem State.Booked.harvested (booked : state.Booked) (node : Node) (notices : List Notice)
    (found : List (Solution × Fraction)) : (state.harvested node notices found).Booked := by
  refine List.foldlRecOn found _ ?_ fun state booked entry _ =>
    booked.step (State.events_accepted entry) rfl
  rw [State.Booked, State.events_told]
  exact booked

theorem State.Booked.grown (booked : state.Booked) (children : List Node) :
    (state.grown children).Booked :=
  List.foldlRecOn children _ booked fun state booked child _ =>
    booked.step (state.events_joined child) rfl

theorem State.Booked.closed (booked : state.Booked) (node : Node) (status : Status)
    (found : List Solution) : (state.closed node status found).Booked := by
  refine booked.step (State.events_closed status found) ?_
  cases status <;> rfl

/-- Every turn books what it reports. -/
theorem Turn.booked (turn : Turn plan node before after) (booked : before.Booked) :
    after.Booked := by
  obtain ⟨classified⟩ := turn
  apply State.Booked.closed
  cases classified with
  | infeasible _ | pruned _ _ => exact booked
  | feasible _ _ _ => exact booked.recorded node.relaxed node.value
  | branched _ _ _ _ _ _ _ _ _ => exact (booked.harvested node _ _).grown _

theorem Head.booked (tame : plan.Tame excuse)
    (head : Head plan limit (.initial plan frontier) count state) : state.Booked := by
  refine head.invariant tame (fun _ => State.Booked) ?_
    fun _ _ _ _ _ booked _ _ _ _ _ turn => turn.booked booked
  intro root _ _
  rw [State.Booked, State.events_opening]
  rfl

/-- A processed node is counted in the statistics together with all that were created. -/
theorem Turn.nodesCreated_eq (turn : Turn plan node before after) :
    after.statistics.nodesCreated = after.tree.created := by
  obtain ⟨classified⟩ := turn
  rfl

/-- What waits is what was created and not processed. -/
theorem Census.queue_perm (census : Census count state) :
    state.frontier.queue.Perm ((unprocessedIn state.events).map Node.queued) := by
  have distinct := census.shared.nodup_iff.mpr List.nodup_range
  obtain ⟨waiting, -, disjoint⟩ := List.nodup_append.mp distinct
  have created : ((createdIn state.events).map (·.id)).Nodup := census.numbered ▸ List.nodup_range
  have left : (((unprocessedIn state.events).map Node.queued).map (·.id)).Nodup := by
    rw [List.map_map]
    exact created.sublist (List.filter_sublist.map _)
  refine (List.perm_ext_iff_of_nodup waiting.of_map left.of_map).mpr fun node => ?_
  rw [List.mem_map]
  simp only [unprocessedIn, List.mem_filter, decide_eq_true_eq]
  constructor
  · intro waits
    obtain ⟨born, listed, rfl⟩ := census.waits node waits
    have number : born.queued.id ∈ state.frontier.queue.map (·.id) := List.mem_map_of_mem waits
    exact ⟨born, ⟨listed, fun processed => disjoint born.id number born.id processed rfl⟩, rfl⟩
  · -- A node that was not processed has its number among those that wait.
    rintro ⟨born, ⟨listed, unprocessed⟩, rfl⟩
    have number : born.id ∈ List.range state.tree.created :=
      census.numbered ▸ List.mem_map_of_mem listed
    have waits := (List.mem_append.mp (census.shared.mem_iff.mpr number)).resolve_right unprocessed
    obtain ⟨other, present, same⟩ := List.mem_map.mp waits
    obtain ⟨twin, twinListed, rfl⟩ := census.waits other present
    obtain rfl : twin = born := List.inj_on_of_nodup_map created twinListed listed same
    exact present

end Turns

/-- The statistics, the tree and the frontier account for the same events. Every processed node is
in one of four classes; each node that was branched on led to two more; what was created and not
processed waits, each node once and enqueued; and solutions of the heuristic are counted. -/
structure Accounted (statistics : Statistics) (tree : Tree) (frontier : Frontier)
    (events : List Event) : Prop where
  counters : statistics = tally events
  classes : statistics.iterations =
    statistics.infeasible + statistics.pruned + statistics.feasible + statistics.branched
  pairs : statistics.nodesCreated = 1 + 2 * statistics.branched
  tree : tree.created = statistics.nodesCreated
  size : frontier.size + statistics.iterations = statistics.nodesCreated
  waits : frontier.queue.Perm ((unprocessedIn events).map Node.queued)
  once : (frontier.queue.map (·.id)).Nodup
  found : statistics.heuristicSolutions = events.countP (·.isFound)

section Heads

variable {plan : Plan} {frontier : Frontier} {limit count : ℕ} {state : State Frontier}

theorem Head.accounted (builtIn : plan.BuiltIn)
    (head : Head plan limit (.initial plan frontier) count state) :
    Accounted state.books state.tree state.frontier state.events := by
  have booked : state.books = tally state.events := head.booked builtIn.tame
  have census := head.census builtIn
  have distinct := census.shared.nodup_iff.mpr List.nodup_range
  refine ⟨booked, ?_, ?_, rfl, ?_, census.queue_perm, (List.nodup_append.mp distinct).1, ?_⟩
  · rw [booked]
    exact length_eq_of_terminal (head.story builtIn).consistent.final
  · have branched : state.books.branched = (branchedIn state.events).length :=
      congrArg Statistics.branched booked
    rw [branched]
    exact head.created_eq builtIn
  · have shared := census.shared.length_eq
    rw [List.length_append, List.length_map, List.length_map, List.length_range] at shared
    have iterations : state.books.iterations = (processedIn state.events).length :=
      congrArg Statistics.iterations booked
    rw [iterations]
    exact shared
  · exact congrArg Statistics.heuristicSolutions booked

/-- The end of a search is not booked. -/
theorem Accounted.ended {statistics : Statistics} {tree : Tree} {events : List Event}
    (accounted : Accounted statistics tree frontier events) (last : Statistics) :
    Accounted statistics tree frontier (events ++ [.searchEnded last]) := by
  obtain ⟨counters, classes, pairs, created, size, waits, once, found⟩ := accounted
  refine ⟨counters.trans (tally_concat events (.searchEnded last)).symm, classes, pairs, created,
    size, ?_, once, ?_⟩
  · have silent : unprocessedIn (events ++ [.searchEnded last]) = unprocessedIn events := by
      have created : createdIn [.searchEnded last] = [] := rfl
      have processed : processedIn [.searchEnded last] = [] := rfl
      rw [unprocessedIn, createdIn_append, processedIn_append, created, processed, List.append_nil,
        List.append_nil, unprocessedIn]
    rwa [silent]
  · rw [List.countP_append, found]
    rfl

/-- Where a search is over, nothing feasible waits that is worth more than the incumbent. -/
theorem Over.waiting_le (builtIn : plan.BuiltIn)
    (isOver : Over plan limit (.initial plan frontier) state) :
    ∀ node ∈ state.frontier.queue,
      node.feasible = false ∨ .finite node.value ≤ state.lowerBound := by
  obtain ⟨count, head, nothing | ⟨-, settled⟩⟩ := isOver
  · simp [nothing]
  · intro node waits
    obtain ⟨root, -, ledger⟩ := head.ledger builtIn.tame
    have reached : state.openBound ≤ state.lowerBound := ledger.current ▸ settled
    cases feasible : node.feasible with
    | false => exact Or.inl rfl
    | true => exact Or.inr (le_trans (Frontier.le_upperBound waits feasible)
        (max_le_iff.mp reached).1)

end Heads

/-- Under any ranking and any budget, the accounts agree after every processed node, and at the end
of a search, whether it comes out or is interrupted. When it comes out, it left no feasible node
that is worth more than the incumbent. -/
theorem nodes_are_accounted_for {plan : Plan} (builtIn : plan.BuiltIn) (frontier : Frontier)
    (limit : ℕ) :
    (∀ count state, Head plan limit (.initial plan frontier) (count + 1) state →
      Accounted state.statistics state.tree state.frontier state.events) ∧
    match search plan limit (.initial plan frontier) with
    | .ok _ last => Accounted last.statistics last.tree last.frontier last.events ∧
        ∀ node ∈ last.frontier.queue,
          node.feasible = false ∨ .finite node.value ≤ last.lowerBound
    | .error (.error _) last => Accounted last.statistics last.tree last.frontier last.events
    | .error (.defect _) _ => 2 ^ 64 ≤ plan.inst.size := by
  constructor
  · intro count state head
    have accounted := head.accounted builtIn
    have books : state.books = state.statistics := by
      cases head with
      | turn earlier _ _ next processes =>
        obtain ⟨-, -, -, turn⟩ := earlier.exists_turn builtIn.tame next processes
        rw [State.books, ← turn.nodesCreated_eq]
    rwa [books] at accounted
  · refine search_leaves _ _ builtIn ?_ ?_
    · intro last isOver
      have idle := isOver.waiting_le builtIn
      refine ⟨?_, idle⟩
      obtain ⟨count, head, -⟩ := isOver
      rw [State.events_completed]
      exact (head.accounted builtIn).ended _
    · rintro last ⟨head, -⟩
      rw [State.events_interrupted]
      exact (head.accounted builtIn).ended _

theorem nodes_are_accounted_for_tight : Plan.tight.BuiltIn ∧
    ∃ best? last, search .tight 15 (.initial .tight (.empty .depthFirst)) = .ok best? last ∧
      Accounted last.statistics last.tree last.frontier last.events ∧
        ∀ node ∈ last.frontier.queue,
          node.feasible = false ∨ .finite node.value ≤ last.lowerBound := by
  obtain ⟨best?, last, answers⟩ := tight_isOk (.empty .depthFirst)
  obtain ⟨-, accounted⟩ := nodes_are_accounted_for Plan.tight_builtIn (.empty .depthFirst) 15
  rw [answers] at accounted
  exact ⟨Plan.tight_builtIn, best?, last, answers, accounted⟩

end Knapsack.Search

import Knapsack.Observer.ProgressTracker
import Knapsack.Proofs.Search.Bounds
import Knapsack.Proofs.Search.Termination

/-! # A tracker mirrors the search

A tracker follows the counters and the bounds of a search from one report to the next. It keeps what
the heuristic found as long as that was worth no less than the incumbent. The event of a solution
carries the value of the incumbent after it, which is the greater of both, so the solution is kept
exactly if its value reaches the one that was held before.
-/

namespace Knapsack

namespace Search

/-- A solution of the heuristic, with its value and the value of the incumbent right before it. -/
structure Find where
  solution : Solution
  value : Fraction
  held : Bound

/-- The selections of the finds that are worth at least what was held before them. -/
def matching (finds : List Find) : List (List Fraction) :=
  (finds.filter fun find => find.held ≤ .finite find.value).map (·.solution.selection)

theorem matching_append (first second : List Find) :
    matching (first ++ second) = matching first ++ matching second := by
  rw [matching, List.filter_append, List.map_append]
  rfl

/-- Solutions that a search accepted for a node one after the other. -/
inductive Finds (node : Node) : State Frontier → List Find → State Frontier → Prop
  | nil {state : State Frontier} : Finds node state [] state
  | cons {before after last : State Frontier} {solution : Solution} {value : Fraction}
      {rest : List Find}
      (worth : solution.value = .ok value)
      (accepts : accept node solution before = .ok () after)
      (further : Finds node after rest last) :
      Finds node before (⟨solution, value, before.lowerBound⟩ :: rest) last

/-- What the heuristic yielded in the turn of a node that ended in some class. It was asked only if
the node was branched on, and then all of its solutions were accepted, the first of them when the
recorded solutions were still those from before the turn. -/
inductive Yield (plan : Plan) (node : Node) (before : State Frontier) :
    Status → List Solution → List Find → Prop
  | unasked {status : Status} (other : status ≠ .branched) : Yield plan node before status [] []
  | asked {harvest : Harvest} {finds : List Find} {start last : State Frontier}
      (harvests : plan.heuristic before.heuristicRuns plan.inst node = .ok harvest)
      (same : start.solutions = before.solutions) (accepts : Finds node start finds last)
      (all : finds.map (·.solution) = harvest.solutions) :
      Yield plan node before .branched harvest.solutions finds

end Search

open Search

namespace ProgressTracker

variable {tracker : ProgressTracker} {events : List Event}

theorem observeAll_append (tracker : ProgressTracker) (first second : List Event) :
    tracker.observeAll (first ++ second) = tracker.observeAll first >>= (·.observeAll second) :=
  List.foldlM_append

theorem observeAll_append_of_ok {later : ProgressTracker}
    (outcome : tracker.observeAll events = .ok later) (more : List Event) :
    tracker.observeAll (events ++ more) = later.observeAll more := by
  rw [observeAll_append, outcome]
  rfl

/-- The creation of nodes is counted. -/
theorem observeAll_map_nodeCreated (tracker : ProgressTracker) (nodes : List Node) :
    tracker.observeAll (nodes.map .nodeCreated) =
      .ok { tracker with nodes := tracker.nodes + nodes.length } := by
  induction nodes generalizing tracker with
  | nil => rfl
  | cons node rest ih =>
    refine (ih { tracker with nodes := tracker.nodes + 1 }).trans ?_
    rw [List.length_cons, Nat.add_right_comm, Nat.add_assoc]

/-- A solution is held back exactly if it is worth at least what was held before. -/
theorem observeAll_solutionFound (tracker : ProgressTracker) (node : Node) {solution : Solution}
    {value : Fraction} (worth : solution.value = .ok value) (held : Bound) :
    tracker.observeAll [.solutionFound node solution (max held (.finite value))] =
      .ok { tracker with pending := tracker.pending ++ matching [⟨solution, value, held⟩] } := by
  have valued : exactly solution.value = .ok value := exactly_eq_ok_iff.mpr worth
  simp only [observeAll, List.foldlM_cons, List.foldlM_nil, observe, find, valued, bind,
    Except.bind, pure, Except.pure]
  by_cases reaches : held ≤ .finite value
  · have level : ¬ (.finite value : Bound) < max held (.finite value) := by
      rw [max_eq_right reaches]
      exact lt_irrefl _
    have kept : matching [⟨solution, value, held⟩] = [solution.selection] := by
      simp [matching, reaches]
    rw [if_neg level, kept]
  · have misses : (.finite value : Bound) < max held (.finite value) := by
      have less := not_le.mp reaches
      rwa [max_eq_left (le_of_lt less)]
    have kept : matching [⟨solution, value, held⟩] = [] := by
      simp [matching, reaches]
    rw [if_pos misses, kept, List.append_nil]

end ProgressTracker

namespace Search

variable {plan : Plan} {node : Node} {before after : State Frontier}

/-- The solutions of a heuristic are accepted one after the other, and a tracker holds back those
that match the incumbent. -/
theorem exists_finds (node : Node) {start : State Frontier}
    (lawful : start.solutions.Lawful plan.inst)
    {found : List (Solution × Fraction)} (valued : Valued plan.inst found) : ∃ finds events,
      Finds node start finds (found.foldl (State.accepted · node) start) ∧
      finds.map (·.solution) = found.map (·.1) ∧
      (found.foldl (State.accepted · node) start).events = start.events ++ events ∧
      (createdIn events = [] ∧ processedIn events = []) ∧
      ∀ tracker : ProgressTracker, tracker.observeAll events =
        .ok { tracker with pending := tracker.pending ++ matching finds } := by
  induction found generalizing start with
  | nil =>
    refine ⟨[], [], Finds.nil, rfl, (List.append_nil _).symm, ⟨rfl, rfl⟩, fun tracker => ?_⟩
    exact congrArg (fun pending => Except.ok { tracker with pending }) (List.append_nil _).symm
  | cons entry rest ih =>
    obtain ⟨⟨packs, worth⟩, others⟩ := List.forall_mem_cons.mp valued
    have next : (start.accepted node entry).solutions.Lawful plan.inst := lawful.insert packs worth
    obtain ⟨finds, events, accepts, all, grown, silent, held⟩ := ih next others
    refine ⟨⟨entry.1, entry.2, start.lowerBound⟩ :: finds,
      .solutionFound node entry.1 (max start.lowerBound (.finite entry.2)) :: events,
      Finds.cons worth (accept_eq packs worth) accepts, congrArg (entry.1 :: ·) all, ?_, silent,
      fun tracker => ?_⟩
    · rw [List.foldl_cons, grown, State.events_accepted, lowerBound_recorded lawful packs worth,
        List.append_assoc]
      rfl
    · have first := tracker.observeAll_solutionFound node worth start.lowerBound
      refine (ProgressTracker.observeAll_append_of_ok first events).trans ?_
      rw [held, List.append_assoc, ← matching_append]
      rfl

/-- A turn as a tracker sees it: it counts the children and holds back what the heuristic found,
until the node is reported as processed. -/
structure Watched (plan : Plan) (node : Node) (before after : State Frontier) (middle : List Event)
    (status : Status) (found : List Solution) (finds : List Find) : Prop where
  chronicle : after.events = before.events ++ (middle ++ [.nodeProcessed { node with status }
    after.lowerBound after.upperBound after.solutions.best? found])
  quiet : processedIn middle = []
  yields : Yield plan node before status found finds
  held : ∀ tracker : ProgressTracker, tracker.observeAll middle = .ok { tracker with
    nodes := tracker.nodes + (createdIn middle).length
    pending := tracker.pending ++ matching finds }

private theorem watched_closed {status : Status} {middle : State Frontier}
    (events : middle.events = before.events) (other : status ≠ .branched) :
    Watched plan node before (middle.closed node status []) [] status [] [] where
  chronicle := (State.events_closed _ _).trans (congrArg (· ++ _) events)
  quiet := rfl
  yields := Yield.unasked other
  held := fun tracker => by
    change Except.ok tracker = Except.ok { tracker with pending := tracker.pending ++ [] }
    rw [List.append_nil]

theorem Turn.exists_watched (turn : Turn plan node before after)
    (lawful : before.solutions.Lawful plan.inst) :
    ∃ middle status found finds, Watched plan node before after middle status found finds := by
  obtain ⟨classified⟩ := turn
  cases classified with
  | infeasible _ => exact ⟨[], _, [], [], watched_closed rfl (by decide)⟩
  | pruned _ _ => exact ⟨[], _, [], [], watched_closed rfl (by decide)⟩
  | feasible _ _ _ =>
    exact ⟨[], _, [], [], watched_closed (State.events_recorded _ _) (by decide)⟩
  | @branched _ _ _ harvest found harvests yields valued _ children _ _ _ =>
    let start := ({ before with heuristicRuns := before.heuristicRuns + 1 } : State Frontier).told
      harvest.notices
    obtain ⟨finds, events, accepts, all, grown, ⟨childless, quiet⟩, held⟩ :=
      exists_finds node (show start.solutions.Lawful plan.inst from lawful) valued
    have opening : start.events = before.events := State.events_told _ _
    have untouched : start.solutions = before.solutions := rfl
    refine ⟨events ++ children.map .nodeCreated, .branched, harvest.solutions, finds, ?_, ?_,
      Yield.asked harvests untouched accepts (all.trans yields.symm), fun tracker => ?_⟩
    · refine (State.events_closed _ _).trans ?_
      rw [State.events_grown, State.harvested, grown, opening, List.append_assoc,
        List.append_assoc, List.append_assoc]
      rfl
    · rw [processedIn_append, quiet, processedIn_map_nodeCreated]
      rfl
    · rw [ProgressTracker.observeAll_append_of_ok (held tracker),
        ProgressTracker.observeAll_map_nodeCreated, createdIn_append, childless,
        createdIn_map_nodeCreated]
      rfl

/-- A report that closed the turn of a node, with the state that the turn began with. Before it,
there had been as many turns as nodes had been reported. -/
inductive Reports (plan : Plan) (limit : ℕ) (start : State Frontier) (seen : List Event)
    (report : Event) (node : Node) : State Frontier → Prop
  | intro {state after : State Frontier} {frontier : Frontier}
      (head : Head plan limit start (processedIn seen).length state)
      (next : state.frontier.next? = some (node, frontier))
      (processes : process plan node { state with frontier } = .ok () after)
      (closes : after.events = seen ++ [report]) :
      Reports plan limit start seen report node { state with frontier }

/-- A tracker that shows how far a search has come, between two turns. -/
structure Tracks (tracker : ProgressTracker) (state : State Frontier) : Prop where
  idle : tracker.pending = []
  nodes : tracker.nodes = (createdIn state.events).length
  iterations : tracker.iterations = (processedIn state.events).length
  bounds : tracker.iterations ≠ 0 →
    tracker.lower = state.lowerBound ∧ tracker.upper = state.upperBound

/-- What a tracker knows at every report in some events, whatever it had observed before: how many
nodes were created and processed, the bounds just reported, and the selections that the heuristic
yielded in the turn that closed with the report and that matched the incumbent. -/
def Mirrored (plan : Plan) (limit : ℕ) (start : State Frontier) (earlier : ProgressTracker)
    (events : List Event) : Prop :=
  ∀ seen node lower upper incumbent? found later,
    events = seen ++ .nodeProcessed node lower upper incumbent? found :: later →
      ∃ waiting before finds,
        Reports plan limit start seen (.nodeProcessed node lower upper incumbent? found) waiting
          before ∧
        node = { waiting with status := node.status } ∧
        Yield plan waiting before node.status found finds ∧
        earlier.observeAll (seen ++ [.nodeProcessed node lower upper incumbent? found]) = .ok {
          nodes := (createdIn seen).length
          iterations := (processedIn seen).length + 1
          lower, upper
          found := matching finds }

private theorem report_cases {earlier middle seen later : List Event} {last report : Event}
    (quiet : processedIn middle = []) (reports : report.processed?.isSome = true)
    (same : earlier ++ (middle ++ [last]) = seen ++ report :: later) :
    (∃ rest, earlier = seen ++ report :: rest) ∨ seen = earlier ++ middle ∧ report = last := by
  -- The middle has no report, so one that is not among the earlier events is the last one.
  have final : ∀ {part}, middle ++ [last] = part ++ report :: later →
      part = middle ∧ report = last := by
    intro part split
    rcases later.eq_nil_or_concat with rfl | ⟨rest, event, rfl⟩
    · obtain ⟨front, back⟩ := List.append_inj' split rfl
      exact ⟨front.symm, (List.cons.inj back).1.symm⟩
    · rw [List.concat_eq_append, ← List.cons_append, ← List.append_assoc] at split
      obtain ⟨rfl, -⟩ := List.append_inj' split rfl
      obtain ⟨node, processed⟩ := Option.isSome_iff_exists.mp reports
      have member : node ∈ processedIn (part ++ report :: rest) :=
        List.mem_filterMap.mpr ⟨report, by simp, processed⟩
      rw [quiet] at member
      exact nomatch member
  rcases List.append_eq_append_iff.mp same with ⟨part, rfl, split⟩ | ⟨part, rfl, split⟩
  · obtain ⟨rfl, isLast⟩ := final split
    exact Or.inr ⟨rfl, isLast⟩
  · cases part with
    | nil =>
      obtain ⟨empty, isLast⟩ := final (show middle ++ [last] = [] ++ report :: later from split.symm)
      refine Or.inr ⟨?_, isLast⟩
      rw [← empty, List.append_nil, List.append_nil]
    | cons event rest =>
      obtain ⟨rfl, -⟩ := List.cons.inj split
      exact Or.inl ⟨rest, rfl⟩

section Heads

variable {frontier : Frontier} {limit count : ℕ} {state : State Frontier}
  {tracker : ProgressTracker}

namespace Watched

variable {middle : List Event} {status : Status} {found : List Solution} {finds : List Find}

/-- The report is the last of the events. -/
theorem events_eq (watched : Watched plan node { before with frontier } after middle status found
    finds) : after.events = before.events ++ middle ++ [.nodeProcessed { node with status }
      after.lowerBound after.upperBound after.solutions.best? found] :=
  watched.chronicle.trans (List.append_assoc ..).symm

/-- The report creates no node and processes one. -/
theorem counts
    (watched : Watched plan node { before with frontier } after middle status found finds) :
    createdIn after.events = createdIn (before.events ++ middle) ∧
      (processedIn after.events).length = (processedIn (before.events ++ middle)).length + 1 := by
  rw [watched.events_eq, createdIn_append (before.events ++ middle),
    processedIn_append (before.events ++ middle), List.length_append]
  exact ⟨List.append_nil _, rfl⟩

/-- Through a turn, a tracker follows the search to the report. -/
theorem observeAll {earlier : ProgressTracker}
    (watched : Watched plan node { before with frontier } after middle status found finds)
    (outcome : earlier.observeAll before.events = .ok tracker) (tracks : Tracks tracker before) :
    earlier.observeAll after.events = .ok {
      nodes := (createdIn (before.events ++ middle)).length
      iterations := (processedIn (before.events ++ middle)).length + 1
      lower := after.lowerBound
      upper := after.upperBound
      found := matching finds } := by
  have chronicle : after.events = before.events ++ _ := watched.chronicle
  rw [chronicle, ProgressTracker.observeAll_append_of_ok outcome,
    ProgressTracker.observeAll_append_of_ok (watched.held tracker), createdIn_append,
    processedIn_append, watched.quiet, List.append_nil, List.length_append, ← tracks.nodes,
    ← tracks.iterations, tracks.idle]
  rfl

end Watched

/-- Between two heads, a tracker watches the turn of a node. -/
theorem Head.exists_watched {rest : Frontier} (builtIn : plan.BuiltIn)
    (head : Head plan limit (.initial plan frontier) count before)
    (next : before.frontier.next? = some (node, rest))
    (processes : process plan node { before with frontier := rest } = .ok () after) :
    ∃ middle status found finds,
      Watched plan node { before with frontier := rest } after middle status found finds := by
  obtain ⟨-, -, -, turn⟩ := head.exists_turn builtIn.tame next processes
  have lawful := (head.covered builtIn.tame
    (SolutionSet.lawful_empty plan.inst plan.config.keepAll)).lawful
  exact turn.exists_watched lawful

/-- Whatever a tracker had observed before, at a head it shows how far the search has come. -/
theorem Head.exists_tracker (builtIn : plan.BuiltIn)
    (head : Head plan limit (.initial plan frontier) count state) (earlier : ProgressTracker) :
    ∃ tracker, earlier.observeAll state.events = .ok tracker ∧ Tracks tracker state := by
  induction head with
  | root announces plants =>
    obtain ⟨root, -, rfl⟩ := exists_planted builtIn.tame announces plants
    have events := State.events_opening plan frontier limit root
    refine ⟨{ nodes := 1 }, by rw [events]; rfl, rfl, ?_, ?_, fun some => absurd rfl some⟩ <;>
      rw [events] <;> rfl
  | @turn count before after node rest head within unsettled next processes ih =>
    obtain ⟨tracker, outcome, tracks⟩ := ih
    obtain ⟨middle, status, found, finds, watched⟩ := head.exists_watched builtIn next processes
    obtain ⟨created, processed⟩ := watched.counts
    exact ⟨_, watched.observeAll outcome tracks, rfl, congrArg List.length created.symm,
      processed.symm, fun _ => ⟨rfl, rfl⟩⟩

/-- Whatever a tracker had observed before, it mirrors all reports up to a head. -/
theorem Head.mirrored (builtIn : plan.BuiltIn)
    (head : Head plan limit (.initial plan frontier) count state) (earlier : ProgressTracker) :
    Mirrored plan limit (.initial plan frontier) earlier state.events := by
  induction head with
  | root announces plants =>
    obtain ⟨root, -, rfl⟩ := exists_planted builtIn.tame announces plants
    intro seen node lower upper incumbent? found later same
    have member : node ∈ processedIn [.searchStarted plan.inst, .nodeCreated root] := by
      rw [← State.events_opening plan frontier limit root, same, processedIn_append]
      exact List.mem_append_right _ (List.mem_cons_self ..)
    exact nomatch member
  | @turn count before after node rest head within unsettled next processes ih =>
    obtain ⟨middle, status, list, finds, watched⟩ := head.exists_watched builtIn next processes
    intro seen reported lower upper incumbent? found later same
    have chronicle : after.events = before.events ++ _ := watched.chronicle
    rw [chronicle] at same
    rcases report_cases watched.quiet rfl same with ⟨rest, earlierOne⟩ | ⟨rfl, last⟩
    · exact ih seen reported lower upper incumbent? found rest earlierOne
    · obtain ⟨tracker, outcome, tracks⟩ := head.exists_tracker builtIn earlier
      have follows := watched.observeAll outcome tracks
      rw [watched.events_eq] at follows
      cases last
      have turns : (processedIn (before.events ++ middle)).length = count := by
        rw [processedIn_append, watched.quiet, List.append_nil]
        exact (head.census builtIn).processed
      exact ⟨node, _, finds, Reports.intro (turns.symm ▸ head) next processes watched.events_eq, rfl,
        watched.yields, follows⟩

private theorem Head.upperBound_eq (builtIn : plan.BuiltIn)
    (head : Head plan limit (.initial plan frontier) count state)
    (stops : state.frontier.queue = [] ∨ 0 < count ∧ state.Settled) :
    state.upperBound = state.lowerBound := by
  obtain ⟨root, -, ledger⟩ := head.ledger builtIn.tame
  rcases stops with nothing | ⟨-, settled⟩
  · rw [ledger.current, State.openBound_eq, Frontier.upperBound, nothing]
    exact max_eq_right (Bound.negInfinity_le _)
  · refine le_antisymm settled ?_
    rw [ledger.current]
    exact le_max_right _ _

end Heads

/-- What a tracker knows at the end of a search, whatever it had observed before: all nodes are
counted, and unless none was processed, the bounds are those of the search. -/
def Settles (earlier : ProgressTracker) (last : State Frontier) : Prop :=
  ∃ tracker, earlier.observeAll last.events = .ok tracker ∧
    tracker.nodes = last.statistics.nodesCreated ∧
    tracker.iterations = last.statistics.iterations ∧
    (last.statistics.iterations ≠ 0 →
      tracker.lower = last.lowerBound ∧ tracker.upper = last.upperBound)

section Ends

variable {frontier : Frontier} {limit count : ℕ} {state last : State Frontier}
  {statistics : Statistics}

private theorem Head.tracked (builtIn : plan.BuiltIn)
    (head : Head plan limit (.initial plan frontier) count state) (earlier : ProgressTracker)
    (ended : last.events = state.events ++ [.searchEnded statistics])
    (created : last.statistics.nodesCreated = state.tree.created)
    (counted : last.statistics.iterations = state.statistics.iterations)
    (lower : last.lowerBound = state.lowerBound)
    (upper : last.upperBound = state.upperBound) :
    Mirrored plan limit (.initial plan frontier) earlier last.events ∧ Settles earlier last := by
  have census := head.census builtIn
  constructor
  · intro seen node low high incumbent? found later same
    have split : state.events ++ ([] ++ [Event.searchEnded statistics]) =
        seen ++ .nodeProcessed node low high incumbent? found :: later := ended.symm.trans same
    rcases report_cases rfl rfl split with ⟨rest, inside⟩ | ⟨-, absurd⟩
    · exact head.mirrored builtIn earlier seen node low high incumbent? found rest inside
    · cases absurd
  · obtain ⟨tracker, outcome, tracks⟩ := head.exists_tracker builtIn earlier
    have turns : tracker.iterations = last.statistics.iterations := by
      rw [tracks.iterations, census.processed, counted, census.iterations]
    refine ⟨tracker, ?_, ?_, turns, ?_⟩
    · rw [ended]
      exact ProgressTracker.observeAll_append_of_ok outcome _
    · rw [tracks.nodes, length_eq_of_numbered census.numbered, created]
    · rw [← turns, lower, upper]
      exact tracks.bounds

end Ends

/-- Under any ranking and any budget, and whatever a tracker had observed before, it mirrors every
report of a search, and in the end it agrees with the search. -/
theorem tracker_mirrors_search (builtIn : plan.BuiltIn) (frontier : Frontier) (limit : ℕ)
    (earlier : ProgressTracker) :
    match search plan limit (.initial plan frontier) with
    | .ok _ last | .error (.error _) last =>
      Mirrored plan limit (.initial plan frontier) earlier last.events ∧ Settles earlier last
    | .error (.defect _) _ => 2 ^ 64 ≤ plan.inst.size := by
  let mirrored (last : State Frontier) : Prop :=
    Mirrored plan limit (.initial plan frontier) earlier last.events ∧ Settles earlier last
  refine search_leaves mirrored mirrored builtIn ?_ ?_
  · rintro last ⟨count, head, stops⟩
    exact head.tracked builtIn earlier State.events_completed rfl rfl rfl
      (head.upperBound_eq builtIn stops).symm
  · rintro last ⟨head, -⟩
    exact head.tracked builtIn earlier (State.events_interrupted limit) rfl rfl rfl rfl

theorem tracker_mirrors_search_tight : Plan.tight.BuiltIn ∧
    ∃ best? last, search .tight 15 (.initial .tight (.empty .bestBound)) = .ok best? last ∧
      Mirrored .tight 15 (.initial .tight (.empty .bestBound)) { nodes := 7 } last.events ∧
        Settles { nodes := 7 } last := by
  obtain ⟨best?, last, answers⟩ := tight_isOk (.empty .bestBound)
  have mirrors := tracker_mirrors_search Plan.tight_builtIn (.empty .bestBound) 15 { nodes := 7 }
  rw [answers] at mirrors
  exact ⟨Plan.tight_builtIn, best?, last, answers, mirrors⟩

end Search

end Knapsack

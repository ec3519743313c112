import Knapsack.Proofs.Search.Lockstep
import Knapsack.Proofs.Search.Termination

/-! # A budget only cuts a search short

The budget of a search has no influence on what the search does as long as it lasts: it is announced
in a notice, and otherwise only looked at between two nodes. So every head of one search is, but for
that notice, a head of the same search with any other budget that gets there. A search whose budget
covers its nodes is the same whatever the budget, and a smaller budget leaves the search exactly
where it was after that many nodes.
-/

namespace Knapsack.Search

variable {plan : Plan} {frontier : Frontier} {limit ample count : ℕ} {start state : State Frontier}

namespace State

/-- A state with an older journal in front of its own. -/
def preceded (state : State Frontier) (past : Array JournalEntry) : State Frontier :=
  { state with journal := past ++ state.journal }

theorem events_preceded (state : State Frontier) (past : Array JournalEntry) :
    (state.preceded past).events = past.toList.filterMap (·.event?) ++ state.events := by
  simp [events, preceded]

/-- Two states that differ at most in the notices that were told. -/
def Agrees (a b : State Frontier) : Prop :=
  a.events = b.events ∧ { a with journal := b.journal } = b

/-- A search that was announced but whose journal was taken away. -/
def quiet (start : State Frontier) : State Frontier :=
  { start with phase := .running, journal := #[] }

theorem announced_eq_preceded (start : State Frontier) (plan : Plan) (limit : ℕ) :
    start.announced plan limit = start.quiet.preceded (start.announced plan limit).journal := by
  simp [quiet, announced, preceded]

/-- The announcement of a budget is a notice. -/
theorem events_announced_journal (start : State Frontier) (plan : Plan) (limit other : ℕ) :
    (start.announced plan limit).journal.toList.filterMap (·.event?) =
      (start.announced plan other).journal.toList.filterMap (·.event?) :=
  (events_announced plan limit).trans (events_announced plan other).symm

end State

section Past

open Step (Matches)

variable {past other : Array JournalEntry}

/-- Searches that differ at most in what was written before they began. -/
def Kinship.ofPasts (past other : Array JournalEntry) : Kinship Frontier Frontier where
  __ := Kinship.ofTwins (Frontier.twins_self fun _ => True)
  written left right := ∃ later, left = past ++ later ∧ right = other ++ later
  push := by
    rintro _ _ entry ⟨later, rfl, rfl⟩
    exact ⟨later.push entry, Array.append_push.symm, Array.append_push.symm⟩

/-- A step that came out with one past comes out with another one. -/
theorem Step.Matches.exists_of_ok {α : Type} {step : Step Frontier α}
    {before after : State Frontier} {result : α}
    (unnoticed : Matches (State.Kin (.ofPasts past other)) step step)
    (outcome : step (before.preceded past) = .ok result after) : ∃ bare : State Frontier,
      after = bare.preceded past ∧
        step (before.preceded other) = .ok result (bare.preceded other) := by
  have abreast := unnoticed (before.preceded past) (before.preceded other)
    (.intro ⟨rfl, fun _ _ => trivial⟩ rfl ⟨before.journal, rfl, rfl⟩)
  rw [outcome] at abreast
  generalize step (before.preceded other) = there at abreast ⊢
  cases abreast with
  | ok kin =>
    obtain ⟨⟨rfl, -⟩, rfl, later, written, rfl⟩ := kin
    refine ⟨{ after with journal := later }, ?_, rfl⟩
    rw [State.preceded, ← written]

/-- What was written before makes no difference to any strategy. -/
theorem Plan.tolerates_pasts (plan : Plan) :
    plan.Tolerates plan.branching (Kinship.ofPasts past other) :=
  plan.tolerates_itself (fun _ => trivial) rfl

end Past

/-- A head is a head under every other budget that gets there. -/
theorem Head.exists_preceded {other : ℕ} (head : Head plan limit start count state)
    (within : count ≤ other) : ∃ bare : State Frontier,
    state = bare.preceded (start.announced plan limit).journal ∧
      Head plan other start count (bare.preceded (start.announced plan other).journal) := by
  induction head with
  | root announces plants =>
    rw [announce_eq] at announces
    cases announces
    rw [State.announced_eq_preceded] at plants
    obtain ⟨bare, rfl, also⟩ := (matches_plant plan.tolerates_pasts).exists_of_ok plants
    refine ⟨bare, rfl, Head.root (announce_eq plan other start) ?_⟩
    rw [State.announced_eq_preceded]
    exact also
  | @turn count before after node rest head _ unsettled next processes ih =>
    obtain ⟨bare, rfl, also⟩ := ih (Nat.le_of_succ_le within)
    change process plan node (State.preceded { bare with frontier := rest } _) = _ at processes
    obtain ⟨later, rfl, processesToo⟩ :=
      (matches_process plan.tolerates_pasts trivial).exists_of_ok processes
    exact ⟨later, rfl, also.turn within unsettled next processesToo⟩

/-- The search came by a head for every smaller number of nodes. -/
theorem Head.exists_earlier {excuse : Failure → Prop} (tame : plan.Tame excuse) {fewer : ℕ}
    (head : Head plan limit start count state) (less : fewer < count) : ∃ point,
    Head plan limit start fewer point ∧ point.frontier.queue ≠ [] ∧
      (fewer = 0 ∨ ¬ point.Settled) ∧ point.events <+: state.events := by
  induction head with
  | root _ _ => exact absurd less (Nat.not_lt_zero _)
  | @turn count before after node rest head _ unsettled next processes ih =>
    obtain ⟨queue, -, -, turn⟩ := head.exists_turn tame next processes
    obtain ⟨discoveries, children, status, found, events, -⟩ := turn.exists_events
    have grows : before.events <+: after.events := events ▸ List.prefix_append _ _
    rcases Nat.lt_succ_iff_lt_or_eq.mp less with earlier | rfl
    · obtain ⟨point, isHead, present, goesOn, begins⟩ := ih earlier
      exact ⟨point, isHead, present, goesOn, begins.trans grows⟩
    · exact ⟨before, head, queue ▸ List.cons_ne_nil _ _, unsettled, grows⟩

/-- Where a search with enough budget was after some number of nodes: its events up to the
processing of the last of them or, before any, up to the creation of the root. -/
structure Passes (plan : Plan) (ample : ℕ) (start full : State Frontier) (count : ℕ)
    (point : State Frontier) : Prop where
  head : Head plan ample start count point
  begins : point.events <+: full.events
  processed : (processedIn point.events).length = count
  opens : count = 0 → ∃ root, point.events = [.searchStarted plan.inst, .nodeCreated root]
  closes : 0 < count → ∃ event, point.events.getLast? = some event ∧ event.processed?.isSome = true

/-- A search that was interrupted at a point. Counting the nodes in the statistics is left to the
end of the search. -/
structure CutShort (limit : ℕ) (point last : State Frontier) : Prop where
  frontier : last.frontier = point.frontier
  solutions : last.solutions = point.solutions
  tree : last.tree = point.tree
  upperBound : last.upperBound = point.upperBound
  statistics : last.statistics = { point.statistics with nodesCreated := point.tree.created }
  failure : last.failure? = some (.iterationLimitExceeded limit)
  events : last.events = point.events ++ [.searchEnded last.statistics]

/-- Before the first node is processed, the root was created. -/
theorem Head.opens (builtIn : plan.BuiltIn)
    (head : Head plan ample (.initial plan frontier) 0 state) :
    ∃ root, state.events = [.searchStarted plan.inst, .nodeCreated root] := by
  cases head with
  | root announces plants =>
    obtain ⟨root, -, rfl⟩ := exists_planted builtIn.tame announces plants
    exact ⟨root, State.events_opening plan frontier ample root⟩

/-- The last event at a later head is the processing of a node. -/
theorem Head.closes (builtIn : plan.BuiltIn)
    (head : Head plan ample (.initial plan frontier) (count + 1) state) :
    ∃ event, state.events.getLast? = some event ∧ event.processed?.isSome = true := by
  cases head with
  | turn head _ _ next processes =>
    obtain ⟨-, -, children, events, advance⟩ := head.exists_advance builtIn next processes
    obtain ⟨event, last, closes⟩ := advance.block.exists_getLast?
    refine ⟨event, ?_, closes⟩
    rw [advance.chronicle, List.getLast?_append, last, Option.some_or]

/-- A head on the way of a search is a point that the search passes. -/
theorem Head.passes (builtIn : plan.BuiltIn) {full : State Frontier}
    (head : Head plan ample (.initial plan frontier) count state)
    (begins : state.events <+: full.events) :
    Passes plan ample (.initial plan frontier) full count state := by
  refine ⟨head, begins, (head.census builtIn).processed, ?_, ?_⟩
  · rintro rfl
    exact head.opens builtIn
  · intro positive
    obtain ⟨earlier, rfl⟩ := Nat.exists_eq_add_one_of_ne_zero positive.ne'
    exact head.closes builtIn

/-- A search that comes out does so at a head, and its statistics count the nodes up to there. -/
theorem exists_over_of_ok (builtIn : plan.BuiltIn) {best? : Option Solution} {full : State Frontier}
    (answers : search plan ample (.initial plan frontier) = .ok best? full) :
    ∃ last, Head plan ample (.initial plan frontier) full.statistics.iterations last ∧
      (last.frontier.queue = [] ∨ 0 < full.statistics.iterations ∧ last.Settled) ∧
        best? = last.solutions.best? ∧ full = last.completed := by
  have report := builtIn.report ample frontier
  rw [answers] at report
  cases report with
  | @completed last isOver =>
    obtain ⟨count, head, stopped⟩ := isOver
    obtain rfl : last.completed.statistics.iterations = count := (head.census builtIn).iterations
    exact ⟨last, head, stopped, rfl, rfl⟩

/-- A search comes out in the same way under every budget that covers its nodes. -/
theorem Head.search_eq_of_over {last : State Frontier} {other : ℕ}
    (head : Head plan ample (.initial plan frontier) count last)
    (stopped : last.frontier.queue = [] ∨ 0 < count ∧ last.Settled) (within : count ≤ other) :
    ∃ again, search plan other (.initial plan frontier) = .ok last.solutions.best? again ∧
      again.Agrees last.completed := by
  obtain ⟨bare, rfl, also⟩ := head.exists_preceded within
  have isOver : Over plan other (.initial plan frontier) _ := ⟨count, also, stopped⟩
  have answers := isOver.search_eq State.initial_unfinished
  refine ⟨_, answers, ?_, rfl⟩
  rw [State.events_completed, State.events_completed, State.events_preceded, State.events_preceded,
    State.events_announced_journal _ plan other ample]
  rfl

/-- A search is interrupted by every smaller budget, at the head where that budget is used up. -/
theorem Head.search_eq_of_less (builtIn : plan.BuiltIn) {full : State Frontier} {fewer : ℕ}
    (head : Head plan ample (.initial plan frontier) count state)
    (begins : state.events <+: full.events) (less : fewer < count) : ∃ last point,
    search plan fewer (.initial plan frontier) =
      .error (.error (.iterationLimitExceeded fewer)) last ∧
    Passes plan ample (.initial plan frontier) full fewer point ∧ CutShort fewer point last := by
  obtain ⟨point, isPoint, present, unsettled, earlier⟩ := head.exists_earlier builtIn.tame less
  obtain ⟨bare, rfl, also⟩ := isPoint.exists_preceded (Nat.le_refl fewer)
  have exhausted : Exhausted plan fewer (.initial plan frontier) _ := ⟨also, present, unsettled⟩
  refine ⟨_, _, exhausted.search_eq State.initial_unfinished,
    isPoint.passes builtIn (earlier.trans begins), rfl, rfl, rfl, rfl, rfl, rfl, ?_⟩
  rw [State.events_interrupted, State.events_preceded, State.events_preceded,
    State.events_announced_journal _ plan fewer ample]
  rfl

/-- How a search that comes out goes under other budgets. A budget that covers the nodes that it
processes makes no difference, also when the last of them uses up the budget. Under a smaller budget
the search is interrupted after exactly that many nodes. -/
structure Budgeted (plan : Plan) (frontier : Frontier) (ample : ℕ) (best? : Option Solution)
    (full : State Frontier) : Prop where
  processed : (processedIn full.events).length = full.statistics.iterations
  covered : ∀ limit, full.statistics.iterations ≤ limit → ∃ last,
    search plan limit (.initial plan frontier) = .ok best? last ∧ last.Agrees full
  cut : ∀ limit, limit < full.statistics.iterations → ∃ last point,
    search plan limit (.initial plan frontier) =
      .error (.error (.iterationLimitExceeded limit)) last ∧
    Passes plan ample (.initial plan frontier) full limit point ∧ CutShort limit point last

/-- Some search comes out, and what comes out does not depend on the budget, which only decides how
much of the search takes place. -/
theorem budget_only_cuts (builtIn : plan.BuiltIn) (frontier : Frontier) :
    (plan.inst.size < 2 ^ 64 →
      ∃ ample best? full, search plan ample (.initial plan frontier) = .ok best? full) ∧
    ∀ ample best? full, search plan ample (.initial plan frontier) = .ok best? full →
      Budgeted plan frontier ample best? full := by
  refine ⟨fun few => ⟨_, search_isOk_of_budget builtIn few frontier (Nat.le_refl _)⟩,
    fun ample best? full answers => ?_⟩
  obtain ⟨last, head, stopped, rfl, same⟩ := exists_over_of_ok builtIn answers
  have ends : full.events = last.events ++ [.searchEnded _] := same ▸ State.events_completed
  refine ⟨?_, fun limit within => ?_, fun limit less => ?_⟩
  · rw [ends, processedIn_append, List.length_append, (head.census builtIn).processed]
    rfl
  · rw [same]
    exact head.search_eq_of_over stopped within
  · exact head.search_eq_of_less builtIn (ends ▸ List.prefix_append _ _) less

theorem budget_only_cuts_tight : Plan.tight.BuiltIn ∧ Plan.tight.inst.size < 2 ^ 64 ∧
    ∃ ample best? full, search .tight ample (.initial .tight (.empty .bestBound)) = .ok best? full ∧
      0 < full.statistics.iterations ∧ Budgeted .tight (.empty .bestBound) ample best? full := by
  have few : Plan.tight.inst.size < 2 ^ 64 := by decide
  obtain ⟨comesOut, law⟩ := budget_only_cuts Plan.tight_builtIn (.empty .bestBound)
  obtain ⟨ample, best?, full, answers⟩ := comesOut few
  have budgeted := law ample best? full answers
  obtain ⟨node, processed, -⟩ := tight_branches answers
  exact ⟨Plan.tight_builtIn, few, ample, best?, full, answers,
    budgeted.processed ▸ List.length_pos_of_mem processed, budgeted⟩

end Knapsack.Search

import Knapsack.Proofs.Search.Chronicle
import Knapsack.Proofs.Search.Termination

/-! # Any number of calls

A search can be called in two ways, and any number of times. The first call explores, whichever way
it is made. Every later call finds the search finished: it repeats what came of that exploration and
leaves the whole state as it is, so a larger limit never turns an interrupted search into an exact
one, and nothing more is reported to the observers.
-/

namespace Knapsack.Search

/-- The ways to call a search. -/
inductive Call where
  | searching (limit : ℕ)
  | maximizing

/-- What a caller gets back. -/
inductive Answer where
  | searched (outcome : Except Error (Option Solution))
  | maximized (outcome : Except Error Completion)

/-- A step whose errors are handed to the caller; a defect goes on. -/
def Step.attempt {α : Type} (step : Step Frontier α) : Step Frontier (Except Error α) :=
  tryCatch (do return .ok (← step)) fun
    | .error error => return .error error
    | .defect defect => throw (.defect defect)

namespace Call

/-- Makes a call. -/
def make (plan : Plan) : Call → Step Frontier Answer
  | .searching limit => do return .searched (← (search plan limit).attempt)
  | .maximizing => do return .maximized (← (maximize plan).attempt)

/-- The limit within which a call would explore. -/
def limit (plan : Plan) : Call → ℕ
  | .searching limit => limit
  | .maximizing => plan.config.iterationLimit

/-- The answer to a call, given what came of the exploration: a search repeats it, and a
maximization tells whether it was completed and the value of the incumbent. -/
def reply (outcome : Except Error (Option Solution)) (last : State Frontier) : Call → Answer
  | .searching _ => .searched outcome
  | .maximizing => .maximized (.ok ⟨outcome.isOk, last.solutions.bestValue?⟩)

end Call

/-- What comes of an exploration, and the state that it leaves behind. -/
inductive Explores (plan : Plan) (frontier : Frontier) (limit : ℕ) :
    Except Error (Option Solution) → State Frontier → Prop
  | completed {head : State Frontier} (isOver : Over plan limit (.initial plan frontier) head) :
      Explores plan frontier limit (.ok head.solutions.best?) head.completed
  | interrupted {head : State Frontier}
      (exhausted : Exhausted plan limit (.initial plan frontier) head) :
      Explores plan frontier limit (.error (.iterationLimitExceeded limit)) (head.interrupted limit)

/-- The events that mark the start and the end of an exploration. -/
def Event.isMark : Event → Bool
  | .searchStarted _ | .searchEnded _ => true
  | _ => false

section Attempt

variable {plan : Plan} {before : State Frontier}

theorem Step.attempt_apply {α : Type} (step : Step Frontier α) (before : State Frontier) :
    step.attempt before = match step before with
      | .ok result after => .ok (.ok result) after
      | .error (.error error) after => .ok (.error error) after
      | .error (.defect defect) after => .error (.defect defect) after := by
  unfold attempt
  rw [Step.tryCatch_apply, Step.bind_apply]
  cases step before with
  | ok result after => rfl
  | error failure after => cases failure <;> rfl

theorem Call.make_search (limit : ℕ) : (Call.searching limit).make plan before =
    match search plan limit before with
      | .ok best? after => .ok (.searched (.ok best?)) after
      | .error (.error error) after => .ok (.searched (.error error)) after
      | .error (.defect defect) after => .error (.defect defect) after := by
  rw [Call.make, Step.bind_apply, Step.attempt_apply]
  cases search plan limit before with
  | ok best? after => rfl
  | error failure after => cases failure <;> rfl

theorem Call.make_maximize : Call.maximizing.make plan before =
    match search plan plan.config.iterationLimit before with
      | .ok _ after | .error (.error (.iterationLimitExceeded _)) after =>
        .ok (.maximized (.ok ⟨after.failure?.isNone, after.solutions.bestValue?⟩)) after
      | .error (.error error) after => .ok (.maximized (.error error)) after
      | .error (.defect defect) after => .error (.defect defect) after := by
  rw [Call.make, Step.bind_apply, Step.attempt_apply, maximize_apply]
  cases search plan plan.config.iterationLimit before with
  | ok best? after => rfl
  | error failure after =>
    cases failure with
    | defect defect => rfl
    | error error => cases error <;> rfl

end Attempt

variable {plan : Plan} {frontier : Frontier} {limit : ℕ} {state last : State Frontier}
  {outcome : Except Error (Option Solution)}

theorem Explores.finished (explores : Explores plan frontier limit outcome last) :
    last.phase = .finished := by
  cases explores <;> rfl

/-- After an exploration every search repeats its outcome, whatever its limit. -/
theorem Explores.search_eq (explores : Explores plan frontier limit outcome last) (other : ℕ) :
    search plan other last = match outcome with
      | .ok best? => .ok best? last
      | .error error => .error (.error error) last := by
  rw [search_again explores.finished]
  cases explores <;> rfl

/-- After an exploration a call is answered from the state, which stays as it is. -/
theorem Explores.make_eq (explores : Explores plan frontier limit outcome last) (call : Call) :
    call.make plan last = .ok (call.reply outcome last) last := by
  cases call with
  | searching other =>
    rw [Call.make_search, explores.search_eq]
    cases outcome <;> rfl
  | maximizing =>
    rw [Call.make_maximize, explores.search_eq]
    cases explores <;> rfl

/-- So are any number of calls, one after the other. -/
theorem Explores.mapM_make_eq (explores : Explores plan frontier limit outcome last)
    (calls : List Call) :
    calls.mapM (·.make plan) last = .ok (calls.map (·.reply outcome last)) last := by
  induction calls with
  | nil => rfl
  | cons call rest ih =>
    rw [List.mapM_cons, Step.bind_apply, explores.make_eq call]
    simp only [Step.bind_apply, ih]
    rfl

/-- A first search explores, unless it breaks down. -/
theorem search_explores (builtIn : plan.BuiltIn) (frontier : Frontier) (limit : ℕ) :
    match search plan limit (.initial plan frontier) with
    | .ok best? last => Explores plan frontier limit (.ok best?) last
    | .error (.error error) last => Explores plan frontier limit (.error error) last
    | .error (.defect _) _ => 2 ^ 64 ≤ plan.inst.size := by
  have report := builtIn.report limit frontier
  generalize search plan limit (.initial plan frontier) = result at report ⊢
  cases report with
  | completed isOver => exact Explores.completed isOver
  | interrupted exhausted => exact Explores.interrupted exhausted
  | failed excused =>
    obtain ⟨many, defect, rfl⟩ := excused
    exact many

/-- The first call explores within its limit, and its answer is read off what comes of that. -/
theorem Call.make_initial (builtIn : plan.BuiltIn) (frontier : Frontier) (call : Call) :
    match call.make plan (.initial plan frontier) with
    | .ok answer last => ∃ outcome, Explores plan frontier (call.limit plan) outcome last ∧
        answer = call.reply outcome last
    | .error failure _ => 2 ^ 64 ≤ plan.inst.size ∧ ∃ defect, failure = .defect defect := by
  have explores := search_explores builtIn frontier (call.limit plan)
  cases call with
  | searching limit =>
    rw [Call.make_search]
    rw [Call.limit] at explores
    generalize search plan limit (.initial plan frontier) = result at explores ⊢
    match result with
    | .ok best? last => exact ⟨.ok best?, explores, rfl⟩
    | .error (.error error) last => exact ⟨.error error, explores, rfl⟩
    | .error (.defect defect) last => exact ⟨explores, defect, rfl⟩
  | maximizing =>
    rw [Call.make_maximize]
    rw [Call.limit] at explores
    generalize search plan plan.config.iterationLimit (.initial plan frontier) = result
      at explores ⊢
    match result with
    | .ok best? last =>
      refine ⟨.ok best?, explores, ?_⟩
      cases explores
      rfl
    | .error (.error error) last =>
      -- An exploration is interrupted by its limit alone, which a maximization puts up with.
      cases explores with
      | interrupted exhausted => exact ⟨_, Explores.interrupted exhausted, rfl⟩
    | .error (.defect defect) last => exact ⟨explores, defect, rfl⟩

/-- Up to a head only the start was marked. -/
theorem Head.marks {excuse : Failure → Prop} {count : ℕ} (tame : plan.Tame excuse)
    (head : Head plan limit (.initial plan frontier) count state) :
    state.events.filter (·.isMark) = [.searchStarted plan.inst] := by
  refine head.invariant tame
    (fun _ state => state.events.filter (·.isMark) = [.searchStarted plan.inst]) ?_ ?_
  · intro root _ _
    rw [State.events_opening]
    rfl
  · intro count before node rest after marks _ _ _ _ _ turn
    obtain ⟨discoveries, children, status, found, events, -, discovered, -⟩ := turn.exists_events
    have silent : discoveries.filter (·.isMark) = [] := by
      apply List.filter_eq_nil_iff.mpr
      intro event member
      obtain ⟨solution, incumbent, rfl, -⟩ := discovered event member
      exact Bool.false_ne_true
    have born : (children.map Event.nodeCreated).filter (·.isMark) = [] := by
      apply List.filter_eq_nil_iff.mpr
      intro event member
      obtain ⟨child, -, rfl⟩ := List.mem_map.mp member
      exact Bool.false_ne_true
    rw [events, List.filter_append, List.filter_append, List.filter_append, silent, born]
    exact (List.append_nil _).trans marks

/-- An exploration marks its start and its end once each. -/
theorem Explores.marks (builtIn : plan.BuiltIn)
    (explores : Explores plan frontier limit outcome last) :
    last.events.filter (·.isMark) = [.searchStarted plan.inst, .searchEnded last.statistics] := by
  cases explores with
  | completed isOver =>
    obtain ⟨count, head, -⟩ := isOver
    rw [State.events_completed, List.filter_append, head.marks builtIn.tame]
    rfl
  | interrupted exhausted =>
    rw [State.events_interrupted, List.filter_append, exhausted.1.marks builtIn.tame]
    rfl

/-- A search explores once, in its first call, whichever way it is called and however often. The
exploration marks its start and its end once each and finishes the search. It is completed or
interrupted within the limit of that call, every later call repeats what came of it, whatever the
limit asked for then, and none of them changes anything in the state. -/
theorem first_call_alone_explores (builtIn : plan.BuiltIn) (frontier : Frontier) (first : Call) :
    (State.initial plan frontier).phase = .notStarted ∧
    match first.make plan (.initial plan frontier) with
    | .ok answer last => last.phase = .finished ∧
        last.events.filter (·.isMark) = [.searchStarted plan.inst, .searchEnded last.statistics] ∧
          ∃ outcome, Explores plan frontier (first.limit plan) outcome last ∧
            answer = first.reply outcome last ∧ ∀ later : List Call,
              later.mapM (·.make plan) last = .ok (later.map (·.reply outcome last)) last
    | .error failure _ => 2 ^ 64 ≤ plan.inst.size ∧ ∃ defect, failure = .defect defect := by
  refine ⟨rfl, ?_⟩
  have made := Call.make_initial builtIn frontier first
  generalize first.make plan (.initial plan frontier) = result at made ⊢
  cases result with
  | error failure _ => exact made
  | ok answer last =>
    obtain ⟨outcome, explores, rfl⟩ := made
    exact ⟨explores.finished, explores.marks builtIn, outcome, explores, rfl,
      explores.mapM_make_eq⟩

/-- A search without a budget stays interrupted, even when more than enough is allowed later. -/
theorem first_call_alone_explores_tight : Plan.tight.BuiltIn ∧ ∃ last,
    (Call.searching 0).make .tight (.initial .tight (.empty .depthFirst)) =
      .ok (.searched (.error (.iterationLimitExceeded 0))) last ∧
    [Call.maximizing, .searching 15].mapM (·.make .tight) last =
      .ok [.maximized (.ok ⟨false, last.solutions.bestValue?⟩),
        .searched (.error (.iterationLimitExceeded 0))] last := by
  obtain ⟨-, explored⟩ :=
    first_call_alone_explores Plan.tight_builtIn (.empty .depthFirst) (.searching 0)
  refine ⟨Plan.tight_builtIn, ?_⟩
  split at explored
  · rename_i answer last made
    obtain ⟨-, -, outcome, explores, rfl, later⟩ := explored
    cases explores with
    | completed isOver => exact absurd (isOver.limit_pos Plan.tight_builtIn.tame) (lt_irrefl 0)
    | interrupted exhausted => exact ⟨_, made, later _⟩
  · exact absurd explored.1 (by decide)

end Knapsack.Search

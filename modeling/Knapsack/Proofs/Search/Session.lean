import Knapsack.Proofs.Search.Head

/-! # Calls of a search

The first call of a search goes through the heads of its loop and ends at one of them, unless it
fails with an excuse. Later calls repeat its outcome and leave the state as it is, so every state of
a session is the initial one or the end of its first call.
-/

namespace Knapsack.Search

variable {plan : Plan} {excuse : Failure → Prop} {limit : ℕ} {frontier : Frontier}
  {start state : State Frontier}

namespace State

/-- After a search was declared finished, with the error that interrupted it, if any. -/
def ended (state : State Frontier) (failure? : Option Error) : State Frontier :=
  let closed := { state with
    phase := .finished
    failure?
    statistics.nodesCreated := state.tree.created }
  { closed with
    journal := (closed.journal.push (.event (.searchEnded closed.statistics))).push
      (.notice (.finished closed.statistics)) }

/-- The end of a search that is over at a head. -/
def completed (last : State Frontier) : State Frontier :=
  { last with upperBound := last.lowerBound }.ended none

/-- The end of a search whose budget is used up at a head. -/
def interrupted (last : State Frontier) (limit : ℕ) : State Frontier :=
  (last.reached limit).ended (some (.iterationLimitExceeded limit))

/-- A new search was not run yet. -/
theorem initial_unfinished {φ : Type} {frontier : φ} :
    (State.initial plan frontier).phase ≠ .finished := nofun

end State

/-- How the first call of a search ends. -/
inductive Report (plan : Plan) (excuse : Failure → Prop) (limit : ℕ) (start : State Frontier) :
    EStateM.Result Failure (State Frontier) (Option Solution) → Prop
  | completed {last : State Frontier} (isOver : Over plan limit start last) :
      Report plan excuse limit start (.ok last.solutions.best? last.completed)
  | interrupted {last : State Frontier} (exhausted : Exhausted plan limit start last) :
      Report plan excuse limit start
        (.error (.error (.iterationLimitExceeded limit)) (last.interrupted limit))
  | failed {failure : Failure} {after : State Frontier} (excused : excuse failure) :
      Report plan excuse limit start (.error failure after)

private theorem explore_apply (plan : Plan) (limit : ℕ) (before : State Frontier) :
    explore plan limit before = match plant plan before with
      | .ok _ planted => match loop plan limit limit planted with
        | .ok _ last => .ok () { last with upperBound := last.lowerBound }
        | .error failure last => .error failure last
      | .error failure after => .error failure after := by
  unfold explore
  rw [Step.bind_apply]
  cases plant plan before with
  | error failure after => rfl
  | ok _ planted =>
    simp only [Step.bind_apply]
    cases loop plan limit limit planted <;> rfl

/-- A search that was not run yet ends at a head of its loop, or it fails with an excuse. -/
theorem search_report_of_guarded (guarded : plan.Guarded excuse) (fresh : start.phase ≠ .finished) :
    Report plan excuse limit start (search plan limit start) := by
  unfold search
  simp only [Step.bind_apply, Step.get_apply, if_neg fresh, announce_eq, Step.tryCatch_apply,
    explore_apply]
  have leads : Leads excuse (plant plan) (start.announced plan limit) _ := plant_leads guarded
  cases plants : plant plan (start.announced plan limit) with
  | error failure after =>
    have excused := leads.of_error plants
    cases failure <;> exact Report.failed excused
  | ok _ planted =>
    have head : Head plan limit start 0 planted := Head.root (announce_eq plan limit start) plants
    have ending := loop_ending guarded head (Nat.zero_add limit) (Or.inl rfl)
    dsimp only
    generalize loop plan limit limit planted = result at ending ⊢
    cases ending with
    | completed isOver => exact Report.completed isOver
    | exhausted exhausted => exact Report.interrupted exhausted
    | @failed failure _ excused => cases failure <;> exact Report.failed excused

theorem search_report (tame : plan.Tame excuse) (fresh : start.phase ≠ .finished) :
    Report plan excuse limit start (search plan limit start) :=
  search_report_of_guarded tame.guarded fresh

/-- How the first call of a search with the strategies of the library ends. -/
theorem Plan.BuiltIn.report (builtIn : plan.BuiltIn) (limit : ℕ) (frontier : Frontier) :
    Report plan (Plan.BuiltIn.Excuse plan.inst) limit (.initial plan frontier)
      (search plan limit (.initial plan frontier)) :=
  search_report builtIn.tame State.initial_unfinished

/-- With the strategies of the library, a first call leaves what its ends at a head leave, unless
there are too many items. -/
theorem search_leaves (sure cut : State Frontier → Prop) (builtIn : plan.BuiltIn)
    (completed : ∀ last, Over plan limit (.initial plan frontier) last → sure last.completed)
    (interrupted : ∀ last, Exhausted plan limit (.initial plan frontier) last →
      cut (last.interrupted limit)) :
    match search plan limit (.initial plan frontier) with
    | .ok _ last => sure last
    | .error (.error _) last => cut last
    | .error (.defect _) _ => 2 ^ 64 ≤ plan.inst.size := by
  have report := builtIn.report limit frontier
  generalize search plan limit (.initial plan frontier) = result at report
  cases report with
  | completed isOver => exact completed _ isOver
  | interrupted exhausted => exact interrupted _ exhausted
  | failed excused =>
    obtain ⟨many, defect, rfl⟩ := excused
    exact many

/-- With honest strategies, a first call leaves what its ends at a head leave, unless there is a
defect or the branching refuses a node, which that of the library never does. -/
theorem search_leaves_of_honest (sure cut : State Frontier → Prop) (honest : plan.Honest)
    (completed : ∀ last, Over plan limit (.initial plan frontier) last → sure last.completed)
    (interrupted : ∀ last, Exhausted plan limit (.initial plan frontier) last →
      cut (last.interrupted limit)) :
    (∀ best? last, search plan limit (.initial plan frontier) = .ok best? last → sure last) ∧
      ∀ error last, search plan limit (.initial plan frontier) = .error (.error error) last →
        cut last ∨ plan.Refuses (.error error) ∧ ¬ plan.BuiltIn := by
  have report : Report plan _ limit (.initial plan frontier) _ :=
    search_report_of_guarded honest.guarded State.initial_unfinished
  constructor
  · intro best? last answers
    rw [answers] at report
    cases report with
    | completed isOver => exact completed _ isOver
  · intro error last refuses
    rw [refuses] at report
    cases report with
    | interrupted exhausted => exact Or.inl (interrupted _ exhausted)
    | failed excused =>
      rcases excused with ⟨defect, other⟩ | refused
      · cases other
      · exact Or.inr ⟨refused, refused.not_builtIn⟩

private theorem search_of_loop {announced planted : State Frontier}
    (fresh : start.phase ≠ .finished)
    (announces : announce plan limit start = .ok () announced)
    (plants : plant plan announced = .ok () planted) :
    search plan limit start = match loop plan limit limit planted with
      | .ok _ last => .ok last.solutions.best? last.completed
      | .error (.error error) last => .error (.error error) (last.ended (some error))
      | .error (.defect defect) last => .error (.defect defect) last := by
  unfold search
  simp only [Step.bind_apply, Step.get_apply, if_neg fresh, announces, Step.tryCatch_apply,
    explore_apply, plants]
  cases loop plan limit limit planted with
  | ok _ last => rfl
  | error failure last => cases failure <;> rfl

/-- A search that is over at a head comes out there. -/
theorem Over.search_eq {last : State Frontier} (fresh : start.phase ≠ .finished)
    (isOver : Over plan limit start last) :
    search plan limit start = .ok last.solutions.best? last.completed := by
  obtain ⟨count, head, stopped⟩ := isOver
  obtain ⟨announced, planted, announces, plants, run⟩ := head.resumes
  have stops : loop plan limit limit planted = .ok () last := by
    rw [run]
    split_ifs with settled
    · rfl
    · exact loop_of_empty (stopped.resolve_right settled) _
  rw [search_of_loop fresh announces plants, stops]

/-- A search whose budget is used up at a head is interrupted there. -/
theorem Exhausted.search_eq {last : State Frontier} (fresh : start.phase ≠ .finished)
    (exhausted : Exhausted plan limit start last) : search plan limit start =
      .error (.error (.iterationLimitExceeded limit)) (last.interrupted limit) := by
  obtain ⟨head, present, unsettled⟩ := exhausted
  obtain ⟨announced, planted, announces, plants, run⟩ := head.resumes
  rw [search_of_loop fresh announces plants, run, if_neg (State.not_stopped_iff.mpr unsettled),
    Nat.sub_self, loop_zero_apply present]
  rfl

/-- A search that comes out takes a further turn at every head where it is not over. -/
theorem Head.exists_next {count : ℕ} {best? : Option Solution} {last : State Frontier}
    (fresh : start.phase ≠ .finished) (head : Head plan limit start count state)
    (answers : search plan limit start = .ok best? last) (present : state.frontier.queue ≠ [])
    (unsettled : count = 0 ∨ ¬ state.Settled) : ∃ node rest after,
      state.frontier.next? = some (node, rest) ∧
        process plan node { state with frontier := rest } = .ok () after ∧
          Head plan limit start (count + 1) after := by
  have within : count < limit := by
    by_contra spent
    obtain rfl : count = limit := head.count_le.antisymm (not_lt.mp spent)
    rw [Exhausted.search_eq fresh ⟨head, present, unsettled⟩] at answers
    cases answers
  cases next : state.frontier.next? with
  | none => exact absurd (Frontier.next?_eq_none_iff.mp next) present
  | some pair =>
    obtain ⟨node, rest⟩ := pair
    cases processes : process plan node { state with frontier := rest } with
    | ok _ after => exact ⟨node, rest, after, rfl, processes,
        head.turn within unsettled next processes⟩
    | error failure after =>
      obtain ⟨announced, planted, announces, plants, run⟩ := head.resumes
      have fails : loop plan limit limit planted = .error failure after := by
        rw [run, if_neg (State.not_stopped_iff.mpr unsettled),
          show limit - count = limit - (count + 1) + 1 by omega, loop_succ_apply next, processes]
      rw [search_of_loop fresh announces plants, fails] at answers
      cases failure <;> cases answers

/-- What waits on the frontier before a search makes no difference to it. -/
theorem search_cleared (fresh : start.phase ≠ .finished) : search plan limit start =
    search plan limit { start with frontier := start.frontier.clear } := by
  unfold search
  simp only [Step.bind_apply, Step.get_apply, if_neg fresh, announce_eq, Step.tryCatch_apply,
    explore_apply]
  rfl

/-- A search that was run repeats its outcome. -/
theorem search_again (finished : start.phase = .finished) :
    search plan limit start = match start.failure? with
      | none => .ok start.solutions.best? start
      | some error => .error (.error error) start := by
  unfold search
  simp only [Step.bind_apply, Step.get_apply, if_pos finished, outcome]
  cases start.failure? <;> rfl

/-- A maximization is a search within the limit of the plan, and running out of budget is no
failure of it. -/
theorem maximize_apply (plan : Plan) (before : State Frontier) :
    maximize plan before = match search plan plan.config.iterationLimit before with
      | .ok _ after | .error (.error (.iterationLimitExceeded _)) after =>
        .ok ⟨after.failure?.isNone, after.solutions.bestValue?⟩ after
      | .error failure after => .error failure after := by
  have discards : (discard (search plan plan.config.iterationLimit) : Step Frontier Unit) before =
      match search plan plan.config.iterationLimit before with
        | .ok _ after => .ok () after
        | .error failure after => .error failure after := by
    change EStateM.map _ (search plan plan.config.iterationLimit) before = _
    unfold EStateM.map
    cases search plan plan.config.iterationLimit before <;> rfl
  unfold maximize
  simp only [Step.bind_apply, Step.tryCatch_apply, Step.get_apply, discards]
  cases search plan plan.config.iterationLimit before with
  | ok best after => rfl
  | error failure after =>
    cases failure with
    | defect defect => rfl
    | error error => cases error <;> rfl

/-- The states that calls of one search lead to; nothing is called after a defect. -/
inductive Session (plan : Plan) (frontier : Frontier) : State Frontier → Prop
  | opened : Session plan frontier (.initial plan frontier)
  | answered {limit : ℕ} {best : Option Solution} {before after : State Frontier}
      (earlier : Session plan frontier before)
      (answers : search plan limit before = .ok best after) : Session plan frontier after
  | refused {limit : ℕ} {error : Error} {before after : State Frontier}
      (earlier : Session plan frontier before)
      (refuses : search plan limit before = .error (.error error) after) :
      Session plan frontier after
  | maximized {completion : Completion} {before after : State Frontier}
      (earlier : Session plan frontier before)
      (maximizes : maximize plan before = .ok completion after) : Session plan frontier after

/-- The end of a first call that did not break down. -/
inductive Ended (plan : Plan) (frontier : Frontier) : State Frontier → Prop
  | completed {limit : ℕ} {last : State Frontier}
      (isOver : Over plan limit (.initial plan frontier) last) :
      Ended plan frontier last.completed
  | interrupted {limit : ℕ} {last : State Frontier}
      (exhausted : Exhausted plan limit (.initial plan frontier) last) :
      Ended plan frontier (last.interrupted limit)

theorem Ended.phase_eq (ended : Ended plan frontier state) : state.phase = .finished := by
  cases ended <;> rfl

/-- How any call ends, the first one as reported and a later one as the first. -/
theorem search_ends (builtIn : plan.BuiltIn) (limit : ℕ)
    (known : start = .initial plan frontier ∨ Ended plan frontier start) :
    match search plan limit start with
    | .ok best last => best = last.solutions.best? ∧
        ∃ budget head, Over plan budget (.initial plan frontier) head ∧ last = head.completed
    | .error (.error error) last => ∃ budget head,
        Exhausted plan budget (.initial plan frontier) head ∧
          error = .iterationLimitExceeded budget ∧ last = head.interrupted budget
    | .error (.defect _) _ => 2 ^ 64 ≤ plan.inst.size := by
  rcases known with rfl | ended
  · have report := builtIn.report limit frontier
    generalize search plan limit (.initial plan frontier) = result at report ⊢
    cases report with
    | @completed head isOver => exact ⟨rfl, limit, head, isOver, rfl⟩
    | @interrupted head exhausted => exact ⟨limit, head, exhausted, rfl, rfl⟩
    | failed excused =>
      obtain ⟨many, defect, rfl⟩ := excused
      exact many
  · rw [search_again ended.phase_eq]
    cases ended with
    | @completed budget head isOver => exact ⟨rfl, budget, head, isOver, rfl⟩
    | @interrupted budget head exhausted => exact ⟨budget, head, exhausted, rfl, rfl⟩

/-- Every state of a session is the initial one or the end of the first call. -/
theorem Session.cases (builtIn : plan.BuiltIn) (session : Session plan frontier state) :
    state = .initial plan frontier ∨ Ended plan frontier state := by
  induction session with
  | opened => exact Or.inl rfl
  | @answered limit best before after earlier answers ih =>
    have ends := search_ends builtIn limit ih
    rw [answers] at ends
    obtain ⟨-, _, head, isOver, rfl⟩ := ends
    exact Or.inr (Ended.completed isOver)
  | @refused limit error before after earlier refuses ih =>
    have ends := search_ends builtIn limit ih
    rw [refuses] at ends
    obtain ⟨_, head, exhausted, -, rfl⟩ := ends
    exact Or.inr (Ended.interrupted exhausted)
  | @maximized completion before after earlier maximizes ih =>
    have ends := search_ends builtIn plan.config.iterationLimit ih
    rw [maximize_apply] at maximizes
    split at maximizes
    · rename_i answers
      rw [answers] at ends
      cases maximizes
      obtain ⟨-, _, head, isOver, rfl⟩ := ends
      exact Or.inr (Ended.completed isOver)
    · rename_i refuses
      rw [refuses] at ends
      cases maximizes
      obtain ⟨_, head, exhausted, -, rfl⟩ := ends
      exact Or.inr (Ended.interrupted exhausted)
    · exact nomatch maximizes

end Knapsack.Search

import Knapsack.Proofs.Observer.Orderly
import Knapsack.Proofs.Search.Bounds

/-! # A search never breaks down

With the strategies of the library and fewer than `2 ^ 64` items, no arithmetic of a search is
refused and no contract is broken: all that can end a search early is its budget. What is known
afterwards can be used without any precaution: the gap between the bounds is representable, and
observers that start afresh can follow the whole journal.
-/

namespace Knapsack.Search

variable {plan : Plan} {excuse : Failure → Prop} {limit count : ℕ} {frontier : Frontier}
  {state before after : State Frontier} {node : Node}

/-- An orderly journal in which every node that waits was created. -/
structure Traceable (state : State Frontier) : Prop where
  orderly : Orderly [] state.events
  created : ∀ node ∈ state.frontier.queue, ∃ created,
    .nodeCreated created ∈ state.events ∧ created.id = node.id

/-- A turn of a node that waited keeps the journal orderly. -/
theorem Traceable.turn {rest : Frontier} (traceable : Traceable before)
    (next : before.frontier.queue = node :: rest.queue)
    (turn : Turn plan node { before with frontier := rest } after) : Traceable after := by
  obtain ⟨discoveries, children, status, found, events, perm, discovered, below⟩ :=
    turn.exists_events
  have known := traceable.created node (next ▸ List.mem_cons_self ..)
  refine ⟨?_, fun other waits => ?_⟩
  · rw [events, orderly_append, List.nil_append]
    refine ⟨traceable.orderly, orderly_of_grounded fun event member => ?_⟩
    rcases List.mem_append.mp member with earlier | processed
    · rcases List.mem_append.mp earlier with discovery | born
      · obtain ⟨solution, incumbent, rfl, valued⟩ := discovered event discovery
        exact valued
      · obtain ⟨child, listed, rfl⟩ := List.mem_map.mp born
        intro parent named
        obtain rfl := Option.some.inj ((below child listed).symm.trans named)
        exact known
    · obtain rfl := List.mem_singleton.mp processed
      trivial
  · rw [events]
    rcases List.mem_append.mp (perm.mem_iff.mp waits) with joined | stayed
    · obtain ⟨child, listed, rfl⟩ := List.mem_map.mp joined
      refine ⟨child, List.mem_append_right _ (List.mem_append_left _ (List.mem_append_right _ ?_)),
        rfl⟩
      exact List.mem_map_of_mem listed
    · obtain ⟨created, member, same⟩ :=
        traceable.created other (next ▸ List.mem_cons_of_mem _ stayed)
      exact ⟨created, List.mem_append_left _ member, same⟩

theorem Head.traceable (tame : plan.Tame excuse)
    (head : Head plan limit (.initial plan frontier) count state) : Traceable state := by
  refine head.invariant tame (fun _ => Traceable) ?_ ?_
  · intro root drawn drafted
    have events := State.events_opening plan frontier limit root
    refine ⟨?_, fun node waits => ?_⟩
    · rw [events]
      refine ⟨trivial, ?_, trivial⟩
      intro parent named
      exact nomatch drafted.below.symm.trans named
    · obtain rfl := List.mem_singleton.mp waits
      exact ⟨root, by simp [events], rfl⟩
  · intro count before node rest after traceable _ _ _ next _ turn
    exact traceable.turn next turn

private theorem transcript_isOk_of_append {statistics : Statistics} {later : State Frontier}
    {panel : Panel} (fresh : panel.Fresh) (traceable : Traceable state)
    (events : later.events = state.events ++ [.searchEnded statistics]) :
    ∃ told, panel.transcript later.journal = .ok told := by
  apply Panel.transcript_isOk fresh
  change Orderly [] later.events
  rw [events, orderly_append]
  exact ⟨traceable.orderly, trivial, trivial⟩

/-- Values that the gap can be computed from. -/
structure Measurable (state : State Frontier) : Prop where
  lower : ∀ value, state.lowerBound = .finite value → value.den = 1
  upper : ∀ value, state.upperBound = .finite value → value.Representable

theorem Measurable.gap_isOk (measurable : Measurable state) : ∃ gap, state.gap = .ok gap := by
  unfold State.gap
  cases low : state.lowerBound with
  | negInfinity => cases state.upperBound <;> exact ⟨_, rfl⟩
  | posInfinity => cases state.upperBound <;> exact ⟨_, rfl⟩
  | finite lower =>
    cases high : state.upperBound with
    | negInfinity => exact ⟨_, rfl⟩
    | posInfinity => exact ⟨_, rfl⟩
    | finite upper =>
      dsimp only
      split_ifs with closed
      · exact ⟨_, rfl⟩
      · rw [not_or] at closed
        obtain ⟨numerator, denominator⟩ := measurable.upper upper high
        have ordered : lower ≤ upper := by
          have apart := closed.1
          rw [Fraction.le_iff_toRat] at apart ⊢
          exact (not_le.mp apart).le
        have whole := measurable.lower lower low
        have scaled : upper.toRat * upper.den ≤ Fraction.widthLimit := by
          rw [Fraction.toRat_eq_div, div_mul_cancel₀ _ upper.den_pos.ne']
          exact_mod_cast numerator
        obtain ⟨difference, known⟩ := Fraction.sub_isOk ordered
          (Nat.pos_of_ne_zero upper.den_ne_zero) denominator dvd_rfl (whole ▸ one_dvd _) scaled
        have outcome : exactly (upper.sub lower) = .ok difference := exactly_eq_ok_iff.mpr known
        simp only [outcome, bind, Except.bind]
        exact ⟨_, rfl⟩

theorem Head.measurable (tame : plan.Tame excuse)
    (head : Head plan limit (.initial plan frontier) count state) : Measurable state := by
  have covered := head.covered tame (SolutionSet.lawful_empty plan.inst plan.config.keepAll)
  obtain ⟨root, -, ledger⟩ := head.ledger tame
  refine ⟨fun value known => ?_, fun value known => ?_⟩
  · rw [covered.lawful.lowerBound_integral known]
    rfl
  · rw [ledger.current, State.openBound_eq] at known
    rcases le_total state.frontier.upperBound state.lowerBound with below | above
    · rw [max_eq_right below] at known
      exact covered.lawful.lowerBound_representable known
    · rw [max_eq_left above] at known
      obtain ⟨node, waits, -, rfl⟩ := Frontier.exists_of_upperBound_eq known
      exact (Solution.toRat_total (head.waiting tame node waits).1.worth).2

/-- The gap of a finished search is known. -/
theorem Ended.gap_isOk (builtIn : plan.BuiltIn) (ended : Ended plan frontier state) :
    ∃ gap, state.gap = .ok gap := by
  cases ended with
  | @completed budget last isOver =>
    obtain ⟨count, head, -⟩ := isOver
    have lawful := (head.covered builtIn.tame
      (SolutionSet.lawful_empty plan.inst plan.config.keepAll)).lawful
    exact Measurable.gap_isOk ⟨(head.measurable builtIn.tame).lower,
      fun value known => lawful.lowerBound_representable known⟩
  | @interrupted budget last exhausted =>
    have measurable := exhausted.1.measurable builtIn.tame
    exact Measurable.gap_isOk ⟨measurable.lower, measurable.upper⟩

/-- Fresh observers can follow the journal of a finished search. -/
theorem Ended.transcript_isOk (builtIn : plan.BuiltIn) (ended : Ended plan frontier state)
    {panel : Panel} (fresh : panel.Fresh) : ∃ told, panel.transcript state.journal = .ok told := by
  cases ended with
  | @completed budget last isOver =>
    obtain ⟨count, head, -⟩ := isOver
    exact transcript_isOk_of_append fresh (head.traceable builtIn.tame) State.events_completed
  | @interrupted budget last exhausted =>
    exact transcript_isOk_of_append fresh (exhausted.1.traceable builtIn.tame)
      (State.events_interrupted budget)

private theorem search_answers (builtIn : plan.BuiltIn) (few : plan.inst.size < 2 ^ 64)
    (known : state = .initial plan frontier ∨ Ended plan frontier state) (limit : ℕ) :
    (∃ best? last, search plan limit state = .ok best? last) ∨ ∃ budget last,
      search plan limit state = .error (.error (.iterationLimitExceeded budget)) last := by
  have ends := search_ends builtIn limit known
  cases outcome : search plan limit state with
  | ok best? last => exact Or.inl ⟨best?, last, rfl⟩
  | error failure last =>
    rw [outcome] at ends
    cases failure with
    | defect defect => exact absurd ends (not_le.mpr few)
    | error error =>
      obtain ⟨budget, head, -, rfl, rfl⟩ := ends
      exact Or.inr ⟨budget, _, rfl⟩

/-- In any session about fewer than `2 ^ 64` items, a search comes out or reports that its budget is
used up, and a maximization comes out. The gap is always known, fresh observers can follow the whole
journal, and the sums and lookups of the relaxation stay in their range. -/
theorem search_never_breaks_down (builtIn : plan.BuiltIn) (few : plan.inst.size < 2 ^ 64)
    (session : Session plan frontier state) :
    (∀ limit, (∃ best? last, search plan limit state = .ok best? last) ∨
      ∃ budget last,
        search plan limit state = .error (.error (.iterationLimitExceeded budget)) last) ∧
    (∃ completion last, maximize plan state = .ok completion last) ∧
    (∃ gap, state.gap = .ok gap) ∧
    (∀ panel : Panel, panel.Fresh → ∃ told, panel.transcript state.journal = .ok told) ∧
    ∀ fixation : Fixation, fixation.length = plan.inst.size →
      Relaxation.fixedWeight plan.inst fixation ≤ Fraction.widthLimit ∧
        (plan.inst.densityOrder? fixation.openIndices).isSome = true := by
  have known := session.cases builtIn
  have answers := search_answers builtIn few known
  refine ⟨answers, ?_, ?_, fun panel fresh => ?_, fun fixation covers =>
    ⟨Relaxation.fixedWeight_le_widthLimit few covers, Relaxation.densityOrder?_isSome covers⟩⟩
  · rw [maximize_apply]
    rcases answers plan.config.iterationLimit with ⟨_, last, same⟩ | ⟨_, last, same⟩ <;>
      rw [same] <;> exact ⟨_, last, rfl⟩
  · rcases known with rfl | ended
    · exact ⟨_, rfl⟩
    · exact ended.gap_isOk builtIn
  · rcases known with rfl | ended
    · exact ⟨_, rfl⟩
    · exact ended.transcript_isOk builtIn fresh

theorem search_never_breaks_down_tight : Plan.tight.BuiltIn ∧ Plan.tight.inst.size < 2 ^ 64 ∧
    ∃ best? answered cut,
      search .tight 15 (.initial .tight (.empty .depthFirst)) = .ok best? answered ∧
      search .tight 0 (.initial .tight (.empty .depthFirst)) =
        .error (.error (.iterationLimitExceeded 0)) cut ∧
      ∀ state ∈ [.initial .tight (.empty .depthFirst), answered, cut],
        (∀ limit, (∃ best? last, search .tight limit state = .ok best? last) ∨
          ∃ budget last, search .tight limit state =
            .error (.error (.iterationLimitExceeded budget)) last) ∧
        (∃ completion last, maximize .tight state = .ok completion last) ∧
        (∃ gap, state.gap = .ok gap) ∧
        (∀ panel : Panel, panel.Fresh → ∃ told, panel.transcript state.journal = .ok told) ∧
        ∀ fixation : Fixation, fixation.length = Plan.tight.inst.size →
          Relaxation.fixedWeight Plan.tight.inst fixation ≤ Fraction.widthLimit ∧
            (Plan.tight.inst.densityOrder? fixation.openIndices).isSome = true := by
  have few : Plan.tight.inst.size < 2 ^ 64 := by decide
  obtain ⟨best?, answered, answers⟩ := tight_isOk (.empty .depthFirst)
  obtain ⟨cut, -, refuses⟩ := tight_interrupted (.empty .depthFirst)
  refine ⟨Plan.tight_builtIn, few, best?, answered, cut.interrupted 0, answers, refuses,
    fun state member => ?_⟩
  have session : Session .tight (.empty .depthFirst) state := by
    rcases List.mem_cons.mp member with rfl | later
    · exact Session.opened
    · rcases List.mem_cons.mp later with rfl | last
      · exact Session.opened.answered answers
      · obtain rfl := List.mem_singleton.mp last
        exact Session.opened.refused refuses
  exact search_never_breaks_down Plan.tight_builtIn few session

end Knapsack.Search

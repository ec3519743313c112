import Knapsack.Proofs.Search.Termination

/-! # The global bounds close in on the optimum

At every head the optimum lies between the incumbent and the greatest value of a feasible node that
waits: an optimal load either is no better than the incumbent or is below such a node. The incumbent
never gets worse. The upper bound never rises, because a feasible child is worth no more than its
parent and a solution of the heuristic no more than the optimum.
-/

namespace Knapsack.Search

variable {plan : Plan} {excuse : Failure → Prop} {limit count : ℕ} {frontier : Frontier}
  {inst : Instance} {state : State Frontier}

/-- The bounds that an event reports, if a node was processed. -/
def Event.bounds? : Event → Option (Bound × Bound)
  | .nodeProcessed _ lower upper _ _ => some (lower, upper)
  | _ => none

/-- The bounds that were reported so far, each pair with the lower one first. -/
def State.reports (state : State Frontier) : List (Bound × Bound) :=
  state.events.filterMap (·.bounds?)

/-- The optimum of an instance, as a bound. -/
def best (inst : Instance) : Bound := .finite (.ofNat inst.optimum)

/-- The optimum is below what is still open. -/
theorem Covered.best_le (covered : Covered inst state) (waiting : state.Waiting inst) :
    best inst ≤ state.openBound := by
  obtain ⟨chosen, load, optimal⟩ := inst.exists_optimal_load
  unfold best
  rw [← optimal]
  by_cases improving : state.lowerBound < .finite (.ofNat (inst.valueOf chosen))
  · obtain ⟨node, waits, allowed⟩ := covered.cover chosen load improving
    obtain ⟨feasible, bound⟩ := (waiting node waits).1.valueOf_le load allowed
    exact le_trans (le_trans bound (Frontier.le_upperBound waits feasible))
      (le_max_left _ _)
  · exact le_trans (not_lt.mp improving) (le_max_right _ _)

/-- When no load can improve the incumbent, it is optimal. -/
theorem Covered.lowerBound_eq (covered : Covered inst state)
    (reached : best inst ≤ state.lowerBound) : state.lowerBound = best inst :=
  le_antisymm covered.lawful.lowerBound_le reached

/-- A drawn node without parent that fixes nothing. -/
structure IsRoot (inst : Instance) (root : Node) : Prop where
  orphan : root.parent? = none
  fixes : root.fixation = .unassigned inst.size
  drawn : root.Drawn inst

/-- What was reported about the bounds of an instance: the reports enclose the optimum, and they
close in on it, starting from the value of the root. -/
structure Anytime (inst : Instance) (state : State Frontier) : Prop where
  sound : ∀ report ∈ state.reports, report.1 ≤ best inst ∧ best inst ≤ report.2
  rising : (state.reports.map (·.1)).Pairwise (· ≤ ·)
  falling : ∃ root rest, IsRoot inst root ∧
    state.events = .searchStarted inst :: .nodeCreated root :: rest ∧
      (.finite root.value :: state.reports.map (·.2)).Pairwise fun earlier later => later ≤ earlier

/-- The books of a search at a head: the reports so far, and the bounds that hold now at the end of
both sequences. -/
structure Ledger (inst : Instance) (root : Node) (state : State Frontier) : Prop where
  current : state.upperBound = state.openBound
  opening : ∃ rest, state.events = .searchStarted inst :: .nodeCreated root :: rest
  sound : ∀ report ∈ state.reports, report.1 ≤ best inst ∧ best inst ≤ report.2
  rising : (state.reports.map (·.1) ++ [state.lowerBound]).Pairwise (· ≤ ·)
  falling : (.finite root.value :: state.reports.map (·.2) ++ [state.upperBound]).Pairwise
    fun earlier later => later ≤ earlier

private theorem pairwise_advance (related : Bound → Bound → Prop) (reflexive : ∀ b, related b b)
    (transitive : ∀ {a b c}, related a b → related b c → related a c) {sequence : List Bound}
    {now next : Bound} (ordered : (sequence ++ [now]).Pairwise related) (moved : related now next) :
    (sequence ++ [next] ++ [next]).Pairwise related := by
  -- The bound that held last is replaced by the next one, once as reported and once as current.
  rw [List.pairwise_append] at ordered
  obtain ⟨earlier, -, last⟩ := ordered
  have reaches : ∀ b ∈ sequence, related b next := fun b member =>
    transitive (last b member now (List.mem_singleton_self _)) moved
  rw [List.append_assoc, List.pairwise_append]
  refine ⟨earlier, by simpa using reflexive next, fun b member c final => ?_⟩
  obtain rfl : c = next := by simpa using final
  exact reaches b member

section Turn

variable {node root : Node} {before after : State Frontier}

/-- A turn reports exactly the bounds that hold after it. -/
theorem Turn.reports (turn : Turn plan node before after) :
    after.reports = before.reports ++ [(after.lowerBound, after.upperBound)] := by
  obtain ⟨discoveries, children, status, found, events, -, discovered, -⟩ := turn.exists_events
  have silent : discoveries.filterMap (·.bounds?) = [] := by
    apply List.filterMap_eq_nil_iff.mpr
    intro event member
    obtain ⟨solution, incumbent, rfl, -⟩ := discovered event member
    rfl
  have born : (children.map Event.nodeCreated).filterMap (·.bounds?) = [] := by
    apply List.filterMap_eq_nil_iff.mpr
    intro event member
    obtain ⟨child, -, rfl⟩ := List.mem_map.mp member
    rfl
  rw [State.reports, events, List.filterMap_append, List.filterMap_append, List.filterMap_append,
    silent, born]
  rfl

theorem Turn.upperBound_eq (turn : Turn plan node before after) :
    after.upperBound = after.openBound := by
  obtain ⟨classified⟩ := turn
  rfl

/-- What waits after a turn is no better than what was open before it. -/
theorem Turn.openBound_le {rest : Frontier} (turn : Turn plan node { before with frontier := rest }
    after) (covered : Covered plan.inst before) (waiting : before.Waiting plan.inst)
    (next : before.frontier.queue = node :: rest.queue) :
    after.openBound ≤ before.openBound := by
  obtain ⟨drawn, -⟩ := waiting node (next ▸ List.mem_cons_self ..)
  obtain ⟨children, perm, born⟩ := turn.exists_children
  refine max_le_iff.mpr ⟨Frontier.upperBound_le_iff.mpr fun other waits feasible => ?_, ?_⟩
  · refine le_trans ?_ (le_max_left _ _)
    rcases List.mem_append.mp (perm.mem_iff.mp waits) with joined | stayed
    · obtain ⟨child, listed, rfl⟩ := List.mem_map.mp joined
      obtain ⟨drawnChild, refines⟩ := born child listed
      obtain ⟨feasibleAbove, bound⟩ := drawnChild.value_le_of_refines drawn refines feasible
      exact le_trans (Bound.finite_le_finite.mpr bound)
        (Frontier.le_upperBound (next ▸ List.mem_cons_self ..) feasibleAbove)
    · exact Frontier.le_upperBound (next ▸ List.mem_cons_of_mem _ stayed) feasible
  · exact le_trans (turn.lawful drawn covered.lawful).1.lowerBound_le
      (covered.best_le waiting)

/-- A turn keeps the books. -/
theorem Ledger.turn {rest : Frontier} (ledger : Ledger plan.inst root before)
    (faithful : plan.Faithful) (covered : Covered plan.inst before)
    (waiting : before.Waiting plan.inst) (next : before.frontier.queue = node :: rest.queue)
    (turn : Turn plan node { before with frontier := rest } after) :
    Ledger plan.inst root after := by
  obtain ⟨drawn, -⟩ := waiting node (next ▸ List.mem_cons_self ..)
  have afterwards := covered.turn faithful drawn next turn
  have raised : before.lowerBound ≤ after.lowerBound := (turn.lawful drawn covered.lawful).2
  have lowered : after.upperBound ≤ before.upperBound := by
    rw [turn.upperBound_eq, ledger.current]
    exact turn.openBound_le covered waiting next
  have reports : after.reports = before.reports ++ [(after.lowerBound, after.upperBound)] :=
    turn.reports
  refine ⟨turn.upperBound_eq, ?_, fun report member => ?_, ?_, ?_⟩
  · obtain ⟨others, opening⟩ := ledger.opening
    obtain ⟨discoveries, children, status, found, events, -⟩ := turn.exists_events
    rw [show ({ before with frontier := rest } : State Frontier).events = before.events from rfl,
      opening] at events
    exact ⟨_, events⟩
  · rw [reports] at member
    rcases List.mem_append.mp member with earlier | latest
    · exact ledger.sound report earlier
    · obtain rfl := List.mem_singleton.mp latest
      refine ⟨afterwards.lawful.lowerBound_le, ?_⟩
      rw [turn.upperBound_eq]
      exact afterwards.best_le (turn.waiting waiting next)
  · rw [reports, List.map_append]
    exact pairwise_advance _ le_refl le_trans ledger.rising raised
  · rw [reports, List.map_append, ← List.cons_append]
    exact pairwise_advance (fun earlier later => later ≤ earlier) le_refl
      (fun first second => le_trans second first) ledger.falling lowered

end Turn

private theorem ledger_planted (plan : Plan) (limit : ℕ) (frontier : Frontier) (root : Node) :
    Ledger plan.inst root
      (((State.initial plan frontier).announced plan limit).planted root) := by
  have events := State.events_opening plan frontier limit root
  have reports :
      (((State.initial plan frontier).announced plan limit).planted root).reports = [] := by
    rw [State.reports, events]
    rfl
  refine ⟨rfl, ⟨[], events⟩, by simp [reports], by simp [reports], ?_⟩
  rw [reports]
  refine List.pairwise_pair.mpr (max_le_iff.mpr ⟨?_, Bound.negInfinity_le _⟩)
  apply Frontier.upperBound_le_iff.mpr
  intro node waits _
  obtain rfl := List.mem_singleton.mp waits
  exact le_refl _

/-- The books are kept at every head of a search. -/
theorem Head.ledger (tame : plan.Tame excuse)
    (head : Head plan limit (.initial plan frontier) count state) :
    ∃ root, IsRoot plan.inst root ∧ Ledger plan.inst root state := by
  have start : (State.initial plan frontier).solutions.Lawful plan.inst :=
    SolutionSet.lawful_empty plan.inst plan.config.keepAll
  suffices both : Covered plan.inst state ∧
      ∃ root, IsRoot plan.inst root ∧ Ledger plan.inst root state from both.2
  refine head.invariant tame (fun _ state => Covered plan.inst state ∧
    ∃ root, IsRoot plan.inst root ∧ Ledger plan.inst root state) ?_ ?_
  · intro root drawn drafted
    exact ⟨covered_planted start drafted.fixes, root, ⟨drafted.below, drafted.fixes, drawn⟩,
      ledger_planted plan limit frontier root⟩
  · rintro count before node rest after ⟨covered, root, isRoot, ledger⟩ waiting _ _ next _ turn
    obtain ⟨drawn, -⟩ := waiting node (next ▸ List.mem_cons_self ..)
    have faithful := tame.toFaithful
    exact ⟨covered.turn faithful drawn next turn, root, isRoot,
      ledger.turn faithful covered waiting next turn⟩

/-- The reports are as they should be at every head. -/
theorem Head.anytime (tame : plan.Tame excuse)
    (head : Head plan limit (.initial plan frontier) count state) : Anytime plan.inst state := by
  obtain ⟨root, isRoot, ledger⟩ := head.ledger tame
  obtain ⟨rest, opening⟩ := ledger.opening
  exact ⟨ledger.sound, (List.pairwise_append.mp ledger.rising).1, root, rest, isRoot, opening,
    (List.pairwise_append.mp ledger.falling).1⟩

/-- Events that report no bounds leave the reports as they are. -/
theorem Anytime.append {later : State Frontier} {more : List Event} (anytime : Anytime inst state)
    (events : later.events = state.events ++ more) (silent : more.filterMap (·.bounds?) = []) :
    Anytime inst later := by
  have reports : later.reports = state.reports := by
    rw [State.reports, events, List.filterMap_append, silent, List.append_nil]
    rfl
  obtain ⟨root, rest, isRoot, opening, falling⟩ := anytime.falling
  refine ⟨reports ▸ anytime.sound, reports ▸ anytime.rising, root, rest ++ more, isRoot, ?_,
    reports ▸ falling⟩
  rw [events, opening]
  rfl

/-- Where the search is over, the incumbent is optimal. -/
theorem Over.lowerBound_eq (tame : plan.Tame excuse)
    (isOver : Over plan limit (.initial plan frontier) state) :
    state.lowerBound = best plan.inst := by
  obtain ⟨count, head, stopped⟩ := isOver
  have covered := head.covered tame (SolutionSet.lawful_empty plan.inst plan.config.keepAll)
  have enclosed := covered.best_le (head.waiting tame)
  apply covered.lowerBound_eq
  rcases stopped with nothing | ⟨-, settled⟩
  · have empty : state.frontier.upperBound ≤ state.lowerBound :=
      Frontier.upperBound_le_iff.mpr fun node waits => by simp [nothing] at waits
    exact le_trans enclosed (max_le_iff.mpr ⟨empty, le_refl _⟩)
  · obtain ⟨root, -, ledger⟩ := head.ledger tame
    rw [← ledger.current] at enclosed
    exact le_trans enclosed settled

/-- Nothing is found before the first node is processed. -/
theorem Head.lowerBound_zero (tame : plan.Tame excuse)
    (head : Head plan limit (.initial plan frontier) 0 state) :
    state.lowerBound = .negInfinity := by
  cases head with
  | root announces plants =>
    obtain ⟨root, -, rfl⟩ := exists_planted tame announces plants
    rfl

/-- Where the budget is used up, the bounds are apart, and the upper one is that of the frontier. -/
theorem Exhausted.bounds (tame : plan.Tame excuse)
    (exhausted : Exhausted plan limit (.initial plan frontier) state) :
    state.lowerBound ≤ best plan.inst ∧ best plan.inst ≤ state.upperBound ∧
      state.lowerBound < state.upperBound ∧ state.upperBound = state.frontier.upperBound := by
  obtain ⟨head, -, unsettled⟩ := exhausted
  have covered := head.covered tame (SolutionSet.lawful_empty plan.inst plan.config.keepAll)
  have enclosed := covered.best_le (head.waiting tame)
  obtain ⟨root, -, ledger⟩ := head.ledger tame
  have apart : state.lowerBound < state.upperBound := by
    rcases unsettled with rfl | unsettled
    · rw [head.lowerBound_zero tame, ledger.current]
      exact lt_of_lt_of_le ⟨Bound.negInfinity_le _, id⟩ enclosed
    · exact not_le.mp unsettled
  refine ⟨covered.lawful.lowerBound_le, ledger.current ▸ enclosed, apart, ?_⟩
  rw [ledger.current, State.openBound_eq] at apart ⊢
  exact max_eq_left ((lt_max_iff.mp apart).resolve_right (lt_irrefl _)).le

/-- At every head the reports enclose the optimum and close in on it. A search that comes out ends
with both bounds at the optimum; one that is interrupted ends with the optimum between bounds that
differ, of which the upper one is that of the frontier. -/
theorem bounds_close_in_on_optimum (builtIn : plan.BuiltIn) (frontier : Frontier) (limit : ℕ) :
    (∀ count state, Head plan limit (.initial plan frontier) count state →
      Anytime plan.inst state) ∧
    match search plan limit (.initial plan frontier) with
    | .ok _ last => Anytime plan.inst last ∧
        last.lowerBound = best plan.inst ∧ last.upperBound = best plan.inst
    | .error (.error error) last => Anytime plan.inst last ∧
        error = .iterationLimitExceeded limit ∧
          last.lowerBound ≤ best plan.inst ∧ best plan.inst ≤ last.upperBound ∧
            last.lowerBound < last.upperBound ∧ last.upperBound = last.frontier.upperBound
    | .error (.defect _) _ => 2 ^ 64 ≤ plan.inst.size := by
  refine ⟨fun count state head => head.anytime builtIn.tame, ?_⟩
  have report := builtIn.report limit frontier
  generalize search plan limit (.initial plan frontier) = result at report
  cases report with
  | @completed last isOver =>
    have reached := isOver.lowerBound_eq builtIn.tame
    obtain ⟨count, head, -⟩ := isOver
    exact ⟨(head.anytime builtIn.tame).append State.events_completed rfl, reached, reached⟩
  | @interrupted last exhausted =>
    have bounds := exhausted.bounds builtIn.tame
    exact ⟨(exhausted.1.anytime builtIn.tame).append (State.events_interrupted limit) rfl, rfl,
      bounds⟩
  | failed excused =>
    obtain ⟨many, defect, rfl⟩ := excused
    exact many

theorem bounds_close_in_on_optimum_tight : Plan.tight.BuiltIn ∧
    (∀ count state, Head .tight 15 (.initial .tight (.empty .bestBound)) count state →
      Anytime Plan.tight.inst state) ∧
    (∃ best? last, search .tight 15 (.initial .tight (.empty .bestBound)) = .ok best? last ∧
      (∃ node ∈ processedIn last.events, node.status = .branched) ∧
        Anytime Plan.tight.inst last ∧
          last.lowerBound = best Plan.tight.inst ∧ last.upperBound = best Plan.tight.inst) ∧
    ∃ last, search .tight 0 (.initial .tight (.empty .bestBound)) =
        .error (.error (.iterationLimitExceeded 0)) last ∧
      Anytime Plan.tight.inst last ∧ last.lowerBound ≤ best Plan.tight.inst ∧
        best Plan.tight.inst ≤ last.upperBound ∧ last.lowerBound < last.upperBound ∧
          last.upperBound = last.frontier.upperBound := by
  obtain ⟨heads, comesOut⟩ := bounds_close_in_on_optimum Plan.tight_builtIn (.empty .bestBound) 15
  obtain ⟨-, interrupts⟩ := bounds_close_in_on_optimum Plan.tight_builtIn (.empty .bestBound) 0
  obtain ⟨best?, last, answers⟩ := tight_isOk (.empty .bestBound)
  obtain ⟨cut, -, refuses⟩ := tight_interrupted (.empty .bestBound)
  rw [answers] at comesOut
  rw [refuses] at interrupts
  obtain ⟨anytime, -, bounds⟩ := interrupts
  exact ⟨Plan.tight_builtIn, heads, ⟨best?, last, answers, tight_branches answers, comesOut⟩,
    cut.interrupted 0, refuses, anytime, bounds⟩

end Knapsack.Search

import Knapsack.Proofs.Search.Process

/-! # The heads of the loop

A head is a state in which the loop decides whether to go on: the first one follows the planting of
the root, and every further one the processing of a node. What the root establishes and every turn
keeps holds at all heads. A search ends at a head, either because it is over there or because its
budget is used up.
-/

namespace Knapsack.Search

variable {plan : Plan} {excuse : Failure → Prop} {limit count : ℕ} {start state : State Frontier}

/-- Nothing better than the incumbent can be found any more. -/
def State.Settled (state : State Frontier) : Prop := state.upperBound ≤ state.lowerBound

instance (state : State Frontier) : Decidable state.Settled :=
  inferInstanceAs (Decidable (state.upperBound ≤ state.lowerBound))

/-- A search goes on at its first head, and later as long as something better can be found. -/
theorem State.not_stopped_iff :
    ¬ (0 < count ∧ state.Settled) ↔ count = 0 ∨ ¬ state.Settled := by
  rw [not_and_or, not_lt, Nat.le_zero]

/-- The states at the head of the loop, each with the number of nodes processed so far. -/
inductive Head (plan : Plan) (limit : ℕ) (start : State Frontier) : ℕ → State Frontier → Prop
  | root {announced planted : State Frontier}
      (announces : announce plan limit start = .ok () announced)
      (plants : plant plan announced = .ok () planted) : Head plan limit start 0 planted
  | turn {count : ℕ} {before after : State Frontier} {node : Node} {frontier : Frontier}
      (head : Head plan limit start count before) (within : count < limit)
      (unsettled : count = 0 ∨ ¬ before.Settled)
      (next : before.frontier.next? = some (node, frontier))
      (processes : process plan node { before with frontier } = .ok () after) :
      Head plan limit start (count + 1) after

namespace State

/-- After a search was announced. -/
def announced (state : State Frontier) (plan : Plan) (limit : ℕ) : State Frontier :=
  { state with
    phase := .running
    journal := (state.journal.push (.event (.searchStarted plan.inst))).push
      (.notice (.searching plan.inst.size plan.inst.capacity.toNat limit)) }

/-- After a root was planted on an empty frontier. -/
def planted (state : State Frontier) (root : Node) : State Frontier :=
  let rooted := { state with frontier := state.frontier.clear }.joined root
  { rooted with upperBound := rooted.openBound }

/-- The notice that the budget is used up. -/
def reached (state : State Frontier) (limit : ℕ) : State Frontier :=
  state.told [.limitReached limit state.lowerBound state.upperBound]

/-- A state in which only drawn nodes wait. -/
def Waiting (inst : Instance) (state : State Frontier) : Prop :=
  ∀ node ∈ state.frontier.queue, node.Drawn inst ∧ node.status = .enqueued

theorem queue_planted (state : State Frontier) (root : Node) :
    (state.planted root).frontier.queue = [root.queued] := rfl

end State

section Loop

variable {node : Node} {frontier : Frontier}

/-- Where no node waits, the loop ends. -/
theorem loop_of_empty (nothing : state.frontier.queue = []) (budget : ℕ) :
    loop plan limit budget state = .ok () state := by
  have idle : ¬ Frontier.Service.hasNext state.frontier = true :=
    fun waits => Frontier.hasNext_iff.mp waits nothing
  cases budget <;> simp only [loop, Step.bind_apply, Step.get_apply, if_neg idle] <;> rfl

/-- Where a node waits and the budget is used up, the loop is interrupted. -/
theorem loop_zero_apply (present : state.frontier.queue ≠ []) : loop plan limit 0 state =
    .error (.error (.iterationLimitExceeded limit)) (state.reached limit) := by
  have waits : Frontier.Service.hasNext state.frontier = true := Frontier.hasNext_iff.mpr present
  simp only [loop, Step.bind_apply, Step.get_apply, if_pos waits]
  rfl

/-- Where a node waits, it is processed, and the loop goes on as long as something better can be
found. -/
theorem loop_succ_apply (next : state.frontier.next? = some (node, frontier)) (budget : ℕ) :
    loop plan limit (budget + 1) state = match process plan node { state with frontier } with
      | .ok _ after => if after.Settled then .ok () after else loop plan limit budget after
      | .error failure after => .error failure after := by
  obtain ⟨queue, -⟩ := Frontier.next?_eq_some_iff.mp next
  have waits : Frontier.Service.hasNext state.frontier = true :=
    Frontier.hasNext_iff.mpr (queue ▸ List.cons_ne_nil _ _)
  have served : Frontier.Service.next state.frontier = .ok (node, frontier) := by
    simp only [Frontier.Service.next, next]
  rw [loop, Step.bind_apply, Step.get_apply]
  dsimp only
  rw [if_pos waits, served]
  change (process plan node >>= _) { state with frontier } = _
  rw [Step.bind_apply]
  cases process plan node { state with frontier } with
  | error failure after => rfl
  | ok _ after =>
    simp only [Step.bind_apply, Step.get_apply]
    by_cases settled : after.Settled
    · rw [if_pos settled, if_pos (show after.upperBound ≤ after.lowerBound from settled)]
      rfl
    · rw [if_neg settled, if_neg (show ¬ after.upperBound ≤ after.lowerBound from settled)]

end Loop

theorem announce_eq (plan : Plan) (limit : ℕ) (start : State Frontier) :
    announce plan limit start = .ok () (start.announced plan limit) := rfl

/-- Planting the root. -/
theorem plant_leads (guarded : plan.Guarded excuse) :
    Leads excuse (plant plan) start fun _ after => ∃ root,
      (root.Drawn plan.inst ∧ start.tree.Drafted none (.unassigned plan.inst.size) root) ∧
        after = start.planted root := by
  unfold plant
  apply Leads.modify_bind
  apply Leads.bind _ (create_leads guarded List.length_replicate)
  rintro _ _ ⟨root, ⟨drawn, drafted⟩, rfl⟩
  exact Leads.of_eq rfl ⟨root, ⟨drawn, drafted⟩, rfl⟩

/-- Where the loop begins, a root was planted. -/
theorem exists_planted_of_guarded (guarded : plan.Guarded excuse)
    {announced planted : State Frontier}
    (announces : announce plan limit start = .ok () announced)
    (plants : plant plan announced = .ok () planted) : ∃ root,
      (root.Drawn plan.inst ∧ start.tree.Drafted none (.unassigned plan.inst.size) root) ∧
        planted = (start.announced plan limit).planted root := by
  rw [announce_eq] at announces
  cases announces
  exact (plant_leads guarded).of_ok plants

theorem exists_planted (tame : plan.Tame excuse) {announced planted : State Frontier}
    (announces : announce plan limit start = .ok () announced)
    (plants : plant plan announced = .ok () planted) : ∃ root,
      (root.Drawn plan.inst ∧ start.tree.Drafted none (.unassigned plan.inst.size) root) ∧
        planted = (start.announced plan limit).planted root :=
  exists_planted_of_guarded tame.guarded announces plants

theorem Turn.waiting {node : Node} {frontier : Frontier} {before after : State Frontier}
    (turn : Turn plan node { before with frontier } after) (waiting : before.Waiting plan.inst)
    (next : before.frontier.queue = node :: frontier.queue) : after.Waiting plan.inst := by
  obtain ⟨children, perm, born⟩ := turn.exists_children
  intro other member
  rcases List.mem_append.mp (perm.mem_iff.mp member) with joined | stayed
  · obtain ⟨child, listed, rfl⟩ := List.mem_map.mp joined
    exact ⟨(born child listed).1.withStatus _, rfl⟩
  · exact waiting other (next ▸ List.mem_cons_of_mem _ stayed)

/-- Only drawn nodes wait at the head of the loop. -/
theorem Head.waiting_of_guarded (guarded : plan.Guarded excuse)
    (head : Head plan limit start count state) : state.Waiting plan.inst := by
  induction head with
  | root announces plants =>
    obtain ⟨root, ⟨drawn, -⟩, rfl⟩ := exists_planted_of_guarded guarded announces plants
    intro node member
    obtain rfl := List.mem_singleton.mp member
    exact ⟨drawn.withStatus _, rfl⟩
  | turn head within unsettled next processes ih =>
    obtain ⟨queue, -⟩ := Frontier.next?_eq_some_iff.mp next
    obtain ⟨drawn, waited⟩ := ih _ (queue ▸ List.mem_cons_self ..)
    exact ((process_leads guarded drawn waited).of_ok processes).waiting ih queue

theorem Head.waiting (tame : plan.Tame excuse) (head : Head plan limit start count state) :
    state.Waiting plan.inst := head.waiting_of_guarded tame.guarded

/-- Between two heads, the first node that waits has its turn. -/
theorem Head.exists_turn_of_guarded (guarded : plan.Guarded excuse) {before after : State Frontier}
    {node : Node} {frontier : Frontier} (head : Head plan limit start count before)
    (next : before.frontier.next? = some (node, frontier))
    (processes : process plan node { before with frontier } = .ok () after) :
    before.frontier.queue = node :: frontier.queue ∧
      frontier.ranking = before.frontier.ranking ∧ node.Drawn plan.inst ∧
        Turn plan node { before with frontier } after := by
  obtain ⟨queue, ranking⟩ := Frontier.next?_eq_some_iff.mp next
  obtain ⟨drawn, waited⟩ := head.waiting_of_guarded guarded _ (queue ▸ List.mem_cons_self ..)
  exact ⟨queue, ranking, drawn, (process_leads guarded drawn waited).of_ok processes⟩

theorem Head.exists_turn (tame : plan.Tame excuse) {before after : State Frontier} {node : Node}
    {frontier : Frontier} (head : Head plan limit start count before)
    (next : before.frontier.next? = some (node, frontier))
    (processes : process plan node { before with frontier } = .ok () after) :
    before.frontier.queue = node :: frontier.queue ∧
      frontier.ranking = before.frontier.ranking ∧ node.Drawn plan.inst ∧
        Turn plan node { before with frontier } after :=
  head.exists_turn_of_guarded tame.guarded next processes

/-- What the root establishes and every turn keeps holds at all heads. -/
theorem Head.invariant_of_guarded (guarded : plan.Guarded excuse) (kept : ℕ → State Frontier → Prop)
    (rooted : ∀ root, root.Drawn plan.inst →
      start.tree.Drafted none (.unassigned plan.inst.size) root →
        kept 0 ((start.announced plan limit).planted root))
    (turned : ∀ count before node frontier after, kept count before →
      before.Waiting plan.inst → count < limit → (count = 0 ∨ ¬ before.Settled) →
        before.frontier.queue = node :: frontier.queue →
          frontier.ranking = before.frontier.ranking →
            Turn plan node { before with frontier } after → kept (count + 1) after)
    (head : Head plan limit start count state) : kept count state := by
  induction head with
  | root announces plants =>
    obtain ⟨root, ⟨drawn, drafted⟩, rfl⟩ := exists_planted_of_guarded guarded announces plants
    exact rooted root drawn drafted
  | turn head within unsettled next processes ih =>
    obtain ⟨queue, ranking, -, turn⟩ := head.exists_turn_of_guarded guarded next processes
    exact turned _ _ _ _ _ ih (head.waiting_of_guarded guarded) within unsettled queue ranking turn

theorem Head.invariant (tame : plan.Tame excuse) (kept : ℕ → State Frontier → Prop)
    (rooted : ∀ root, root.Drawn plan.inst →
      start.tree.Drafted none (.unassigned plan.inst.size) root →
        kept 0 ((start.announced plan limit).planted root))
    (turned : ∀ count before node frontier after, kept count before →
      before.Waiting plan.inst → count < limit → (count = 0 ∨ ¬ before.Settled) →
        before.frontier.queue = node :: frontier.queue →
          frontier.ranking = before.frontier.ranking →
            Turn plan node { before with frontier } after → kept (count + 1) after)
    (head : Head plan limit start count state) : kept count state :=
  head.invariant_of_guarded tame.guarded kept rooted turned

theorem Head.count_le (head : Head plan limit start count state) : count ≤ limit := by
  cases head with
  | root _ _ => exact Nat.zero_le limit
  | turn _ within _ _ _ => exact within

/-- Every head is on the run: the loop comes by there with the rest of its budget. -/
theorem Head.resumes (head : Head plan limit start count state) : ∃ announced planted,
    announce plan limit start = .ok () announced ∧ plant plan announced = .ok () planted ∧
      loop plan limit limit planted =
        if 0 < count ∧ state.Settled then .ok () state
        else loop plan limit (limit - count) state := by
  induction head with
  | @root announced planted announces plants =>
    exact ⟨announced, planted, announces, plants, (if_neg fun absurd => absurd.1.false).symm⟩
  | @turn count before after node frontier head within unsettled next processes ih =>
    obtain ⟨announced, planted, announces, plants, run⟩ := ih
    refine ⟨announced, planted, announces, plants, run.trans ?_⟩
    rw [if_neg (State.not_stopped_iff.mpr unsettled),
      show limit - count = limit - (count + 1) + 1 by omega, loop_succ_apply next, processes]
    simp only [Nat.succ_pos, true_and]

/-- A head where the search is over: no node waits, or the incumbent is optimal. -/
def Over (plan : Plan) (limit : ℕ) (start last : State Frontier) : Prop :=
  ∃ count, Head plan limit start count last ∧
    (last.frontier.queue = [] ∨ 0 < count ∧ last.Settled)

/-- A head where a node waits and the budget is used up. -/
def Exhausted (plan : Plan) (limit : ℕ) (start last : State Frontier) : Prop :=
  Head plan limit start limit last ∧ last.frontier.queue ≠ [] ∧ (limit = 0 ∨ ¬ last.Settled)

/-- How a part of a search ends that goes on from some head to the end of the loop. -/
inductive Ending (plan : Plan) (excuse : Failure → Prop) (limit : ℕ) (start : State Frontier) :
    EStateM.Result Failure (State Frontier) Unit → Prop
  | completed {last : State Frontier} (isOver : Over plan limit start last) :
      Ending plan excuse limit start (.ok () last)
  | exhausted {last : State Frontier} (exhausted : Exhausted plan limit start last) :
      Ending plan excuse limit start
        (.error (.error (.iterationLimitExceeded limit)) (last.reached limit))
  | failed {failure : Failure} {last : State Frontier} (excused : excuse failure) :
      Ending plan excuse limit start (.error failure last)

/-- The loop goes from head to head. -/
theorem loop_ending (guarded : plan.Guarded excuse) {budget : ℕ}
    (head : Head plan limit start count state) (share : count + budget = limit)
    (unsettled : count = 0 ∨ ¬ state.Settled) :
    Ending plan excuse limit start (loop plan limit budget state) := by
  -- The count and the budget share the limit, so one grows as the other drops.
  induction budget generalizing count state with
  | zero =>
    obtain rfl : count = limit := share
    by_cases nothing : state.frontier.queue = []
    · rw [loop_of_empty nothing]
      exact Ending.completed ⟨count, head, Or.inl nothing⟩
    · rw [loop_zero_apply nothing]
      exact Ending.exhausted ⟨head, nothing, unsettled⟩
  | succ budget ih =>
    cases next : state.frontier.next? with
    | none =>
      have nothing := Frontier.next?_eq_none_iff.mp next
      rw [loop_of_empty nothing]
      exact Ending.completed ⟨count, head, Or.inl nothing⟩
    | some pair =>
      obtain ⟨node, frontier⟩ := pair
      rw [loop_succ_apply next]
      obtain ⟨queue, -⟩ := Frontier.next?_eq_some_iff.mp next
      obtain ⟨drawn, waited⟩ := head.waiting_of_guarded guarded _ (queue ▸ List.mem_cons_self ..)
      have leads : Leads excuse (process plan node) { state with frontier } _ :=
        process_leads guarded drawn waited
      cases processes : process plan node { state with frontier } with
      | error failure after =>
        exact Ending.failed (leads.of_error processes)
      | ok _ after =>
        have further := head.turn (by omega) unsettled next processes
        dsimp only
        split_ifs with settled
        · exact Ending.completed ⟨count + 1, further, Or.inr ⟨Nat.succ_pos _, settled⟩⟩
        · exact ih further (by omega) (Or.inr settled)

end Knapsack.Search

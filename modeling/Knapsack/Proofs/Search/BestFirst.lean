import Knapsack.Proofs.Search.Bounds
import Knapsack.Proofs.Search.Comparison
import Knapsack.Proofs.Search.Termination

/-! # Best-first search

When the node of greatest value leaves first, a feasible node leaves with exactly the value of the
upper bound, since the bound is the greatest value of a feasible node that waits. While something
better than the incumbent is left, such a node is better than the incumbent, so it is never pruned.
An integral one becomes the incumbent, meets the bound of everything behind it, and ends the search.
Nothing of this depends on how nodes are branched on.
-/

namespace Knapsack

namespace Frontier

variable {frontier : Frontier} {node : Node} {rest : List Node}

/-- Of two nodes in a best-first queue, the later one is worth no more. -/
theorem value_le_of_bestBound {earlier later : Node}
    (behind : (Ranking.bestBound later earlier).isLE = true) : later.value ≤ earlier.value :=
  Nat.isLE_compare.mp (Ordering.isLE_left_of_isLE_then behind)

/-- A feasible node that is first in a best-first queue is worth the upper bound. -/
theorem upperBound_eq_of_first (sorted : Sorted .bestBound frontier.queue)
    (first : frontier.queue = node :: rest) (feasible : node.feasible = true) :
    frontier.upperBound = .finite node.value := by
  apply le_antisymm
  · apply upperBound_le_iff.mpr
    intro other waits _
    rw [first] at sorted waits
    rcases List.mem_cons.mp waits with rfl | later
    · exact le_refl _
    · exact Bound.finite_le_finite.mpr
        (value_le_of_bestBound ((List.pairwise_cons.mp sorted).1 other later))
  · exact le_upperBound (first ▸ List.mem_cons_self ..) feasible

end Frontier

namespace Search

variable {plan : Plan} {excuse : Failure → Prop} {queue : List Node} {limit count : ℕ}
  {node : Node} {rest : Frontier} {before after : State Frontier}

/-- At every head the upper bound is that of what is open, and the solutions are lawful. -/
theorem Head.current_of_guarded (guarded : plan.Guarded excuse) {frontier : Frontier}
    (head : Head plan limit (.initial plan frontier) count before) :
    before.upperBound = before.openBound ∧ before.solutions.Lawful plan.inst := by
  refine head.invariant_of_guarded guarded
    (fun _ state => state.upperBound = state.openBound ∧ state.solutions.Lawful plan.inst) ?_ ?_
  · intro root _ _
    exact ⟨rfl, SolutionSet.lawful_empty plan.inst plan.config.keepAll⟩
  · rintro count before node rest after ⟨-, lawful⟩ waiting _ _ next _ turn
    obtain ⟨drawn, -⟩ := waiting node (next ▸ List.mem_cons_self ..)
    exact ⟨turn.upperBound_eq, (turn.lawful drawn lawful).1⟩

/-- Where a best-first search goes on, a feasible node that is next is worth the upper bound, which
is more than the incumbent. -/
theorem Head.next_is_best (guarded : plan.Guarded excuse)
    (head : Head plan limit (.initial plan ⟨.bestBound, queue⟩) count before)
    (unsettled : count = 0 ∨ ¬ before.Settled) (next : before.frontier.queue = node :: rest.queue)
    (feasible : node.feasible = true) :
    .finite node.value = before.upperBound ∧ before.lowerBound < .finite node.value := by
  obtain ⟨-, sorted⟩ := head.sorted_of_guarded guarded Ranking.BuiltIn.bestBound.regular.order
  have first := Frontier.upperBound_eq_of_first sorted next feasible
  have current := (head.current_of_guarded guarded).1
  rw [State.openBound_eq, first] at current
  have beaten : before.lowerBound < .finite node.value := by
    rcases unsettled with rfl | unsettled
    · cases head with
      | root announces plants =>
        obtain ⟨root, -, rfl⟩ := exists_planted_of_guarded guarded announces plants
        exact ⟨Bound.negInfinity_le _, id⟩
    · apply not_le.mp
      intro dominated
      rw [max_eq_right dominated] at current
      exact unsettled (current ▸ le_refl _ : before.upperBound ≤ before.lowerBound)
  exact ⟨by rw [current, max_eq_left beaten.1], beaten⟩

/-- An integral node that is first in a best-first queue settles the search. -/
theorem settled_of_feasible (sorted : Frontier.Sorted .bestBound (node :: rest.queue))
    (drawn : node.Drawn plan.inst) (lawful : before.solutions.Lawful plan.inst)
    (feasible : node.feasible = true) (integral : node.relaxed.isIntegral = true)
    (found : List Solution) :
    (({ before with frontier := rest }.recorded node.relaxed node.value).closed node .feasible
      found).Settled := by
  have packs := drawn.packs feasible integral
  have raised := lowerBound_recorded lawful packs drawn.worth
  apply max_le_iff.mpr
  constructor
  · apply Frontier.upperBound_le_iff.mpr
    intro other waits _
    have behind := (List.pairwise_cons.mp sorted).1 other waits
    apply le_trans (Bound.finite_le_finite.mpr (Frontier.value_le_of_bestBound behind))
    exact raised ▸ le_max_right _ _
  · exact le_refl _

/-- What a turn of a best-first search amounts to: the node is not pruned, and it is worth the upper
bound unless it is infeasible. A feasible integral node settles the search. -/
structure Useful (node : Node) (status : Status) (before after : State Frontier) : Prop where
  processed : processedIn after.events = processedIn before.events ++ [{ node with status }]
  kept : status ≠ .pruned
  bound : status = .branched ∨ status = .feasible → .finite node.value = before.upperBound
  settles : status = .feasible → after.Settled

/-- Every turn of a best-first search is useful. -/
theorem Head.useful (guarded : plan.Guarded excuse)
    (head : Head plan limit (.initial plan ⟨.bestBound, queue⟩) count before)
    (unsettled : count = 0 ∨ ¬ before.Settled)
    (next : before.frontier.next? = some (node, rest))
    (processes : process plan node { before with frontier := rest } = .ok () after) :
    ∃ status, Useful node status before after := by
  obtain ⟨waits, -, drawn, turn⟩ := head.exists_turn_of_guarded guarded next processes
  have worth := head.next_is_best guarded unsettled waits
  obtain ⟨-, sorted⟩ := head.sorted_of_guarded guarded Ranking.BuiltIn.bestBound.regular.order
  obtain ⟨-, lawful⟩ := head.current_of_guarded guarded
  obtain @⟨status, found, middle, classified⟩ := turn
  have processed := processedIn_closed middle node status found
  rw [classified.processedIn_eq] at processed
  refine ⟨status, processed, ?_, ?_, ?_⟩
  · rintro rfl
    cases classified with
    | pruned feasible dominated => exact not_lt.mpr dominated (worth feasible).2
  · intro promising
    apply And.left (worth _)
    cases classified with
    | infeasible _ => simp at promising
    | pruned _ _ => simp at promising
    | feasible feasible _ _ => exact feasible
    | branched feasible _ _ _ _ _ _ _ _ => exact feasible
  · rintro rfl
    rw [waits] at sorted
    cases classified with
    | feasible feasible _ integral =>
      exact settled_of_feasible sorted drawn lawful feasible integral []

/-- No node of a best-first search was pruned so far, and only the last one may have been feasible,
in which case the search is settled. -/
structure Thrifty (count : ℕ) (state : State Frontier) : Prop where
  kept : ∀ node ∈ processedIn state.events, node.status ≠ .pruned
  early : ∀ node ∈ (processedIn state.events).dropLast, node.status ≠ .feasible
  final : ∀ node ∈ processedIn state.events, node.status = .feasible → 0 < count ∧ state.Settled

/-- A useful turn keeps this. -/
theorem Thrifty.turn {status : Status} (thrifty : Thrifty count before)
    (unsettled : count = 0 ∨ ¬ before.Settled) (useful : Useful node status before after) :
    Thrifty (count + 1) after := by
  have none : ∀ earlier ∈ processedIn before.events, earlier.status ≠ .feasible := by
    intro earlier member feasible
    exact State.not_stopped_iff.mpr unsettled (thrifty.final earlier member feasible)
  refine ⟨?_, ?_, ?_⟩ <;> rw [useful.processed]
  · intro other member
    rcases List.mem_append.mp member with earlier | latest
    · exact thrifty.kept other earlier
    · obtain rfl := List.mem_singleton.mp latest
      exact useful.kept
  · rw [List.dropLast_concat]
    exact none
  · intro other member feasible
    rcases List.mem_append.mp member with earlier | latest
    · exact absurd feasible (none other earlier)
    · obtain rfl := List.mem_singleton.mp latest
      exact ⟨Nat.succ_pos _, useful.settles feasible⟩

theorem Head.thrifty (guarded : plan.Guarded excuse) {state : State Frontier}
    (head : Head plan limit (.initial plan ⟨.bestBound, queue⟩) count state) :
    Thrifty count state := by
  induction head with
  | root announces plants =>
    obtain ⟨root, -, rfl⟩ := exists_planted_of_guarded guarded announces plants
    have none : processedIn (((State.initial plan ⟨.bestBound, queue⟩).announced plan
        limit).planted root).events = [] := by
      rw [State.events_opening]
      rfl
    constructor <;> simp [none]
  | turn head _ unsettled next processes ih =>
    obtain ⟨status, useful⟩ := head.useful guarded unsettled next processes
    exact ih.turn unsettled useful

/-- Best-first search does no useless work, however nodes are branched on and whatever the heuristic
finds. No node that the loop takes is pruned. When the node is branched on or feasible, its value is
the upper bound that held before, which is at least the optimum if branching shares out what a node
allows. When it is feasible, the search comes out right after it, so a feasible node is the last one
of its search and no search that is interrupted has one. -/
theorem best_first_wastes_nothing (honest : plan.Honest) (queue : List Node) (limit : ℕ) :
    (∀ count before node rest after,
      Head plan limit (.initial plan ⟨.bestBound, queue⟩) count before → count < limit →
        (count = 0 ∨ ¬ before.Settled) → before.frontier.next? = some (node, rest) →
          process plan node { before with frontier := rest } = .ok () after →
            ∃ status, processedIn after.events =
                processedIn before.events ++ [{ node with status }] ∧ status ≠ .pruned ∧
              (status = .branched ∨ status = .feasible → .finite node.value = before.upperBound ∧
                (plan.Faithful → best plan.inst ≤ .finite node.value)) ∧
              (status = .feasible → search plan limit (.initial plan ⟨.bestBound, queue⟩) =
                .ok after.solutions.best? after.completed)) ∧
    (∀ best? last, search plan limit (.initial plan ⟨.bestBound, queue⟩) = .ok best? last →
      (∀ node ∈ processedIn last.events, node.status ≠ .pruned) ∧
        ∀ node ∈ (processedIn last.events).dropLast, node.status ≠ .feasible) ∧
    ∀ error last, search plan limit (.initial plan ⟨.bestBound, queue⟩) =
        .error (.error error) last →
      (∀ node ∈ processedIn last.events, node.status ≠ .pruned ∧ node.status ≠ .feasible) ∨
        plan.Refuses (.error error) ∧ ¬ plan.BuiltIn := by
  refine ⟨?_, search_leaves_of_honest _ _ honest ?_ ?_⟩
  · intro count before node rest after head within unsettled next processes
    obtain ⟨status, useful⟩ := head.useful honest.guarded unsettled next processes
    refine ⟨status, useful.processed, useful.kept, ?_, ?_⟩
    · intro promising
      refine ⟨useful.bound promising, fun faithful => ?_⟩
      have covered := head.covered faithful.tame
        (SolutionSet.lawful_empty plan.inst plan.config.keepAll)
      rw [useful.bound promising, (head.current_of_guarded honest.guarded).1]
      exact covered.best_le (head.waiting_of_guarded honest.guarded)
    · intro feasible
      have further := head.turn within unsettled next processes
      apply Over.search_eq State.initial_unfinished
      exact ⟨count + 1, further, Or.inr ⟨Nat.succ_pos _, useful.settles feasible⟩⟩
  · rintro last ⟨count, head, -⟩
    have thrifty := head.thrifty honest.guarded
    rw [processedIn_of_ended State.events_completed]
    exact ⟨thrifty.kept, thrifty.early⟩
  · rintro last ⟨head, -, unsettled⟩
    have thrifty := head.thrifty honest.guarded
    rw [processedIn_of_ended (State.events_interrupted limit)]
    refine fun node member => ⟨thrifty.kept node member, fun feasible => ?_⟩
    exact State.not_stopped_iff.mpr unsettled (thrifty.final node member feasible)

theorem best_first_wastes_nothing_tight : Plan.tight.Honest ∧
    ((∀ count before node rest after,
      Head .tight 15 (.initial .tight ⟨.bestBound, []⟩) count before → count < 15 →
        (count = 0 ∨ ¬ before.Settled) → before.frontier.next? = some (node, rest) →
          process .tight node { before with frontier := rest } = .ok () after →
            ∃ status, processedIn after.events =
                processedIn before.events ++ [{ node with status }] ∧ status ≠ .pruned ∧
              (status = .branched ∨ status = .feasible → .finite node.value = before.upperBound ∧
                (Plan.tight.Faithful → best Plan.tight.inst ≤ .finite node.value)) ∧
              (status = .feasible → search .tight 15 (.initial .tight ⟨.bestBound, []⟩) =
                .ok after.solutions.best? after.completed)) ∧
    ∃ best? last, search .tight 15 (.initial .tight ⟨.bestBound, []⟩) = .ok best? last ∧
      (∀ node ∈ processedIn last.events, node.status ≠ .pruned) ∧
        ∀ node ∈ (processedIn last.events).dropLast, node.status ≠ .feasible) := by
  obtain ⟨turns, comesOut, -⟩ :=
    best_first_wastes_nothing Plan.tight_builtIn.faithful.honest [] 15
  obtain ⟨best?, last, answers⟩ := tight_isOk (.empty .bestBound)
  exact ⟨Plan.tight_builtIn.faithful.honest, turns, best?, last, answers,
    comesOut best? last answers⟩

end Search

end Knapsack

import Knapsack.Proofs.Search.Termination

/-! # No improving load is lost

Every load that is worth more than the incumbent is below exactly one of the nodes that wait. That
node is feasible and worth no less than the load, so nothing that could still improve the incumbent
is hidden from the search.
-/

namespace Knapsack.Search

variable {plan : Plan} {inst : Instance} {state : State Frontier} {node : Node}

/-- Of nodes that are apart, only one has a given load below it. -/
theorem filter_allows_eq {queue : List Node} {chosen : Finset ℕ}
    (apart : queue.Pairwise fun a b => a.fixation.Incompatible b.fixation) (member : node ∈ queue)
    (allowed : node.fixation.allows chosen = true) :
    queue.filter (·.fixation.allows chosen) = [node] := by
  induction queue with
  | nil => exact nomatch member
  | cons first rest ih =>
    obtain ⟨fromFirst, others⟩ := List.pairwise_cons.mp apart
    rcases List.mem_cons.mp member with rfl | later
    · rw [List.filter_cons, if_pos allowed, List.filter_eq_nil_iff.mpr]
      intro other waits
      rw [(fromFirst other waits).not_allows allowed]
      decide
    · have unallowed := (fromFirst node later).symm.not_allows allowed
      rw [List.filter_cons, if_neg (Bool.eq_false_iff.mp unallowed), ih others later]

/-- The nodes that wait disagree pairwise on an item that both fix, and every load that is worth
more than the incumbent is below exactly one of them, which is feasible and worth no less. -/
def KeepsImproving (inst : Instance) (state : State Frontier) : Prop :=
  state.frontier.queue.Pairwise (fun a b => a.fixation.Incompatible b.fixation) ∧
    ∀ chosen ∈ inst.loads, state.lowerBound < .finite (.ofNat (inst.valueOf chosen)) →
      ∃ node, state.frontier.queue.filter (·.fixation.allows chosen) = [node] ∧
        node.feasible = true ∧ Fraction.ofNat (inst.valueOf chosen) ≤ node.value

theorem Covered.keepsImproving (covered : Covered inst state) (waiting : state.Waiting inst) :
    KeepsImproving inst state := by
  refine ⟨covered.apart, fun chosen load improving => ?_⟩
  obtain ⟨node, waits, allowed⟩ := covered.cover chosen load improving
  obtain ⟨feasible, bound⟩ := (waiting node waits).1.valueOf_le load allowed
  exact ⟨node, filter_allows_eq covered.apart waits allowed, feasible, bound⟩

/-- Under any ranking, with the strategies of the library and with any others that are faithful, no
improving load is lost at any head of the loop, nor at the end of a search, be it over or
interrupted. Only an error of the branching itself, which those of the library never raise, leaves a
node half split. -/
theorem improving_loads_are_kept (faithful : plan.Faithful) (frontier : Frontier) (limit : ℕ) :
    (∀ count state, Head plan limit (.initial plan frontier) count state →
      KeepsImproving plan.inst state) ∧
    (∀ best? last, search plan limit (.initial plan frontier) = .ok best? last →
      KeepsImproving plan.inst last) ∧
    ∀ error last, search plan limit (.initial plan frontier) = .error (.error error) last →
      KeepsImproving plan.inst last ∨ plan.Refuses (.error error) ∧ ¬ plan.BuiltIn := by
  have kept : ∀ count state, Head plan limit (.initial plan frontier) count state →
      KeepsImproving plan.inst state := fun count state head =>
    (head.covered faithful.tame
      (SolutionSet.lawful_empty plan.inst plan.config.keepAll)).keepsImproving
        (head.waiting faithful.tame)
  refine ⟨kept, search_leaves_of_honest _ _ faithful.honest ?_ ?_⟩
  · rintro last ⟨count, head, -⟩
    have still := kept count last head
    exact still
  · rintro last ⟨head, -⟩
    have still := kept limit last head
    exact still

theorem improving_loads_are_kept_tight : Plan.tight.Faithful ∧
    (∀ count state, Head .tight 15 (.initial .tight (.empty .bestBound)) count state →
      KeepsImproving Plan.tight.inst state) ∧
    (∃ best? last, search .tight 15 (.initial .tight (.empty .bestBound)) = .ok best? last ∧
      (∃ node ∈ processedIn last.events, node.status = .branched) ∧
        KeepsImproving Plan.tight.inst last) ∧
    ∃ last, search .tight 0 (.initial .tight (.empty .bestBound)) =
        .error (.error (.iterationLimitExceeded 0)) last ∧
      last.frontier.queue ≠ [] ∧ KeepsImproving Plan.tight.inst last := by
  have faithful := Plan.tight_builtIn.faithful
  obtain ⟨heads, comesOut, -⟩ := improving_loads_are_kept faithful (.empty .bestBound) 15
  obtain ⟨-, -, interrupts⟩ := improving_loads_are_kept faithful (.empty .bestBound) 0
  obtain ⟨best?, last, answers⟩ := tight_isOk (.empty .bestBound)
  obtain ⟨cut, waits, refuses⟩ := tight_interrupted (.empty .bestBound)
  refine ⟨faithful, heads, ⟨best?, last, answers, tight_branches answers,
    comesOut best? last answers⟩, cut.interrupted 0, refuses, waits, ?_⟩
  exact (interrupts _ _ refuses).resolve_right fun refused => refused.2 Plan.tight_builtIn

end Knapsack.Search

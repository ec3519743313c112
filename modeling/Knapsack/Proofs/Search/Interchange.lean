import Knapsack.Proofs.Search.Lockstep

/-! # The branching rules are interchangeable

The greedy relaxation cuts at most one item, so there is nothing to choose from: the fractional item
of lowest index is the only one, and no other can be nearer to one half. Two searches that differ in
their branching rule alone therefore go in lockstep, with one set of solutions.
-/

namespace Knapsack.Search

variable {plan : Plan}

private theorem tolerates_mostFractional (greedy : plan.relaxation = .greedy)
    (first : plan.branching = .firstFractional) : plan.Tolerates .mostFractional
      (.ofSolutions plan.inst Eq (congrArg SolutionSet.incumbent?)) := by
  refine Plan.Tolerates.of_greedy greedy ?_ (fun _ _ => Solution.addsAlike_eq)
    fun _ _ _ _ _ _ _ => Solution.addsAlike_eq
  intro call node drawn
  rw [first]
  exact Branching.firstFractional_eq_mostFractional drawn call

private theorem eq_of_abreast {α : Type} {inst : Instance}
    {here there : EStateM.Result Failure (State Frontier) α}
    (abreast : Abreast (State.Kin (.ofSolutions inst Eq (congrArg SolutionSet.incumbent?)))
      here there) : here = there := by
  cases abreast with
  | ok relates =>
    obtain ⟨⟨rfl, -⟩, rfl, rfl⟩ := relates
    rfl
  | error relates =>
    obtain ⟨⟨rfl, -⟩, rfl, rfl⟩ := relates
    rfl

/-- Under the greedy relaxation, both rules that branch on a fractional item make the same search,
from any state, with any heuristic, ranking and budget: it comes out with the same result and leaves
the same tree, statistics, bounds, solutions and history behind. -/
theorem branching_rules_agree (inst : Instance) (heuristic : Heuristic) (config : Config)
    (limit : ℕ) (start : State Frontier) :
    search ⟨inst, .greedy, .firstFractional, heuristic, config⟩ limit start =
      search ⟨inst, .greedy, .mostFractional, heuristic, config⟩ limit start ∧
    maximize ⟨inst, .greedy, .firstFractional, heuristic, config⟩ start =
      maximize ⟨inst, .greedy, .mostFractional, heuristic, config⟩ start := by
  have same : ∀ limit, search ⟨inst, .greedy, .firstFractional, heuristic, config⟩ limit start =
      search ⟨inst, .greedy, .mostFractional, heuristic, config⟩ limit start := by
    intro limit
    by_cases finished : start.phase = .finished
    · rw [search_again finished, search_again finished]
    · rw [search_cleared finished, search_cleared finished]
      apply eq_of_abreast
      apply matches_search (tolerates_mostFractional rfl rfl) limit
      exact .intro ⟨rfl, fun _ absent => nomatch absent⟩ rfl rfl
  refine ⟨same limit, ?_⟩
  rw [maximize_apply, maximize_apply, same]

end Knapsack.Search

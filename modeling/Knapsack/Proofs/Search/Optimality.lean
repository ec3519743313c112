import Knapsack.Proofs.Search.Bounds

/-! # A search that comes out is optimal

The incumbent at the end of a search that was not interrupted packs a load of the greatest value,
and both bounds are that value.
-/

namespace Knapsack.Search

variable {plan : Plan} {frontier : Frontier} {before after : State Frontier} {limit : ℕ}
  {best? : Option Solution}

/-- Whenever a call of a search comes out, it comes out with a recorded integral solution that
respects the capacity and is worth the optimum, and both bounds are the optimum. -/
theorem search_finds_optimum (builtIn : plan.BuiltIn) (session : Session plan frontier before)
    (answers : search plan limit before = .ok best? after) :
    ∃ solution, best? = some solution ∧ solution.inst = plan.inst ∧ solution.isIntegral = true ∧
      solution.isFeasible = .ok true ∧ solution ∈ after.solutions.recorded ∧
        solution.value = .ok (.ofNat plan.inst.optimum) ∧
          after.lowerBound = .finite (.ofNat plan.inst.optimum) ∧
            after.upperBound = .finite (.ofNat plan.inst.optimum) := by
  have ends := search_ends builtIn limit (session.cases builtIn)
  rw [answers] at ends
  obtain ⟨rfl, budget, head, isOver, rfl⟩ := ends
  have reached : head.lowerBound = best plan.inst := isOver.lowerBound_eq builtIn.tame
  obtain ⟨count, isHead, -⟩ := isOver
  have lawful := (isHead.covered builtIn.tame
    (SolutionSet.lawful_empty plan.inst plan.config.keepAll)).lawful
  obtain ⟨incumbent, chosen, value⟩ := SolutionSet.lowerBound_eq_finite_iff.mp reached
  obtain ⟨recorded, worth⟩ := lawful.incumbent incumbent chosen
  have packs := lawful.packs _ recorded
  exact ⟨incumbent.solution, congrArg (Option.map Incumbent.solution) chosen, packs.about,
    packs.integral, packs.feasible, recorded, value ▸ worth, reached, reached⟩

theorem search_finds_optimum_tight :
    ∃ best? last, search .tight 15 (.initial .tight (.empty .bestBound)) = .ok best? last ∧
      (∃ node ∈ processedIn last.events, node.status = .branched) ∧
      ∃ solution, best? = some solution ∧ solution.inst = Plan.tight.inst ∧
        solution.isIntegral = true ∧ solution.isFeasible = .ok true ∧
          solution ∈ last.solutions.recorded ∧
            solution.value = .ok (.ofNat Plan.tight.inst.optimum) ∧
              last.lowerBound = .finite (.ofNat Plan.tight.inst.optimum) ∧
                last.upperBound = .finite (.ofNat Plan.tight.inst.optimum) := by
  obtain ⟨best?, last, answers⟩ := tight_isOk (.empty .bestBound)
  exact ⟨best?, last, answers, tight_branches answers,
    search_finds_optimum Plan.tight_builtIn Session.opened answers⟩

end Knapsack.Search

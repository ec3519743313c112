import Knapsack.Search.State
import Knapsack.Proofs.Branching.Halves
import Knapsack.Proofs.Heuristic.Completion

/-! # What a search may expect of its strategies

The strategies that come with the library keep their contracts, and they fail only when there are
too many items for the totals of a solution to be representable. Other strategies are honest when
the heuristic yields solutions of the instance at hand, and they are faithful when branching shares
out what a node allows as well.
-/

namespace Knapsack.Search.Plan

variable {plan : Plan}

/-- A plan with strategies of the library; the ranking is that of the frontier, which is free. -/
structure BuiltIn (plan : Plan) : Prop where
  relaxation : plan.relaxation = .greedy
  branching : plan.branching = .firstFractional ∨ plan.branching = .mostFractional
  heuristic : plan.heuristic = .none ∨ plan.heuristic = .completion

/-- A plan with the greedy relaxation whose other strategies may be anything, as long as children
share out what their parent allows and solutions are about the instance. -/
structure Faithful (plan : Plan) : Prop where
  relaxation : plan.relaxation = .greedy
  shares : ∀ call node fixations, node.Drawn plan.inst → node.feasible = true →
    node.relaxed.isIntegral = false → plan.branching call node = .ok fixations →
      node.fixation.Partition fixations
  about : ∀ call node harvest, node.Drawn plan.inst →
    plan.heuristic call plan.inst node = .ok harvest →
      ∀ solution ∈ harvest.solutions, solution.inst = plan.inst

/-- A plan with the greedy relaxation whose heuristic yields solutions of the instance. Nodes may be
branched on in any way: nothing is said about what children share out. -/
structure Honest (plan : Plan) : Prop where
  relaxation : plan.relaxation = .greedy
  about : ∀ call node harvest, node.Drawn plan.inst →
    plan.heuristic call plan.inst node = .ok harvest →
      ∀ solution ∈ harvest.solutions, solution.inst = plan.inst

theorem Faithful.honest (faithful : plan.Faithful) : plan.Honest where
  relaxation := faithful.relaxation
  about := faithful.about

/-- An honest plan whose failures all have an excuse. -/
structure Guarded (excuse : Failure → Prop) (plan : Plan) : Prop extends Honest plan where
  wide : 2 ^ 64 ≤ plan.inst.size → ∀ defect, excuse (.defect defect)
  branches : ∀ call node failure, node.Drawn plan.inst → node.feasible = true →
    node.relaxed.isIntegral = false → plan.branching call node = .error failure → excuse failure
  splits : ∀ call node fixations, node.Drawn plan.inst → node.feasible = true →
    node.relaxed.isIntegral = false → plan.branching call node = .ok fixations →
      (fixations ≠ [] ∧ ∀ fixation ∈ fixations, fixation.refines node.fixation = true) ∨
        ∀ defect, excuse (.defect defect)
  searches : ∀ call node defect, node.Drawn plan.inst →
    plan.heuristic call plan.inst node = .error defect → excuse (.defect defect)
  finds : ∀ call node harvest, node.Drawn plan.inst →
    plan.heuristic call plan.inst node = .ok harvest → ∀ solution ∈ harvest.solutions,
      solution.Packs plan.inst ∨ ∀ defect, excuse (.defect defect)

/-- A faithful plan whose failures all have an excuse. -/
structure Tame (excuse : Failure → Prop) (plan : Plan) : Prop extends Faithful plan where
  wide : 2 ^ 64 ≤ plan.inst.size → ∀ defect, excuse (.defect defect)
  branches : ∀ call node failure, node.Drawn plan.inst → node.feasible = true →
    node.relaxed.isIntegral = false → plan.branching call node = .error failure → excuse failure
  searches : ∀ call node defect, node.Drawn plan.inst →
    plan.heuristic call plan.inst node = .error defect → excuse (.defect defect)
  finds : ∀ call node harvest, node.Drawn plan.inst →
    plan.heuristic call plan.inst node = .ok harvest → ∀ solution ∈ harvest.solutions,
      solution.Packs plan.inst ∨ ∀ defect, excuse (.defect defect)

/-- Children that share out what their parent allows are more constrained, and there are some. -/
theorem Tame.guarded {excuse : Failure → Prop} (tame : plan.Tame excuse) : plan.Guarded excuse where
  toHonest := tame.honest
  wide := tame.wide
  branches := tame.branches
  splits := by
    intro call node fixations drawn feasible fractional outcome
    have shares := tame.shares call node fixations drawn feasible fractional outcome
    exact Or.inl ⟨shares.ne_nil, shares.refine⟩
  searches := tame.searches
  finds := tame.finds

/-- The branching of a plan fails on a node that is drawn and fractional. -/
def Refuses (plan : Plan) (failure : Failure) : Prop :=
  ∃ call node, node.Drawn plan.inst ∧ node.relaxed.isIntegral = false ∧
    plan.branching call node = .error failure

/-- A faithful plan fails on a defect, or where its branching fails. -/
theorem Faithful.tame (faithful : plan.Faithful) :
    plan.Tame fun failure => (∃ defect, failure = .defect defect) ∨ plan.Refuses failure where
  toFaithful := faithful
  wide := fun _ defect => Or.inl ⟨defect, rfl⟩
  branches := fun call node _ drawn _ fractional failed =>
    Or.inr ⟨call, node, drawn, fractional, failed⟩
  searches := fun _ _ defect _ _ => Or.inl ⟨defect, rfl⟩
  finds := fun _ _ _ _ _ _ _ => Or.inr fun defect => Or.inl ⟨defect, rfl⟩

/-- An honest plan fails on a defect, or where its branching fails. -/
theorem Honest.guarded (honest : plan.Honest) :
    plan.Guarded fun failure => (∃ defect, failure = .defect defect) ∨ plan.Refuses failure where
  toHonest := honest
  wide := fun _ defect => Or.inl ⟨defect, rfl⟩
  branches := fun call node _ drawn _ fractional failed =>
    Or.inr ⟨call, node, drawn, fractional, failed⟩
  splits := fun _ _ _ _ _ _ _ => Or.inr fun defect => Or.inl ⟨defect, rfl⟩
  searches := fun _ _ defect _ _ => Or.inl ⟨defect, rfl⟩
  finds := fun _ _ _ _ _ _ _ => Or.inr fun defect => Or.inl ⟨defect, rfl⟩

namespace BuiltIn

/-- Both branching rules decide one open item in both ways. -/
theorem halves (builtIn : plan.BuiltIn) : plan.branching.Halves plan.inst := by
  rcases builtIn.branching with first | most
  · rw [first]
    exact Branching.halves_firstFractional plan.inst
  · rw [most]
    exact Branching.halves_mostFractional plan.inst

theorem binary (builtIn : plan.BuiltIn) : plan.branching.Binary := by
  rcases builtIn.branching with first | most
  · rw [first]
    exact Branching.binary_firstFractional
  · rw [most]
    exact Branching.binary_mostFractional

/-- Neither branching rule ever fails on a drawn fractional node. -/
theorem not_refuses (builtIn : plan.BuiltIn) (failure : Failure) : ¬ plan.Refuses failure := by
  rintro ⟨call, node, drawn, fractional, failed⟩
  obtain ⟨index, -, split⟩ := builtIn.halves call node drawn fractional
  exact nomatch split.symm.trans failed

private theorem searches_isOk (builtIn : plan.BuiltIn) {node : Node}
    (drawn : node.Drawn plan.inst) (call : ℕ) :
    ∃ harvest, plan.heuristic call plan.inst node = .ok harvest ∧
      ∀ solution ∈ harvest.solutions, solution.Packs plan.inst := by
  rcases builtIn.heuristic with silent | completes
  · rw [silent]
    exact ⟨{}, rfl, by simp⟩
  · rw [completes]
    exact Heuristic.completion_isOk drawn call

theorem faithful (builtIn : plan.BuiltIn) : plan.Faithful where
  relaxation := builtIn.relaxation
  shares := by
    intro call node fixations drawn _ fractional outcome
    obtain ⟨index, undecided, split⟩ := builtIn.halves call node drawn fractional
    obtain rfl := Except.ok.inj (split.symm.trans outcome)
    exact Fixation.partition_decided undecided
  about := by
    intro call node harvest drawn outcome solution member
    obtain ⟨_, known, packs⟩ := searches_isOk builtIn drawn call
    obtain rfl := Except.ok.inj (known.symm.trans outcome)
    exact (packs solution member).about

/-- The only thing that can go wrong is a defect when there are too many items. -/
def Excuse (inst : Instance) (failure : Failure) : Prop :=
  2 ^ 64 ≤ inst.size ∧ ∃ defect, failure = .defect defect

theorem tame (builtIn : plan.BuiltIn) : plan.Tame (Excuse plan.inst) where
  toFaithful := builtIn.faithful
  wide := fun many defect => ⟨many, defect, rfl⟩
  branches := fun call node failure drawn _ fractional failed =>
    absurd ⟨call, node, drawn, fractional, failed⟩ (builtIn.not_refuses failure)
  searches := by
    intro call node defect drawn failed
    obtain ⟨harvest, known, -⟩ := searches_isOk builtIn drawn call
    exact nomatch known.symm.trans failed
  finds := by
    intro call node harvest drawn outcome solution member
    obtain ⟨_, known, packs⟩ := searches_isOk builtIn drawn call
    obtain rfl := Except.ok.inj (known.symm.trans outcome)
    exact Or.inl (packs solution member)

end BuiltIn

/-- A plan whose branching refuses a node has a branching rule of its own. -/
theorem Refuses.not_builtIn {failure : Failure} (refuses : plan.Refuses failure) :
    ¬ plan.BuiltIn := fun builtIn => builtIn.not_refuses failure refuses

/-- Three items of which no two fit in the sack together, so the search has to branch. -/
def tight : Plan where
  inst := ⟨[⟨2, 3⟩, ⟨3, 4⟩, ⟨4, 4⟩], 4⟩
  heuristic := .completion

theorem tight_builtIn : tight.BuiltIn := ⟨rfl, Or.inl rfl, Or.inr rfl⟩

end Knapsack.Search.Plan

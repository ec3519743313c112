import Knapsack.Proofs.Search.Strategies

/-! # Twins

Two searches of one instance create nodes at the same places of their trees, but in general not with
the same numbers. Nodes at the same place are twins: they agree in everything that decides about
their future, and the branching rules of the library treat them alike.
-/

namespace Knapsack

/-- Nodes that differ only in their numbers, in those of their parents and in their status. -/
structure Node.Twin (a b : Node) : Prop where
  depth : a.depth = b.depth
  fixation : a.fixation = b.fixation
  relaxed : a.relaxed = b.relaxed
  value : a.value = b.value
  feasible : a.feasible = b.feasible

variable {inst : Instance} {a b : Node}

/-- Drawn nodes are twins when they are at the same place. -/
theorem Node.Drawn.twin (drawn : a.Drawn inst) (other : b.Drawn inst) (depth : a.depth = b.depth)
    (fixation : a.fixation = b.fixation) : a.Twin b := by
  have relaxed : a.relaxed = b.relaxed :=
    Solution.eq_of_selection (drawn.about.trans other.about.symm)
      (drawn.selects.trans (fixation ▸ other.selects.symm))
  have worth := drawn.worth
  rw [relaxed, other.worth] at worth
  have judged := drawn.judged
  rw [relaxed, other.judged] at judged
  exact ⟨depth, fixation, relaxed, (Except.ok.inj worth).symm, (Except.ok.inj judged).symm⟩

/-- Children of twins are twins when they are at the same place below them. -/
theorem Node.Twin.child {tree other : Tree} {fixation place : Fixation} {left right : Node}
    (twin : a.Twin b) (drafted : tree.Drafted (some a) fixation left)
    (draftedThere : other.Drafted (some b) place right) (same : fixation = place)
    (drawn : left.Drawn inst) (drawnThere : right.Drawn inst) : left.Twin right := by
  apply drawn.twin drawnThere
  · rw [drafted.depth, draftedThere.depth, Option.elim_some, Option.elim_some, twin.depth]
  · rw [drafted.fixes, draftedThere.fixes, same]

private theorem Branching.onChoice_eq_of_twin (twin : a.Twin b) (choice? : Option ℕ) :
    onChoice a choice? = onChoice b choice? := by
  unfold onChoice
  rw [twin.fixation]

/-- Twins are split in the same way, whenever that happens. -/
theorem Search.Plan.BuiltIn.branching_eq_of_twin {plan : Plan} (builtIn : plan.BuiltIn)
    (twin : a.Twin b) (call later : ℕ) : plan.branching call a = plan.branching later b := by
  rcases builtIn.branching with first | most
  · rw [first, Branching.firstFractional, Branching.firstFractional, twin.relaxed]
    exact Branching.onChoice_eq_of_twin twin _
  · rw [most, Branching.mostFractional, Branching.mostFractional, twin.relaxed]
    simp only [Branching.onChoice_eq_of_twin twin]

end Knapsack

import Knapsack.Node.Basic
import Knapsack.Relaxation

/-! # Growing the search tree

Nodes are numbered in the order of their creation. Creating one solves its relaxation and checks
that the relaxation kept what is fixed.
-/

namespace Knapsack

/-- How far the tree of a search has grown. -/
structure Tree where
  created : Nat := 0
  relaxations : Nat := 0
deriving DecidableEq

/-- Whether a selection has the fixed value at every fixed position. -/
def Fixation.keptBy (fixation : Fixation) (selection : List Fraction) : Bool :=
  (fixation.decisions.zip selection).all fun (decision, taken) =>
    decision.all (Fraction.ofDecision · == taken)

namespace Tree

/-- The next node, below the given parent. -/
def draft (tree : Tree) (relaxation : Relaxation) (inst : Instance) (parent? : Option Node)
    (fixation : Fixation) : Except Failure Node := do
  let relaxed ← Failure.ofError (relaxation tree.relaxations inst fixation)
  unless fixation.keptBy relaxed.selection do throw (.defect .fixedPartChanged)
  let value ← Failure.ofDefect (exactly relaxed.value)
  let feasible ← Failure.ofDefect (exactly relaxed.isFeasible)
  return {
    id := tree.created
    parent? := parent?.map (·.id)
    depth := parent?.elim 0 (·.depth + 1)
    fixation, relaxed, value, feasible
    status := .unknown }

/-- Creates a node. A number is only used up by a node that was created, but every call of the
relaxation counts. -/
def grow (tree : Tree) (relaxation : Relaxation) (inst : Instance) (parent? : Option Node)
    (fixation : Fixation) : Except Failure Node × Tree :=
  let outcome := tree.draft relaxation inst parent? fixation
  let created := if outcome.isOk then tree.created + 1 else tree.created
  (outcome, { created, relaxations := tree.relaxations + 1 })

/-- Creates the root, where nothing is fixed. -/
def growRoot (tree : Tree) (relaxation : Relaxation) (inst : Instance) :
    Except Failure Node × Tree :=
  tree.grow relaxation inst none (.unassigned inst.size)

/-- Creates a child of a node. -/
def growChild (tree : Tree) (relaxation : Relaxation) (inst : Instance) (parent : Node)
    (fixation : Fixation) : Except Failure Node × Tree :=
  tree.grow relaxation inst (some parent) fixation

end Tree

end Knapsack

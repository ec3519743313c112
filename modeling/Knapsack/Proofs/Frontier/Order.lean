import Knapsack.Proofs.Frontier.Queue
import Knapsack.Proofs.Node.Twin
import Knapsack.Proofs.Search.Turn

/-! # The order in which nodes leave

The rankings of the library are orders, and they do not look at more of a node than its value, its
depth and its age. So a queue is always sorted, and nodes of two searches that are twins and equally
young have the same rank among what waits.
-/

namespace Knapsack

namespace Ranking

/-- The rankings of the library: three with a name, and any by the smallest of some ordered keys. -/
inductive Provided : Ranking → Prop
  | bestBound : Provided bestBound
  | depthFirst : Provided depthFirst
  | breadthFirst : Provided breadthFirst
  | minKey {κ : Type} [Ord κ] [Std.TransOrd κ] (key : Node → κ) : Provided (minKey key)

/-- Every one of them is a total preorder of the nodes. -/
theorem Provided.order {ranking : Ranking} (provided : Provided ranking) :
    Std.TransCmp ranking := by
  cases provided with
  | bestBound =>
    exact inferInstanceAs
      (Std.TransCmp (compareLex (compareOn Node.value) (compareOn Node.depth)))
  | depthFirst =>
    exact inferInstanceAs
      (Std.TransCmp (compareLex (compareOn Node.depth) (compareOn Node.value)))
  | breadthFirst =>
    have deepest : Std.TransCmp (compareOn Node.depth) := inferInstance
    have shallowest : Std.TransCmp fun a b => compareOn Node.depth b a := deepest.opposite
    exact inferInstanceAs (Std.TransCmp (compareLex (fun a b => compareOn Node.depth b a)
      (compareOn Node.value)))
  | minKey key =>
    have greatest : Std.TransCmp (compareOn key) := inferInstance
    exact greatest.opposite

/-- The rankings that come with the library, and that by age. -/
inductive BuiltIn : Ranking → Prop
  | bestBound : BuiltIn bestBound
  | depthFirst : BuiltIn depthFirst
  | breadthFirst : BuiltIn breadthFirst
  | oldest : BuiltIn (minKey (·.id))

theorem BuiltIn.provided {ranking : Ranking} (builtIn : BuiltIn ranking) : Provided ranking := by
  cases builtIn with
  | bestBound => exact .bestBound
  | depthFirst => exact .depthFirst
  | breadthFirst => exact .breadthFirst
  | oldest => exact .minKey _

/-- An order of the nodes that ranks a new node like its twin among the older ones. -/
structure Regular (ranking : Ranking) : Prop where
  order : Std.TransCmp ranking
  fair : ∀ {a b x y : Node}, a.Twin b → x.Twin y → x.id < a.id → y.id < b.id →
    ranking a x = ranking b y

theorem BuiltIn.regular {ranking : Ranking} (builtIn : BuiltIn ranking) : Regular ranking := by
  constructor
  · exact builtIn.provided.order
  · intro a b x y twin waiting younger alsoYounger
    cases builtIn with
    | bestBound =>
      rw [Ranking.bestBound, Ranking.bestBound, twin.value, twin.depth, waiting.value,
        waiting.depth]
    | depthFirst =>
      rw [Ranking.depthFirst, Ranking.depthFirst, twin.value, twin.depth, waiting.value,
        waiting.depth]
    | breadthFirst =>
      rw [Ranking.breadthFirst, Ranking.breadthFirst, twin.value, twin.depth, waiting.value,
        waiting.depth]
    | oldest =>
      rw [minKey, minKey, compare_lt_iff_lt.mpr younger, compare_lt_iff_lt.mpr alsoYounger]

end Ranking

namespace Frontier

variable {ranking : Ranking} {node : Node} {queue : List Node}

/-- No node waits behind one that it outranks. -/
def Sorted (ranking : Ranking) (queue : List Node) : Prop :=
  queue.Pairwise fun earlier later => (ranking later earlier).isLE = true

/-- A node that outranks another one outranks what waits behind it. -/
theorem outranks_of_sorted (order : Std.TransCmp ranking) {first : Node} {rest : List Node}
    (sorted : Sorted ranking (first :: rest)) (outranks : ranking node first = .gt) :
    ∀ later ∈ first :: rest, ranking node later = .gt := by
  intro later waits
  rcases List.mem_cons.mp waits with rfl | behind
  · exact outranks
  · have below := (List.pairwise_cons.mp sorted).1 later behind
    exact Std.TransCmp.gt_of_gt_of_isGE outranks (Std.OrientedCmp.isGE_iff_isLE.mpr below)

/-- A node takes a place where the queue stays sorted. -/
theorem Sorted.insert (order : Std.TransCmp ranking) (sorted : Sorted ranking queue) :
    Sorted ranking (insert ranking node queue) := by
  induction queue with
  | nil => exact List.pairwise_singleton _ _
  | cons first rest ih =>
    unfold Frontier.insert
    split_ifs with outranks
    · apply List.pairwise_cons.mpr
      constructor
      · intro later waits
        have above := outranks_of_sorted order sorted outranks later waits
        rw [Std.OrientedCmp.gt_iff_lt.mp above]
        rfl
      · exact sorted
    · obtain ⟨behind, others⟩ := List.pairwise_cons.mp sorted
      apply List.pairwise_cons.mpr
      constructor
      · intro later waits
        rcases List.mem_cons.mp ((insert_perm ranking node rest).mem_iff.mp waits) with rfl | waited
        · exact Ordering.ne_gt_iff_isLE.mp outranks
        · exact behind later waited
      · exact ih others

@[simp]
theorem ranking_join (frontier : Frontier) (nodes : List Node) :
    (frontier.join nodes).ranking = frontier.ranking := by
  unfold join
  induction nodes generalizing frontier with
  | nil => rfl
  | cons node rest ih => exact ih (frontier.enqueue node.queued)

/-- A sorted queue stays sorted, whoever joins. -/
theorem Sorted.join {frontier : Frontier} (order : Std.TransCmp frontier.ranking)
    (sorted : Sorted frontier.ranking frontier.queue) (nodes : List Node) :
    Sorted frontier.ranking (frontier.join nodes).queue := by
  unfold Frontier.join
  induction nodes generalizing frontier with
  | nil => exact sorted
  | cons node rest ih => exact @ih (frontier.enqueue node.queued) order (sorted.insert order)

end Frontier

end Knapsack

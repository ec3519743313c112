import Knapsack.Proofs.Frontier.Embedding

/-! # Who leaves first

Of two nodes in a queue, the one that outranks the other leaves first, and of nodes of equal rank the
older one does. A queue that only younger nodes join stays in this order, and nodes that outrank all
that waits come to stand in front of it.
-/

namespace Knapsack

/-- A node outranks another one, or it is of the same rank and older. -/
def Ranking.Precedes (ranking : Ranking) (a b : Node) : Prop :=
  ranking a b = .gt ∨ ranking a b = .eq ∧ a.id < b.id

namespace Frontier

variable {ranking : Ranking} {node : Node} {queue : List Node}

theorem sorted_of_precedes (order : Std.TransCmp ranking)
    (line : queue.Pairwise ranking.Precedes) : Sorted ranking queue := by
  refine line.imp fun {a b} precedes => ?_
  rcases precedes with outranks | ⟨equal, -⟩
  · rw [Std.OrientedCmp.gt_iff_lt.mp outranks]
    rfl
  · rw [Std.OrientedCmp.eq_comm.mp equal]
    rfl

/-- The youngest node goes behind those of its own rank. -/
theorem precedes_insert (order : Std.TransCmp ranking) (line : queue.Pairwise ranking.Precedes)
    (youngest : ∀ other ∈ queue, other.id < node.id) :
    (insert ranking node queue).Pairwise ranking.Precedes := by
  induction queue with
  | nil => exact List.pairwise_singleton _ _
  | cons first rest ih =>
    obtain ⟨behind, others⟩ := List.pairwise_cons.mp line
    obtain ⟨younger, alsoYounger⟩ := List.forall_mem_cons.mp youngest
    unfold Frontier.insert
    split_ifs with outranks
    · refine List.pairwise_cons.mpr ⟨fun later waits => Or.inl ?_, line⟩
      exact outranks_of_sorted order (sorted_of_precedes order line) outranks later waits
    · refine List.pairwise_cons.mpr ⟨fun later waits => ?_, ih others alsoYounger⟩
      rcases List.mem_cons.mp ((insert_perm ranking node rest).mem_iff.mp waits) with rfl | waited
      · cases compared : ranking later first with
        | lt => exact Or.inl (Std.OrientedCmp.gt_iff_lt.mpr compared)
        | eq => exact Or.inr ⟨Std.OrientedCmp.eq_comm.mp compared, younger⟩
        | gt => exact absurd compared outranks
      · exact behind later waited

/-- Nodes that are younger than all that waits keep the order. -/
theorem precedes_join {frontier : Frontier} {nodes : List Node}
    (order : Std.TransCmp frontier.ranking)
    (line : frontier.queue.Pairwise frontier.ranking.Precedes) (young : Young frontier.queue nodes) :
    (frontier.join nodes).queue.Pairwise frontier.ranking.Precedes := by
  unfold join
  induction nodes generalizing frontier with
  | nil => exact line
  | cons node rest ih =>
    obtain ⟨youngest, younger⟩ := young.cons
    exact @ih (frontier.enqueue node.queued) order (precedes_insert order line youngest)
      (younger frontier.ranking)

/-- What is outranked by a node does not matter to the place of that node in front of it. -/
theorem insert_append (front : List Node) (outranks : ∀ other ∈ queue, ranking node other = .gt) :
    insert ranking node (front ++ queue) = insert ranking node front ++ queue := by
  induction front with
  | nil =>
    cases queue with
    | nil => rfl
    | cons first rest => exact if_pos (outranks first (List.mem_cons_self ..))
  | cons first rest ih =>
    rw [List.cons_append, insert, insert]
    split_ifs
    · rfl
    · exact congrArg (first :: ·) ih

/-- Nodes that outrank all that waits come to stand in front of it. -/
theorem exists_join_append {frontier : Frontier} {nodes : List Node}
    (outrank : ∀ node ∈ nodes, ∀ other ∈ frontier.queue,
      frontier.ranking node.queued other = .gt) :
    ∃ front, (frontier.join nodes).queue = front ++ frontier.queue ∧
      front.Perm (nodes.map Node.queued) := by
  -- Stated with what joined earlier already in front, as the induction needs it.
  suffices general : ∀ front, ∃ longer,
      (join ⟨frontier.ranking, front ++ frontier.queue⟩ nodes).queue = longer ++ frontier.queue ∧
        longer.Perm (nodes.map Node.queued ++ front) by
    obtain ⟨front, joined, perm⟩ := general []
    exact ⟨front, joined, by rwa [List.append_nil] at perm⟩
  unfold join
  induction nodes with
  | nil => exact fun front => ⟨front, rfl, List.Perm.refl _⟩
  | cons node rest ih =>
    intro front
    obtain ⟨first, others⟩ := List.forall_mem_cons.mp outrank
    obtain ⟨longer, joined, perm⟩ := ih others (insert frontier.ranking node.queued front)
    refine ⟨longer, ?_, ?_⟩
    · rw [← joined, List.foldl_cons, enqueue, insert_append front first]
    · refine perm.trans ?_
      exact ((insert_perm _ _ front).append_left _).trans List.perm_middle

end Frontier

end Knapsack

import Knapsack.Proofs.Frontier.Order

/-! # One queue within another

A queue is embedded in another one when, in the same order, each of its nodes has a twin there, and
every other node there is idle: nothing below it beats a given bound. Nodes that join keep this. The
twins join at corresponding places, because whatever waits ahead of one of them without being a twin
can be passed over; and an idle node may join anywhere.
-/

namespace Knapsack

/-- A node of which nothing is expected that is worth more than a bound. -/
def Node.Idle (bound : Bound) (node : Node) : Prop :=
  node.feasible = true → .finite node.value ≤ bound

theorem Node.Idle.mono {node : Node} {low high : Bound} (idle : node.Idle low)
    (raised : low ≤ high) : node.Idle high := fun feasible => le_trans (idle feasible) raised

/-- Twins that wait are twins. -/
theorem Node.Twin.queued {a b : Node} (twin : a.Twin b) : a.queued.Twin b.queued :=
  ⟨twin.depth, twin.fixation, twin.relaxed, twin.value, twin.feasible⟩

/-- New nodes, each of which is younger than what waits and than those listed before it. -/
structure Young (queue nodes : List Node) : Prop where
  waiting : ∀ node ∈ nodes, ∀ other ∈ queue, other.id < node.id
  listed : nodes.Pairwise fun earlier later => earlier.id < later.id

/-- The first of some new nodes is younger than what waits, and the others are younger still. -/
theorem Young.cons {queue nodes : List Node} {node : Node} (young : Young queue (node :: nodes)) :
    (∀ other ∈ queue, other.id < node.id) ∧
      ∀ ranking, Young (Frontier.insert ranking node.queued queue) nodes := by
  obtain ⟨before, later⟩ := List.pairwise_cons.mp young.listed
  constructor
  · exact young.waiting node (List.mem_cons_self ..)
  · refine fun ranking => ⟨fun new member other waits => ?_, later⟩
    rcases List.mem_cons.mp ((Frontier.insert_perm ranking _ queue).mem_iff.mp waits) with
      rfl | waited
    · exact before new member
    · exact young.waiting new (List.mem_cons_of_mem _ member) other waited

namespace Frontier

/-- The nodes of one queue have twins in another one, where all the others are idle. -/
inductive Embeds (bound : Bound) : List Node → List Node → Prop
  | nil : Embeds bound [] []
  | twin {a b : Node} {few many : List Node} (twin : a.Twin b) (rest : Embeds bound few many) :
      Embeds bound (a :: few) (b :: many)
  | idle {b : Node} {few many : List Node} (idle : b.Idle bound) (rest : Embeds bound few many) :
      Embeds bound few (b :: many)

variable {ranking : Ranking} {bound : Bound} {few many : List Node} {a b : Node}

namespace Embeds

theorem mono {high : Bound} (embeds : Embeds bound few many) (raised : bound ≤ high) :
    Embeds high few many := by
  induction embeds with
  | nil => exact nil
  | twin twin _ ih => exact Embeds.twin twin ih
  | idle idle _ ih => exact Embeds.idle (idle.mono raised) ih

theorem exists_twin (embeds : Embeds bound few many) (waits : a ∈ few) :
    ∃ b ∈ many, a.Twin b := by
  induction embeds with
  | nil => exact nomatch waits
  | @twin x y _ _ twin _ ih =>
    rcases List.mem_cons.mp waits with rfl | behind
    · exact ⟨y, List.mem_cons_self .., twin⟩
    · obtain ⟨b, member, same⟩ := ih behind
      exact ⟨b, List.mem_cons_of_mem _ member, same⟩
  | idle _ _ ih =>
    obtain ⟨b, member, same⟩ := ih waits
    exact ⟨b, List.mem_cons_of_mem _ member, same⟩

/-- An idle node may join anywhere. -/
theorem insert_idle (embeds : Embeds bound few many) (idle : b.Idle bound) :
    Embeds bound few (insert ranking b many) := by
  induction embeds with
  | nil => exact Embeds.idle idle nil
  | twin twin rest ih =>
    unfold insert
    split_ifs
    · exact Embeds.idle idle (Embeds.twin twin rest)
    · exact Embeds.twin twin ih
  | idle other rest ih =>
    unfold insert
    split_ifs
    · exact Embeds.idle idle (Embeds.idle other rest)
    · exact Embeds.idle other ih

/-- Twins join at corresponding places. -/
theorem insert_twin (regular : ranking.Regular) (embeds : Embeds bound few many) (twin : a.Twin b)
    (young : ∀ other ∈ few, other.id < a.id) (youngTwin : ∀ other ∈ many, other.id < b.id)
    (sorted : Sorted ranking many) :
    Embeds bound (insert ranking a few) (insert ranking b many) := by
  induction embeds with
  | nil => exact Embeds.twin twin nil
  | @twin x y few many waits rest ih =>
    have same : ranking a x = ranking b y := regular.fair twin waits
      (young x (List.mem_cons_self ..)) (youngTwin y (List.mem_cons_self ..))
    unfold insert
    rw [same]
    split_ifs
    · exact Embeds.twin twin (Embeds.twin waits rest)
    · apply Embeds.twin waits
      apply ih
      · exact fun other member => young other (List.mem_cons_of_mem _ member)
      · exact fun other member => youngTwin other (List.mem_cons_of_mem _ member)
      · exact (List.pairwise_cons.mp sorted).2
  | @idle y few many idle rest ih =>
    by_cases outranks : ranking b y = .gt
    -- The node goes ahead of everything here, so its twin goes ahead of everything there.
    · have front : insert ranking a few = a :: few := by
        cases few with
        | nil => rfl
        | cons x others =>
          obtain ⟨z, member, waits⟩ := rest.exists_twin (List.mem_cons_self ..)
          have above : ranking b z = .gt := outranks_of_sorted regular.order sorted outranks z
            (List.mem_cons_of_mem _ member)
          have same : ranking a x = ranking b z :=
            regular.fair twin waits (young x (List.mem_cons_self ..))
              (youngTwin z (List.mem_cons_of_mem _ member))
          rw [insert, if_pos (same.trans above)]
      rw [front, insert, if_pos outranks]
      exact Embeds.twin twin (Embeds.idle idle rest)
    · rw [insert, if_neg outranks]
      apply Embeds.idle idle
      apply ih young
      · exact fun other member => youngTwin other (List.mem_cons_of_mem _ member)
      · exact (List.pairwise_cons.mp sorted).2

/-- Idle nodes may join one after the other. -/
theorem join_idle {frontier : Frontier} (embeds : Embeds bound few frontier.queue)
    {nodes : List Node} (idle : ∀ node ∈ nodes, node.Idle bound) :
    Embeds bound few (frontier.join nodes).queue := by
  unfold Frontier.join
  induction nodes generalizing frontier with
  | nil => exact embeds
  | cons node rest ih =>
    obtain ⟨first, others⟩ := List.forall_mem_cons.mp idle
    exact @ih (frontier.enqueue node.queued) (embeds.insert_idle first) others

/-- Twins may join one after the other. -/
theorem join_twin {small large : Frontier} (regular : small.ranking.Regular)
    (same : large.ranking = small.ranking) (embeds : Embeds bound small.queue large.queue)
    {nodes others : List Node} (twins : List.Forall₂ Node.Twin nodes others)
    (young : Young small.queue nodes) (youngTwins : Young large.queue others)
    (sorted : Sorted small.ranking large.queue) :
    Embeds bound (small.join nodes).queue (large.join others).queue := by
  unfold Frontier.join
  induction twins generalizing small large with
  | nil => exact embeds
  | @cons a b nodes others twin _ ih =>
    obtain ⟨youngest, younger⟩ := young.cons
    obtain ⟨youngestTwin, youngerTwins⟩ := youngTwins.cons
    refine @ih (small.enqueue a.queued) (large.enqueue b.queued) regular same ?_ ?_ ?_ ?_
    · change Embeds bound (insert small.ranking _ _) (insert large.ranking _ _)
      rw [same]
      exact embeds.insert_twin regular twin.queued youngest youngestTwin sorted
    · exact younger small.ranking
    · exact youngerTwins large.ranking
    · change Sorted small.ranking (insert large.ranking _ _)
      rw [same]
      exact sorted.insert regular.order

end Embeds

end Frontier

end Knapsack

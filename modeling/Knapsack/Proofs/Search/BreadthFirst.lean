import Knapsack.Proofs.Frontier.Precedence
import Knapsack.Proofs.Search.Comparison
import Knapsack.Proofs.Search.Termination

/-! # Breadth-first search

The nodes that were processed and, behind them, those that wait make up one line: the shallower ones
come first, those of one level by falling value, and the older ones first where the values are equal.
The first node that waits moves over to those processed, which leaves the line as it is, and its
children are deeper than everything that was processed. So the search goes level by level, however
nodes are branched on.
-/

namespace Knapsack

/-- In a breadth-first queue the shallower node leaves first, then the one of greater value, and
then the older one. -/
theorem Ranking.precedes_breadthFirst_iff {a b : Node} : Ranking.breadthFirst.Precedes a b ↔
    a.depth < b.depth ∨ a.depth = b.depth ∧
      (b.value < a.value ∨ a.value = b.value ∧ a.id < b.id) := by
  have greater : compare a.value b.value = .gt ↔ b.value < a.value := by
    rw [Fraction.compare_eq_toRat, compare_gt_iff_gt]
    exact Fraction.lt_iff_toRat.symm
  have equal : compare a.value b.value = .eq ↔ a.value = b.value := by
    rw [Fraction.compare_eq_toRat, compare_eq_iff_eq, Fraction.toRat_inj]
  rw [Precedes, breadthFirst, Ordering.then_eq_gt, Ordering.then_eq_eq, compare_gt_iff_gt,
    compare_eq_iff_eq, greater, equal]
  grind

theorem Ranking.Precedes.depth_le {a b : Node} (precedes : Ranking.breadthFirst.Precedes a b) :
    a.depth ≤ b.depth := by
  rcases precedes_breadthFirst_iff.mp precedes with less | ⟨same, -⟩
  · exact less.le
  · exact same.le

namespace Search

variable {plan : Plan} {excuse : Failure → Prop} {queue : List Node} {limit count : ℕ}
  {node : Node} {rest : Frontier} {before after : State Frontier} {children : List Node}

/-- Processed nodes and waiting ones make up one breadth-first line, in which no two waiting nodes
are more than one level apart. -/
structure InLevels (state : State Frontier) : Prop where
  line : (processedIn state.events ++ state.frontier.queue).Pairwise Ranking.breadthFirst.Precedes
  near : ∀ a ∈ state.frontier.queue, ∀ b ∈ state.frontier.queue, b.depth ≤ a.depth + 1

/-- After a turn, the children wait one level deeper, besides those that waited before. -/
theorem Brood.depth_eq_or_mem
    (brood : Brood plan node { before with frontier := rest } children after) {other : Node}
    (waits : other ∈ after.frontier.queue) : other.depth = node.depth + 1 ∨ other ∈ rest.queue := by
  refine (brood.of_waits waits).imp_left ?_
  rintro ⟨child, listed, rfl⟩
  exact brood.deeper child listed

/-- The node of a turn is as shallow as what waits behind it, and at most one level above it. -/
theorem InLevels.depth_of_mem (levels : InLevels before)
    (next : before.frontier.queue = node :: rest.queue) {other : Node}
    (stayed : other ∈ rest.queue) : node.depth ≤ other.depth ∧ other.depth ≤ node.depth + 1 := by
  obtain ⟨-, line, -⟩ := List.pairwise_append.mp levels.line
  rw [next] at line
  exact ⟨((List.pairwise_cons.mp line).1 other stayed).depth_le,
    levels.near node (next ▸ List.mem_cons_self ..) other (next ▸ List.mem_cons_of_mem _ stayed)⟩

/-- The node of a turn ends the processed part of the line, and its children join the rest of it. -/
theorem InLevels.line_turn (levels : InLevels before) (census : Census count before)
    (ranked : rest.ranking = .breadthFirst) (next : before.frontier.queue = node :: rest.queue)
    (brood : Brood plan node { before with frontier := rest } children after) :
    (processedIn after.events ++ after.frontier.queue).Pairwise Ranking.breadthFirst.Precedes := by
  obtain ⟨status, processed⟩ := brood.exists_processed
  have line := levels.line
  rw [next, List.pairwise_append, List.pairwise_cons] at line
  obtain ⟨done, ⟨behind, stays⟩, ahead⟩ := line
  rw [processed, List.pairwise_append, List.pairwise_append]
  refine ⟨⟨done, List.pairwise_singleton _ _, ?_⟩, ?_, ?_⟩
  · intro earlier member last isLast
    obtain rfl := List.mem_singleton.mp isLast
    exact ahead earlier member node (List.mem_cons_self ..)
  · have young : Young rest.queue children := census.young next brood.numbers
    have stable : (rest.join children).queue.Pairwise rest.ranking.Precedes :=
      Frontier.precedes_join (ranked ▸ Ranking.Provided.breadthFirst.order) (ranked ▸ stays) young
    rw [ranked] at stable
    exact brood.joins ▸ stable
  · -- The node itself is the last of those processed now, and no one waits ahead of it.
    intro earlier member other waiting
    have before : earlier.depth ≤ node.depth ∧
        ∀ later ∈ rest.queue, Ranking.breadthFirst.Precedes earlier later := by
      rcases List.mem_append.mp member with old | new
      · exact ⟨(ahead earlier old node (List.mem_cons_self ..)).depth_le,
          fun later stayed => ahead earlier old later (List.mem_cons_of_mem _ stayed)⟩
      · obtain rfl := List.mem_singleton.mp new
        exact ⟨le_rfl, behind⟩
    rcases brood.depth_eq_or_mem waiting with child | stayed
    · exact Ranking.precedes_breadthFirst_iff.mpr (Or.inl (by omega))
    · exact before.2 other stayed

/-- A turn keeps the line. -/
theorem InLevels.turn (levels : InLevels before) (census : Census count before)
    (ranked : rest.ranking = .breadthFirst) (next : before.frontier.queue = node :: rest.queue)
    (brood : Brood plan node { before with frontier := rest } children after) :
    InLevels after where
  line := levels.line_turn census ranked next brood
  near := by
    intro a hereA b hereB
    have shallow := (brood.depth_eq_or_mem hereA).imp_right (levels.depth_of_mem next)
    have deep := (brood.depth_eq_or_mem hereB).imp_right (levels.depth_of_mem next)
    omega

theorem Head.inLevels (guarded : plan.Guarded excuse) {state : State Frontier}
    (head : Head plan limit (.initial plan ⟨.breadthFirst, queue⟩) count state) :
    InLevels state := by
  induction head with
  | root announces plants =>
    obtain ⟨root, -, rfl⟩ := exists_planted_of_guarded guarded announces plants
    constructor
    · rw [State.events_opening]
      exact List.pairwise_singleton _ _
    · intro a hereA b hereB
      obtain rfl := List.mem_singleton.mp hereA
      obtain rfl := List.mem_singleton.mp hereB
      exact Nat.le_succ _
  | turn head within unsettled next processes ih =>
    obtain ⟨waits, ranking, -, turn⟩ := head.exists_turn_of_guarded guarded next processes
    obtain ⟨children, brood⟩ := turn.exists_brood
    obtain ⟨ranked, -⟩ :=
      head.sorted_of_guarded guarded Ranking.BuiltIn.breadthFirst.regular.order
    exact ih.turn (head.census_of_guarded guarded) (ranking.trans ranked) waits brood

/-- Nodes are processed level by level, and within a level by falling value and then by age; no node
waits that is more than one level below the shallowest one. -/
structure LevelOrder (processed waiting : List Node) : Prop where
  depths : (processed.map (·.depth)).Pairwise (· ≤ ·)
  within : processed.Pairwise fun earlier later => earlier.depth = later.depth →
    later.value ≤ earlier.value ∧ (later.value = earlier.value → earlier.id < later.id)
  levels : ∀ lowest ∈ waiting, (∀ other ∈ waiting, lowest.depth ≤ other.depth) →
    ∀ other ∈ waiting, other.depth = lowest.depth ∨ other.depth = lowest.depth + 1

theorem InLevels.levelOrder {state : State Frontier} (levels : InLevels state) :
    LevelOrder (processedIn state.events) state.frontier.queue := by
  obtain ⟨done, -, -⟩ := List.pairwise_append.mp levels.line
  refine ⟨List.pairwise_map.mpr (done.imp Ranking.Precedes.depth_le),
    done.imp fun {earlier later} precedes same => ?_, fun lowest here least other there => ?_⟩
  · rcases Ranking.precedes_breadthFirst_iff.mp precedes with less | ⟨-, worse | ⟨equal, older⟩⟩
    · exact absurd same less.ne
    · refine ⟨Fraction.le_iff_toRat.mpr (Fraction.lt_iff_toRat.mp worse).le, fun equal => ?_⟩
      rw [equal, Fraction.lt_iff_toRat] at worse
      exact absurd worse (lt_irrefl _)
    · exact ⟨Fraction.le_iff_toRat.mpr (Fraction.toRat_inj.mpr equal).ge, fun _ => older⟩
  · have near := levels.near lowest here other there
    have above := least other there
    omega

/-- Breadth-first search goes level by level at every head of the loop, and so in the end, however
nodes are branched on and whatever the heuristic finds. -/
theorem breadth_first_goes_level_by_level (honest : plan.Honest) (queue : List Node) (limit : ℕ) :
    (∀ count state, Head plan limit (.initial plan ⟨.breadthFirst, queue⟩) count state →
      LevelOrder (processedIn state.events) state.frontier.queue) ∧
    (∀ best? last, search plan limit (.initial plan ⟨.breadthFirst, queue⟩) = .ok best? last →
      LevelOrder (processedIn last.events) last.frontier.queue) ∧
    ∀ error last, search plan limit (.initial plan ⟨.breadthFirst, queue⟩) =
        .error (.error error) last →
      LevelOrder (processedIn last.events) last.frontier.queue ∨
        plan.Refuses (.error error) ∧ ¬ plan.BuiltIn := by
  refine ⟨fun _ _ head => (head.inLevels honest.guarded).levelOrder, ?_⟩
  apply search_leaves_of_honest _ _ honest
  · rintro last ⟨count, head, -⟩
    rw [processedIn_of_ended State.events_completed]
    exact (head.inLevels honest.guarded).levelOrder
  · rintro last ⟨head, -⟩
    rw [processedIn_of_ended (State.events_interrupted limit)]
    exact (head.inLevels honest.guarded).levelOrder

theorem breadth_first_goes_level_by_level_tight : Plan.tight.Honest ∧
    (∀ count state, Head .tight 15 (.initial .tight ⟨.breadthFirst, []⟩) count state →
      LevelOrder (processedIn state.events) state.frontier.queue) ∧
    ∃ best? last, search .tight 15 (.initial .tight ⟨.breadthFirst, []⟩) = .ok best? last ∧
      LevelOrder (processedIn last.events) last.frontier.queue := by
  obtain ⟨heads, comesOut, -⟩ :=
    breadth_first_goes_level_by_level Plan.tight_builtIn.faithful.honest [] 15
  obtain ⟨best?, last, answers⟩ := tight_isOk (.empty .breadthFirst)
  exact ⟨Plan.tight_builtIn.faithful.honest, heads, best?, last, answers,
    comesOut best? last answers⟩

end Search

end Knapsack

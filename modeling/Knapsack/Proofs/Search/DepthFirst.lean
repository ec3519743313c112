import Knapsack.Proofs.Frontier.Precedence
import Knapsack.Proofs.Search.Comparison
import Knapsack.Proofs.Search.Lineage
import Knapsack.Proofs.Search.Termination

/-! # Depth-first search

The node that leaves a depth-first frontier is as deep as any that waits, so its children come to
stand in front of all the others. Whoever waits behind a node therefore has no ancestor that the node
does not have, and the search leaves no subtree before it is done with it. When a node has at most
two children, all that waits behind the first node is on levels of its own, which keeps the frontier
no longer than the tree is deep.
-/

namespace Knapsack

/-- Different children of one node. -/
def Node.Siblings (a b : Node) : Prop :=
  a.id ≠ b.id ∧ ∃ parent, a.parent? = some parent ∧ b.parent? = some parent

/-- In a depth-first queue, the earlier one of two nodes is as deep as the later one. -/
theorem Frontier.depth_le_of_sorted {queue : List Node} (sorted : Sorted .depthFirst queue) :
    queue.Pairwise fun earlier later => later.depth ≤ earlier.depth :=
  sorted.imp fun behind => Nat.isLE_compare.mp (Ordering.isLE_left_of_isLE_then behind)

/-- A deeper node outranks the shallower ones. -/
theorem Ranking.depthFirst_eq_gt {a b : Node} (deeper : b.depth < a.depth) :
    Ranking.depthFirst a b = .gt := by
  rw [depthFirst, compare_gt_iff_gt.mpr deeper]
  rfl

namespace Search

variable {plan : Plan} {excuse : Failure → Prop} {queue : List Node} {limit count : ℕ}
  {node : Node} {rest : Frontier} {before after : State Frontier} {children : List Node}

/-- The frontier after a turn of a depth-first search: the children stand in front. -/
theorem Brood.exists_front (brood : Brood plan node { before with frontier := rest } children after)
    (ranked : rest.ranking = .depthFirst)
    (deepest : ∀ other ∈ rest.queue, other.depth ≤ node.depth) :
    ∃ front, after.frontier.queue = front ++ rest.queue ∧
      front.Perm (children.map Node.queued) := by
  have outrank : ∀ child ∈ children, ∀ other ∈ rest.queue,
      rest.ranking child.queued other = .gt := by
    intro child member other waits
    rw [ranked]
    apply Ranking.depthFirst_eq_gt
    exact (deepest other waits).trans_lt (brood.deeper child member ▸ Nat.lt_succ_self _)
  have joins : after.frontier = rest.join children := brood.joins
  rw [joins]
  exact Frontier.exists_join_append outrank

/-- Whoever stands in front is a child that waits. -/
theorem exists_child {front : List Node} (perm : front.Perm (children.map Node.queued))
    (member : node ∈ front) : ∃ child ∈ children, node = child.queued := by
  obtain ⟨child, listed, rfl⟩ := List.mem_map.mp (perm.mem_iff.mp member)
  exact ⟨child, listed, rfl⟩

/-- Between two heads, the first node that waits has its turn, and none is deeper. -/
theorem Head.exists_deepest (guarded : plan.Guarded excuse)
    (head : Head plan limit (.initial plan ⟨.depthFirst, queue⟩) count before)
    (next : before.frontier.next? = some (node, rest))
    (processes : process plan node { before with frontier := rest } = .ok () after) :
    before.frontier.queue = node :: rest.queue ∧ rest.ranking = .depthFirst ∧
      (∀ other ∈ rest.queue, other.depth ≤ node.depth) ∧
        ∃ children, Brood plan node { before with frontier := rest } children after := by
  obtain ⟨waits, ranking, -, turn⟩ := head.exists_turn_of_guarded guarded next processes
  obtain ⟨ranked, sorted⟩ :=
    head.sorted_of_guarded guarded Ranking.BuiltIn.depthFirst.regular.order
  rw [waits] at sorted
  exact ⟨waits, ranking.trans ranked,
    (List.pairwise_cons.mp (Frontier.depth_le_of_sorted sorted)).1, turn.exists_brood⟩

section PreOrder

/-- No subtree is left before it is done: what descends from a node is processed in one go. -/
def Contiguous (created processed : List Node) : Prop :=
  ∀ first middle last, [first, middle, last].Sublist processed →
    DescendsIn created last.id first.id → DescendsIn created middle.id first.id

private theorem triple_concat {α : Type} {a b c x : α} {xs : List α}
    (chosen : [a, b, c].Sublist (xs ++ [x])) :
    [a, b, c].Sublist xs ∨ [a, b].Sublist xs ∧ c = x := by
  obtain ⟨old, new, split, oldOnes, newOne⟩ := List.sublist_append_iff.mp chosen
  rcases List.sublist_singleton.mp newOne with rfl | rfl
  · rw [List.append_nil] at split
    exact Or.inl (split ▸ oldOnes)
  · obtain ⟨rfl, same⟩ := List.append_inj' (show [a, b] ++ [c] = old ++ [x] from split) rfl
    exact Or.inr ⟨oldOnes, (List.cons.inj same).1⟩

/-- A node has all the ancestors of what waits behind it. A processed node from which something that
waits descends is an ancestor of all that was processed after it. -/
structure PreOrder (state : State Frontier) : Prop where
  lineage : Lineage state.tree.created (createdIn state.events)
  nested : state.frontier.queue.Pairwise fun earlier later => ∀ above,
    DescendsIn (createdIn state.events) later.id above →
      DescendsIn (createdIn state.events) earlier.id above
  pending : (processedIn state.events).Pairwise fun earlier later =>
    ∀ waiting ∈ state.frontier.queue,
      DescendsIn (createdIn state.events) waiting.id earlier.id →
        DescendsIn (createdIn state.events) later.id earlier.id
  contiguous : Contiguous (createdIn state.events) (processedIn state.events)

/-- What waits after a turn descends from an earlier node only if the node of the turn does. -/
theorem PreOrder.through (order : PreOrder before) (census : Census count before)
    (next : before.frontier.queue = node :: rest.queue)
    (brood : Brood plan node { before with frontier := rest } children after)
    {earlier waiting : Node}
    (done : earlier ∈ processedIn before.events) (waits : waiting ∈ after.frontier.queue)
    (descends : DescendsIn (createdIn after.events) waiting.id earlier.id) :
    DescendsIn (createdIn before.events) node.id earlier.id := by
  have first : node ∈ before.frontier.queue := next ▸ List.mem_cons_self ..
  rcases brood.of_waits waits with ⟨child, listed, rfl⟩ | stayed
  · have stems := (brood.descendsIn_child_iff order.lineage (census.id_lt first) listed).mp descends
    exact stems.resolve_left fun same => census.id_ne first done same.symm
  · have known := census.id_lt (next ▸ List.mem_cons_of_mem _ stayed)
    have behind := (List.pairwise_cons.mp (next ▸ order.nested)).1 waiting stayed
    exact behind _ ((brood.descendsIn_iff order.lineage known).mp descends)

/-- The children have the same ancestors, and among them those of all that waits behind them. -/
theorem PreOrder.nested_turn (order : PreOrder before) (census : Census count before)
    (ranked : rest.ranking = .depthFirst) (next : before.frontier.queue = node :: rest.queue)
    (deepest : ∀ other ∈ rest.queue, other.depth ≤ node.depth)
    (brood : Brood plan node { before with frontier := rest } children after) :
    after.frontier.queue.Pairwise fun earlier later => ∀ above,
      DescendsIn (createdIn after.events) later.id above →
        DescendsIn (createdIn after.events) earlier.id above := by
  obtain ⟨front, waits, perm⟩ := brood.exists_front ranked deepest
  have first : node ∈ before.frontier.queue := next ▸ List.mem_cons_self ..
  have older : ∀ other ∈ rest.queue, ∀ {above}, DescendsIn (createdIn after.events) other.id above ↔
      DescendsIn (createdIn before.events) other.id above := by
    intro other stayed above
    exact brood.descendsIn_iff order.lineage (census.id_lt (next ▸ List.mem_cons_of_mem _ stayed))
  have stems : ∀ child ∈ front, ∀ {above}, DescendsIn (createdIn after.events) child.id above ↔
      above = node.id ∨ DescendsIn (createdIn before.events) node.id above := by
    intro child member above
    obtain ⟨born, listed, rfl⟩ := exists_child perm member
    have origin : DescendsIn (createdIn after.events) born.id above ↔
        above = node.id ∨ DescendsIn (createdIn before.events) node.id above :=
      brood.descendsIn_child_iff order.lineage (census.id_lt first) listed
    exact origin
  obtain ⟨behind, stacked⟩ := List.pairwise_cons.mp (next ▸ order.nested)
  rw [waits, List.pairwise_append]
  refine ⟨List.pairwise_of_forall_mem_list fun a hereA b hereB above descends => ?_, ?_, ?_⟩
  · exact (stems a hereA).mpr ((stems b hereB).mp descends)
  · refine stacked.imp_of_mem fun hereA hereB inherits above descends => ?_
    rw [older _ hereA]
    exact inherits above ((older _ hereB).mp descends)
  · intro child new other stayed above descends
    exact (stems child new).mpr (Or.inr (behind other stayed above ((older other stayed).mp descends)))

/-- What descends from a node of the past still waits behind a node that does. -/
theorem PreOrder.pending_turn (order : PreOrder before) (census : Census count before)
    (next : before.frontier.queue = node :: rest.queue)
    (brood : Brood plan node { before with frontier := rest } children after) :
    (processedIn after.events).Pairwise fun earlier later => ∀ waiting ∈ after.frontier.queue,
      DescendsIn (createdIn after.events) waiting.id earlier.id →
        DescendsIn (createdIn after.events) later.id earlier.id := by
  obtain ⟨status, processed⟩ := brood.exists_processed
  have first : node ∈ before.frontier.queue := next ▸ List.mem_cons_self ..
  rw [processed, List.pairwise_append]
  refine ⟨?_, List.pairwise_singleton _ _, ?_⟩
  · refine order.pending.imp_of_mem fun hereA hereB pending waiting member descends => ?_
    refine (brood.descendsIn_iff order.lineage (census.id_lt_of_processed hereB)).mpr ?_
    exact pending node first (order.through census next brood hereA member descends)
  · intro earlier done last isLast waiting member descends
    obtain rfl := List.mem_singleton.mp isLast
    refine (brood.descendsIn_iff order.lineage (census.id_lt first)).mpr ?_
    exact order.through census next brood done member descends

/-- The node of a turn goes on with the subtree that is still open. -/
theorem PreOrder.contiguous_turn (order : PreOrder before) (census : Census count before)
    (next : before.frontier.queue = node :: rest.queue)
    (brood : Brood plan node { before with frontier := rest } children after) :
    Contiguous (createdIn after.events) (processedIn after.events) := by
  obtain ⟨status, processed⟩ := brood.exists_processed
  have first : node ∈ before.frontier.queue := next ▸ List.mem_cons_self ..
  have older : ∀ {other}, other ∈ processedIn before.events → ∀ {above},
      DescendsIn (createdIn after.events) other.id above ↔
        DescendsIn (createdIn before.events) other.id above := by
    intro other done above
    exact brood.descendsIn_iff order.lineage (census.id_lt_of_processed done)
  intro a b c chosen descends
  rw [processed] at chosen
  rcases triple_concat chosen with old | ⟨pair, rfl⟩
  · have done : ∀ other ∈ [a, b, c], other ∈ processedIn before.events := fun _ member =>
      old.subset member
    exact (older (done b (by simp))).mpr
      (order.contiguous a b c old ((older (done c (by simp))).mp descends))
  · have pending := List.pairwise_iff_forall_sublist.mp order.pending pair node first
    exact (older (pair.subset (by simp))).mpr
      (pending ((brood.descendsIn_iff order.lineage (census.id_lt first)).mp descends))

/-- A turn of the deepest node that waits keeps the order. -/
theorem PreOrder.turn (order : PreOrder before) (census : Census count before)
    (ranked : rest.ranking = .depthFirst) (next : before.frontier.queue = node :: rest.queue)
    (deepest : ∀ other ∈ rest.queue, other.depth ≤ node.depth)
    (brood : Brood plan node { before with frontier := rest } children after) : PreOrder after where
  lineage := brood.lineage order.lineage (census.id_lt (next ▸ List.mem_cons_self ..))
  nested := order.nested_turn census ranked next deepest brood
  pending := order.pending_turn census next brood
  contiguous := order.contiguous_turn census next brood

/-- Depth-first search keeps to subtrees at every head. -/
theorem Head.preOrder (guarded : plan.Guarded excuse) {state : State Frontier}
    (head : Head plan limit (.initial plan ⟨.depthFirst, queue⟩) count state) :
    PreOrder state := by
  induction head with
  | root announces plants =>
    obtain ⟨root, ⟨-, drafted⟩, rfl⟩ := exists_planted_of_guarded guarded announces plants
    have opening := State.events_opening plan ⟨.depthFirst, queue⟩ limit root
    have none : processedIn _ = [] := congrArg processedIn opening
    refine ⟨?_, List.pairwise_singleton _ _, ?_, ?_⟩
    · rw [opening]
      exact lineage_root drafted
    · rw [none]
      exact List.Pairwise.nil
    · rw [none]
      exact fun _ _ _ chosen => nomatch chosen
  | turn head within unsettled next processes ih =>
    obtain ⟨waits, ranked, deepest, children, brood⟩ :=
      head.exists_deepest guarded next processes
    exact ih.turn (head.census_of_guarded guarded) ranked waits deepest brood

end PreOrder

section Linear

/-- A frontier that is no longer than the tree is deep. Nodes of one level are siblings, and no node
is deeper than they are. -/
structure Linear (size : ℕ) (queue : List Node) : Prop where
  length_le : queue.length ≤ size + 1
  level : queue.Pairwise fun a b => a.depth = b.depth →
    a.Siblings b ∧ ∀ other ∈ queue, other.depth ≤ a.depth

/-- Behind the first node, every node is on a level of its own, which is not that of the root. Nodes
of one level have the same parent. -/
structure Slender (queue : List Node) : Prop where
  falling : queue.tail.Pairwise fun earlier later => later.depth < earlier.depth
  below : ∀ node ∈ queue.tail, 0 < node.depth
  kin : queue.Pairwise fun a b => a.depth = b.depth →
    ∃ parent, a.parent? = some parent ∧ b.parent? = some parent
  shallow : ∀ node ∈ queue, node.depth ≤ node.fixation.fixedCount

private theorem falling_append {front others : List Node} (short : front.length ≤ 2)
    (deeper : ∀ child ∈ front, ∀ other ∈ others, other.depth < child.depth)
    (falling : others.Pairwise fun earlier later => later.depth < earlier.depth) :
    (front ++ others).tail.Pairwise fun earlier later => later.depth < earlier.depth := by
  match front with
  | [] => exact falling.sublist (List.tail_sublist _)
  | [_] => exact falling
  | [_, second] =>
    exact List.pairwise_cons.mpr ⟨deeper second (List.mem_cons_of_mem _ List.mem_cons_self), falling⟩
  | _ :: _ :: _ :: _ => exact absurd short (by simp)

/-- At most two children in front keep this. -/
theorem Slender.turn (slender : Slender before.frontier.queue) (binary : plan.branching.Binary)
    (ranked : rest.ranking = .depthFirst) (next : before.frontier.queue = node :: rest.queue)
    (deepest : ∀ other ∈ rest.queue, other.depth ≤ node.depth)
    (brood : Brood plan node { before with frontier := rest } children after) :
    Slender after.frontier.queue := by
  obtain ⟨front, waits, perm⟩ := brood.exists_front ranked deepest
  have born : ∀ child ∈ front, child.depth = node.depth + 1 ∧ child.parent? = some node.id ∧
      child.fixation.refines node.fixation = true := by
    intro waiting member
    obtain ⟨child, listed, rfl⟩ := exists_child perm member
    exact ⟨brood.deeper child listed, brood.names child listed, brood.refines child listed⟩
  have short : front.length ≤ 2 := by
    rw [perm.length_eq, List.length_map]
    rcases brood.stems with rfl | ⟨call, branches⟩
    · exact Nat.zero_le 2
    · rw [← List.length_map (·.fixation)]
      exact binary _ _ _ branches
  have deeper : ∀ child ∈ front, ∀ other ∈ rest.queue, other.depth < child.depth :=
    fun child new other stayed =>
      (deepest other stayed).trans_lt ((born child new).1 ▸ Nat.lt_succ_self _)
  obtain ⟨falling, below, kin, shallow⟩ := slender
  rw [next] at falling below kin shallow
  rw [waits]
  refine ⟨falling_append short deeper falling, ?_, ?_, ?_⟩
  · intro other member
    rcases List.mem_append.mp (List.mem_of_mem_tail member) with child | stayed
    · exact (born other child).1 ▸ Nat.succ_pos _
    · exact below other stayed
  · refine List.pairwise_append.mpr ⟨?_, (List.pairwise_cons.mp kin).2, ?_⟩
    · exact List.pairwise_of_forall_mem_list fun a hereA b hereB _ =>
        ⟨node.id, (born a hereA).2.1, (born b hereB).2.1⟩
    · exact fun child new other stayed same => absurd same (deeper child new other stayed).ne'
  · intro other member
    rcases List.mem_append.mp member with child | stayed
    · obtain ⟨deep, -, refines⟩ := born other child
      have more := (Fixation.refines_iff.mp refines).2.1
      have above := shallow node (List.mem_cons_self ..)
      omega
    · exact shallow other (List.mem_cons_of_mem _ stayed)

theorem Head.slender (guarded : plan.Guarded excuse) (binary : plan.branching.Binary)
    {state : State Frontier}
    (head : Head plan limit (.initial plan ⟨.depthFirst, queue⟩) count state) :
    Slender state.frontier.queue := by
  induction head with
  | root announces plants =>
    obtain ⟨root, ⟨-, drafted⟩, rfl⟩ := exists_planted_of_guarded guarded announces plants
    refine ⟨List.Pairwise.nil, List.forall_mem_nil _, List.pairwise_singleton _ _,
      fun node member => ?_⟩
    obtain rfl := List.mem_singleton.mp member
    exact drafted.depth.trans_le (Nat.zero_le _)
  | turn head within unsettled next processes ih =>
    obtain ⟨waits, ranked, deepest, children, brood⟩ :=
      head.exists_deepest guarded next processes
    exact ih.turn binary ranked waits deepest brood

private theorem length_le_of_falling {nodes : List Node} {bound : ℕ}
    (falling : nodes.Pairwise fun earlier later => later.depth < earlier.depth)
    (within : ∀ node ∈ nodes, 0 < node.depth ∧ node.depth ≤ bound) : nodes.length ≤ bound := by
  have distinct : (nodes.map (·.depth)).Nodup :=
    List.pairwise_map.mpr (falling.imp fun less => less.ne')
  have among : (nodes.map (·.depth)).toFinset ⊆ Finset.Icc 1 bound := by
    intro depth member
    obtain ⟨node, listed, rfl⟩ := List.mem_map.mp (List.mem_toFinset.mp member)
    exact Finset.mem_Icc.mpr (within node listed)
  calc nodes.length
    _ = (nodes.map (·.depth)).toFinset.card := by
      rw [List.toFinset_card_of_nodup distinct, List.length_map]
    _ ≤ (Finset.Icc 1 bound).card := Finset.card_le_card among
    _ = bound := by rw [Nat.card_Icc, Nat.add_sub_cancel]

theorem Head.linear (guarded : plan.Guarded excuse) (binary : plan.branching.Binary)
    {state : State Frontier}
    (head : Head plan limit (.initial plan ⟨.depthFirst, queue⟩) count state) :
    Linear plan.inst.size state.frontier.queue := by
  obtain ⟨falling, below, kin, shallow⟩ := head.slender guarded binary
  have depths := Frontier.depth_le_of_sorted
    (head.sorted_of_guarded guarded Ranking.BuiltIn.depthFirst.regular.order).2
  have waiting := head.waiting_of_guarded guarded
  have distinct := (List.nodup_append.mp (head.census_of_guarded guarded).nodup).1
  have bounded : ∀ node ∈ state.frontier.queue, node.depth ≤ plan.inst.size := by
    intro node waits
    calc node.depth
      _ ≤ node.fixation.fixedCount := shallow node waits
      _ ≤ node.fixation.length := List.countP_le_length
      _ = plan.inst.size := (waiting node waits).1.covers
  constructor
  · have behind := length_le_of_falling falling fun node member =>
      ⟨below node member, bounded node (List.mem_of_mem_tail member)⟩
    rw [List.length_tail] at behind
    omega
  · have apart : state.frontier.queue.Pairwise fun a b => a.id ≠ b.id :=
      List.pairwise_map.mp distinct
    cases waits : state.frontier.queue with
    | nil => exact List.Pairwise.nil
    | cons first others =>
      rw [waits] at falling kin depths apart
      refine List.pairwise_cons.mpr ⟨fun other member same => ⟨⟨?_, ?_⟩, ?_⟩, ?_⟩
      · exact (List.pairwise_cons.mp apart).1 other member
      · exact (List.pairwise_cons.mp kin).1 other member same
      · exact List.forall_mem_cons.mpr ⟨le_rfl, (List.pairwise_cons.mp depths).1⟩
      · exact falling.imp fun less same => absurd same less.ne'

end Linear

/-- Depth-first search is a pre-order with a slim frontier, whatever the heuristic finds. While
something waits that descends from a node, only descendants of that node leave the frontier, and so
the processed nodes of a subtree follow each other, however nodes are branched on. As long as no node
has more than two children, as with both rules, at most one node more waits than there are items; two
waiting nodes of one level are siblings, and none is deeper than they are. -/
theorem depth_first_keeps_to_subtrees (honest : plan.Honest) (queue : List Node) (limit : ℕ) :
    (∀ count state, Head plan limit (.initial plan ⟨.depthFirst, queue⟩) count state →
      (plan.branching.Binary → Linear plan.inst.size state.frontier.queue) ∧
      (∀ node rest, state.frontier.next? = some (node, rest) →
        ∀ waiting ∈ state.frontier.queue, ∀ above,
          DescendsIn (createdIn state.events) waiting.id above →
            DescendsIn (createdIn state.events) node.id above) ∧
      Contiguous (createdIn state.events) (processedIn state.events)) ∧
    (∀ best? last, search plan limit (.initial plan ⟨.depthFirst, queue⟩) = .ok best? last →
      Contiguous (createdIn last.events) (processedIn last.events)) ∧
    ∀ error last, search plan limit (.initial plan ⟨.depthFirst, queue⟩) =
        .error (.error error) last →
      Contiguous (createdIn last.events) (processedIn last.events) ∨
        plan.Refuses (.error error) ∧ ¬ plan.BuiltIn := by
  refine ⟨fun count state head => ⟨head.linear honest.guarded, ?_, ?_⟩, ?_⟩
  · intro node rest next waiting member above descends
    obtain ⟨waits, -⟩ := Frontier.next?_eq_some_iff.mp next
    have nested := (head.preOrder honest.guarded).nested
    rw [waits] at nested member
    rcases List.mem_cons.mp member with rfl | later
    · exact descends
    · exact (List.pairwise_cons.mp nested).1 waiting later above descends
  · exact (head.preOrder honest.guarded).contiguous
  · apply search_leaves_of_honest _ _ honest
    · rintro last ⟨count, head, -⟩
      rw [createdIn_of_ended State.events_completed, processedIn_of_ended State.events_completed]
      exact (head.preOrder honest.guarded).contiguous
    · rintro last ⟨head, -⟩
      rw [createdIn_of_ended (State.events_interrupted limit),
        processedIn_of_ended (State.events_interrupted limit)]
      exact (head.preOrder honest.guarded).contiguous

theorem depth_first_keeps_to_subtrees_tight : Plan.tight.Honest ∧ Plan.tight.branching.Binary ∧
    (∀ count state, Head .tight 15 (.initial .tight ⟨.depthFirst, []⟩) count state →
      Linear Plan.tight.inst.size state.frontier.queue ∧
      (∀ node rest, state.frontier.next? = some (node, rest) →
        ∀ waiting ∈ state.frontier.queue, ∀ above,
          DescendsIn (createdIn state.events) waiting.id above →
            DescendsIn (createdIn state.events) node.id above) ∧
      Contiguous (createdIn state.events) (processedIn state.events)) ∧
    ∃ best? last, search .tight 15 (.initial .tight ⟨.depthFirst, []⟩) = .ok best? last ∧
      Contiguous (createdIn last.events) (processedIn last.events) := by
  have binary := Plan.tight_builtIn.binary
  obtain ⟨heads, comesOut, -⟩ :=
    depth_first_keeps_to_subtrees Plan.tight_builtIn.faithful.honest [] 15
  obtain ⟨best?, last, answers⟩ := tight_isOk (.empty .depthFirst)
  refine ⟨Plan.tight_builtIn.faithful.honest, binary, fun count state head => ?_, best?, last,
    answers, comesOut best? last answers⟩
  obtain ⟨linear, others⟩ := heads count state head
  exact ⟨linear binary, others⟩

end Search

end Knapsack

import Knapsack.Proofs.Search.Census

/-! # Every search ends

The depth of a node is the number of items that it fixes, and only a node with an open item has
children. So the tree of a search fits into the full binary tree whose height is the number of
items, and a budget of the size of that tree is never used up. Each node that waits has a share of
the full tree; processing a node spends one place of its share, and the children divide the rest.
-/

namespace Knapsack

/-- The size of the full binary tree below a node, where paths end after the given depth. -/
def Node.share (height : ℕ) (node : Node) : ℕ := 2 ^ (height + 1 - node.depth) - 1

theorem Node.share_pos {height : ℕ} {node : Node} (inside : node.depth ≤ height) :
    1 ≤ node.share height := by
  have positive : 2 ≤ 2 ^ (height + 1 - node.depth) :=
    Nat.le_self_pow (by omega) 2
  unfold share
  omega

namespace Search

variable {plan : Plan} {frontier : Frontier} {limit count : ℕ} {state : State Frontier}

/-- The children of a node divide its share, less one place for the node itself. -/
theorem Block.sum_share_lt {node : Node} {before after : Standing} {children : List Node}
    {events : List Event} (block : Block plan node before after children events) {height : ℕ}
    (inside : node.depth ≤ height) :
    (children.map (·.share height)).sum < node.share height := by
  cases block.offspring with
  | none => exact Node.share_pos inside
  | pair _ _ _ first second =>
    have halves : 2 ^ (height + 1 - node.depth) = 2 ^ (height - node.depth) * 2 := by
      rw [← pow_succ]
      congr 1
      omega
    have positive : 0 < 2 ^ (height - node.depth) := Nat.two_pow_pos _
    simp only [List.map_cons, List.map_nil, List.sum_cons, List.sum_nil, Node.share, first.depth,
      second.depth, Option.elim_some, Nat.add_sub_add_right, halves]
    omega

/-- The places of the full tree that are spent, and those that the waiting nodes may still spend. -/
structure Frugal (inst : Instance) (count : ℕ) (state : State Frontier) : Prop where
  placed : ∀ node ∈ createdIn state.events,
    node.depth = node.fixation.fixedCount ∧ node.fixation.length = inst.size
  spent : count + (state.frontier.queue.map (·.share inst.size)).sum ≤ 2 ^ (inst.size + 1) - 1

/-- A node is no deeper than there are items. -/
theorem Frugal.depth_le {inst : Instance} (frugal : Frugal inst count state) {node : Node}
    (member : node ∈ createdIn state.events) : node.depth ≤ inst.size := by
  obtain ⟨depth, covers⟩ := frugal.placed node member
  rw [depth, ← covers]
  exact List.countP_le_length

/-- So is a node that waits. -/
theorem Frugal.depth_le_of_waits {inst : Instance} (frugal : Frugal inst count state)
    (census : Census count state) {node : Node} (waits : node ∈ state.frontier.queue) :
    node.depth ≤ inst.size := by
  obtain ⟨born, member, rfl⟩ := census.waits node waits
  have bound := frugal.depth_le member
  exact bound

private theorem frugal_planted (plan : Plan) (limit : ℕ) (frontier : Frontier) {root : Node}
    (drafted : Tree.Drafted {} none (.unassigned plan.inst.size) root) :
    Frugal plan.inst 0 (((State.initial plan frontier).announced plan limit).planted root) := by
  have depth : root.depth = 0 := drafted.depth
  have events := State.events_opening plan frontier limit root
  refine ⟨fun node member => ?_, ?_⟩
  · rw [events] at member
    obtain rfl := List.mem_singleton.mp member
    rw [depth, drafted.fixes, Fixation.fixedCount_unassigned]
    exact ⟨rfl, List.length_replicate⟩
  · rw [State.queue_planted, List.map_singleton, List.sum_singleton, Nat.zero_add]
    simp [Node.share, Node.queued, depth]

theorem Head.frugal (builtIn : plan.BuiltIn)
    (head : Head plan limit (.initial plan frontier) count state) :
    Frugal plan.inst count state := by
  refine head.by_blocks builtIn (Frugal plan.inst)
    (fun _ _ drafted => frugal_planted plan limit frontier drafted) ?_
  intro count before node rest children events after head frugal next _ advance
  have census := head.census builtIn
  have waits : node ∈ before.frontier.queue := next ▸ List.mem_cons_self ..
  obtain ⟨born, member, rfl⟩ := census.waits node waits
  refine ⟨fun other listed => ?_, ?_⟩
  · rw [advance.chronicle, createdIn_append, advance.block.createdIn_eq] at listed
    rcases List.mem_append.mp listed with earlier | child
    · exact frugal.placed other earlier
    · obtain ⟨depth, fixed⟩ := advance.block.below other child
      exact ⟨depth.trans (fixed ▸ congrArg (· + 1) (frugal.placed born member).1),
        (advance.drawn other child).covers⟩
  · have joined : after.frontier.queue.Perm (children.map Node.queued ++ rest.queue) :=
      advance.joins ▸ rest.queue_join_perm children
    have shares := (joined.map (·.share plan.inst.size)).sum_nat
    have divided : (children.map (·.share plan.inst.size)).sum < born.queued.share plan.inst.size :=
      advance.block.sum_share_lt (frugal.depth_le_of_waits census waits)
    have spent := frugal.spent
    rw [next, List.map_cons, List.sum_cons] at spent
    rw [List.map_append, List.map_map, List.sum_append] at shares
    change _ = (children.map (·.share plan.inst.size)).sum + _ at shares
    omega

/-- Every node that waits has a share. -/
theorem Head.length_queue_le (builtIn : plan.BuiltIn)
    (head : Head plan limit (.initial plan frontier) count state) :
    count + state.frontier.queue.length ≤ 2 ^ (plan.inst.size + 1) - 1 := by
  have frugal := head.frugal builtIn
  have positive : ∀ share ∈ state.frontier.queue.map (·.share plan.inst.size), 1 ≤ share := by
    intro share listed
    obtain ⟨node, waits, rfl⟩ := List.mem_map.mp listed
    exact Node.share_pos (frugal.depth_le_of_waits (head.census builtIn) waits)
  have shares := List.length_le_sum_of_one_le _ positive
  rw [List.length_map] at shares
  exact (Nat.add_le_add_left shares count).trans frugal.spent

/-- A history that stays within the full binary tree over the items. -/
structure Bounded (inst : Instance) (state : State Frontier) : Prop where
  depth : ∀ node, .nodeCreated node ∈ state.events → node.depth ≤ inst.size
  created : state.tree.created ≤ 2 ^ (inst.size + 1) - 1
  processed : (processedIn state.events).length ≤ 2 ^ (inst.size + 1) - 1

theorem Head.bounded (builtIn : plan.BuiltIn)
    (head : Head plan limit (.initial plan frontier) count state) : Bounded plan.inst state := by
  have census := head.census builtIn
  have bound := head.length_queue_le builtIn
  have size := census.shared.length_eq
  rw [List.length_append, List.length_map, List.length_map, census.processed,
    List.length_range] at size
  refine ⟨fun node member => (head.frugal builtIn).depth_le (mem_createdIn.mpr member), ?_, ?_⟩
  · omega
  · rw [census.processed]
    omega

/-- The end of a search adds no node. -/
theorem Bounded.ended {inst : Instance} {later : State Frontier} {statistics : Statistics}
    (bounded : Bounded inst state)
    (events : later.events = state.events ++ [.searchEnded statistics])
    (tree : later.tree = state.tree) : Bounded inst later := by
  refine ⟨fun node member => ?_, tree ▸ bounded.created, ?_⟩
  · rw [events] at member
    rcases List.mem_append.mp member with earlier | last
    · exact bounded.depth node earlier
    · exact nomatch List.mem_singleton.mp last
  · rw [events, processedIn_append, List.length_append]
    exact bounded.processed

/-- A budget of the size of the full binary tree is never used up. -/
theorem search_isOk_of_budget (builtIn : plan.BuiltIn) (few : plan.inst.size < 2 ^ 64)
    (frontier : Frontier) (ample : 2 ^ (plan.inst.size + 1) - 1 ≤ limit) :
    ∃ best? last, search plan limit (.initial plan frontier) = .ok best? last := by
  have report := builtIn.report limit frontier
  generalize search plan limit (.initial plan frontier) = result at report ⊢
  cases report with
  | completed _ => exact ⟨_, _, rfl⟩
  | interrupted exhausted =>
    obtain ⟨head, present, -⟩ := exhausted
    have waits := List.length_pos_of_ne_nil present
    have spent := head.length_queue_le builtIn
    omega
  | failed excused => exact absurd excused.1 (not_le.mpr few)

/-- A search of the small plan that has to branch comes out within 15 nodes. -/
theorem tight_isOk (frontier : Frontier) :
    ∃ best? last, search .tight 15 (.initial .tight frontier) = .ok best? last :=
  search_isOk_of_budget Plan.tight_builtIn (by decide) frontier (by decide)

/-- A search is only over when some node was processed, since the root waits at first. -/
theorem Over.exists_head {excuse : Failure → Prop} {start last : State Frontier}
    (tame : plan.Tame excuse) (isOver : Over plan limit start last) :
    ∃ count, 0 < count ∧ Head plan limit start count last := by
  obtain ⟨count, head, stopped⟩ := isOver
  refine ⟨count, ?_, head⟩
  rcases stopped with nothing | ⟨positive, -⟩
  · cases head with
    | root announces plants =>
      obtain ⟨root, -, rfl⟩ := exists_planted tame announces plants
      exact nomatch nothing
    | turn _ _ _ _ _ => exact Nat.succ_pos _
  · exact positive

/-- So nothing is completed without a budget. -/
theorem Over.limit_pos {excuse : Failure → Prop} {start last : State Frontier}
    (tame : plan.Tame excuse) (isOver : Over plan limit start last) : 0 < limit := by
  obtain ⟨count, positive, head⟩ := isOver.exists_head tame
  exact positive.trans_le head.count_le

/-- The root of the small plan is branched on. -/
theorem tight_branches {best? : Option Solution} {last : State Frontier}
    (answers : search .tight limit (.initial .tight frontier) = .ok best? last) :
    ∃ node ∈ processedIn last.events, node.status = .branched := by
  have report := Plan.tight_builtIn.report limit frontier
  rw [answers] at report
  cases report with
  | completed isOver =>
    obtain ⟨count, positive, head⟩ := isOver.exists_head Plan.tight_builtIn.tame
    rw [processedIn_of_ended State.events_completed]
    exact head.exists_branched Plan.tight_builtIn.tame (by cbv) positive

/-- A search of the small plan is interrupted at once when it has no budget. -/
theorem tight_interrupted (frontier : Frontier) :
    ∃ head : State Frontier, head.frontier.queue ≠ [] ∧
      search .tight 0 (.initial .tight frontier) =
        .error (.error (.iterationLimitExceeded 0)) (head.interrupted 0) := by
  have report := Plan.tight_builtIn.report 0 frontier
  generalize search .tight 0 (.initial .tight frontier) = result at report ⊢
  cases report with
  | completed isOver => exact absurd (isOver.limit_pos Plan.tight_builtIn.tame) (lt_irrefl 0)
  | @interrupted head exhausted => exact ⟨head, exhausted.2.1, rfl⟩
  | failed excused => exact absurd excused.1 (by decide)

/-- Under any ranking, no node is deeper than there are items, and no more nodes are created or
processed than a full binary tree over the items has. So a search with at least that budget comes
out, whatever the capacity, the weights and the values. -/
theorem search_terminates (builtIn : plan.BuiltIn) (frontier : Frontier) :
    (∀ limit, match search plan limit (.initial plan frontier) with
      | .ok _ last | .error (.error _) last => Bounded plan.inst last
      | .error (.defect _) _ => 2 ^ 64 ≤ plan.inst.size) ∧
    (plan.inst.size < 2 ^ 64 → ∀ limit, 2 ^ (plan.inst.size + 1) - 1 ≤ limit →
      ∃ best? last, search plan limit (.initial plan frontier) = .ok best? last) := by
  refine ⟨fun limit => search_leaves (Bounded plan.inst) (Bounded plan.inst) builtIn ?_ ?_,
    fun few limit ample => search_isOk_of_budget builtIn few frontier ample⟩
  · rintro last ⟨count, head, -⟩
    exact (head.bounded builtIn).ended State.events_completed rfl
  · rintro last ⟨head, -⟩
    exact (head.bounded builtIn).ended (State.events_interrupted limit) rfl

theorem search_terminates_tight : Plan.tight.BuiltIn ∧
    (∀ limit, match search .tight limit (.initial .tight (.empty .depthFirst)) with
      | .ok _ last | .error (.error _) last => Bounded Plan.tight.inst last
      | .error (.defect _) _ => 2 ^ 64 ≤ Plan.tight.inst.size) ∧
    ∀ limit, 15 ≤ limit →
      ∃ best? last, search .tight limit (.initial .tight (.empty .depthFirst)) = .ok best? last :=
  have terminates := search_terminates Plan.tight_builtIn (.empty .depthFirst)
  ⟨Plan.tight_builtIn, terminates.1, terminates.2 (by decide)⟩

end Search

end Knapsack

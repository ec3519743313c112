import Knapsack.Proofs.Search.Story

/-! # The shape of the search tree

A node is below another one when a chain of parents leads there. Every child came up in the block of
its parent, and a node is processed once; so whoever has children is not split again, and the
children of a node are the only ones that are new. Nodes of which neither is below the other stem
from different children of some node, and they inherit the disagreement of these.
-/

namespace Knapsack.Search

/-- One of some nodes is a child of another one. -/
structure ChildIn (nodes : List Node) (child parent : Node) : Prop where
  born : child ∈ nodes
  present : parent ∈ nodes
  names : child.parent? = some parent.id

/-- One of some nodes has another one among its ancestors. -/
def BelowIn (nodes : List Node) : Node → Node → Prop := Relation.TransGen (ChildIn nodes)

theorem BelowIn.append {nodes : List Node} {node above : Node} (below : BelowIn nodes node above)
    (more : List Node) : BelowIn (nodes ++ more) node above := by
  refine Relation.TransGen.mono ?_ _ _ below
  rintro child parent ⟨born, present, names⟩
  exact ⟨List.mem_append_left _ born, List.mem_append_left _ present, names⟩

section Stories

variable {plan : Plan} {standing : Standing} {events : List Event} {node child parent : Node}

/-- The ids of created nodes tell them apart. -/
theorem Story.eq_of_id (story : Story plan standing events) (here : node ∈ createdIn events)
    (there : child ∈ createdIn events) (same : node.id = child.id) : node = child := by
  have distinct : ((createdIn events).map (·.id)).Nodup := story.numbered ▸ List.nodup_range
  exact List.inj_on_of_nodup_map distinct here there same

theorem Story.id_lt (story : Story plan standing events) (created : node ∈ createdIn events) :
    node.id < standing.tree.created := by
  have number : node.id ∈ (createdIn events).map (·.id) := List.mem_map_of_mem created
  rwa [story.numbered, List.mem_range] at number

/-- Whoever has children was processed. -/
theorem Story.spent (story : Story plan standing events) : ∀ node ∈ createdIn events,
    ∀ id, node.parent? = some id → id ∈ (processedIn events).map (·.id) := by
  induction story with
  | planted drafted =>
    intro node member id names
    obtain rfl := List.mem_singleton.mp member
    exact nomatch drafted.below.symm.trans names
  | @processed before after born children earlier events _ _ _ block ih =>
    intro node member id names
    rw [createdIn_append, block.createdIn_eq] at member
    rw [processedIn_append, List.map_append, block.map_id_processedIn]
    rcases List.mem_append.mp member with old | new
    · exact List.mem_append_left _ (ih node old id names)
    · obtain rfl := Option.some.inj (names.symm.trans (block.names_parent node new))
      exact List.mem_append_right _ (List.mem_singleton_self _)

/-- A node is the root, or it came up in the block of an older node. -/
theorem Story.origin (story : Story plan standing events) : ∀ node ∈ createdIn events,
    node.parent? = none ∧ node.fixation = .unassigned plan.inst.size ∨
      ∃ parent ∈ createdIn events, ∃ before after children block,
        Block plan parent.queued before after children block ∧ node ∈ children ∧
          parent.id < before.tree.created := by
  induction story with
  | planted drafted =>
    intro node member
    obtain rfl := List.mem_singleton.mp member
    exact Or.inl ⟨drafted.below, drafted.fixes⟩
  | @processed before after born children earlier events story created _ block ih =>
    intro node member
    rw [createdIn_append, block.createdIn_eq] at member ⊢
    rcases List.mem_append.mp member with old | new
    · refine (ih node old).imp_right ?_
      rintro ⟨parent, present, origin⟩
      exact ⟨parent, List.mem_append_left _ present, origin⟩
    · exact Or.inr ⟨born, List.mem_append_left _ created, before, after, children, events, block,
        new, story.id_lt created⟩

/-- Every child came up in the block of its parent. -/
theorem Story.exists_block (story : Story plan standing events)
    (kin : ChildIn (createdIn events) child parent) : ∃ before after children block,
      Block plan parent.queued before after children block ∧ child ∈ children ∧
        parent.id < before.tree.created := by
  obtain ⟨born, present, names⟩ := kin
  rcases story.origin child born with ⟨orphan, -⟩ | ⟨other, created, origin⟩
  · exact nomatch orphan.symm.trans names
  · obtain ⟨before, after, children, block, isBlock, member, older⟩ := origin
    have same : other.id = parent.id :=
      Option.some.inj ((isBlock.names_parent child member).symm.trans names)
    obtain rfl := story.eq_of_id created present same
    exact ⟨before, after, children, block, isBlock, member, older⟩

theorem Story.younger (story : Story plan standing events)
    (kin : ChildIn (createdIn events) child parent) : parent.id < child.id := by
  obtain ⟨before, after, children, block, isBlock, member, older⟩ := story.exists_block kin
  have number : child.id ∈ children.map (·.id) := List.mem_map_of_mem member
  rw [isBlock.map_id_children.1] at number
  obtain ⟨place, -, same⟩ := List.mem_map.mp number
  omega

/-- A node that is below another one is more constrained. -/
theorem Story.refines (story : Story plan standing events)
    (below : BelowIn (createdIn events) child parent) :
    child.fixation.refines parent.fixation = true := by
  have step : ∀ child parent, ChildIn (createdIn events) child parent →
      child.fixation.refines parent.fixation = true := by
    intro child parent kin
    obtain ⟨before, after, children, block, isBlock, member, -⟩ := story.exists_block kin
    exact isBlock.refines child member
  induction below with
  | single kin => exact step _ _ kin
  | tail _ kin ih => exact Fixation.refines_trans ih (step _ _ kin)

/-- Nothing is below a node that was not processed yet. -/
theorem Story.not_below (story : Story plan standing events)
    (waits : parent.id ∉ (processedIn events).map (·.id)) :
    ¬ BelowIn (createdIn events) child parent := by
  intro below
  obtain ⟨last, -, kin⟩ := Relation.TransGen.tail'_iff.mp below
  exact waits (story.spent last kin.born parent.id kin.names)

/-- Nodes of which neither is below the other disagree. -/
theorem Story.apart (story : Story plan standing events) :
    ∀ node ∈ createdIn events, ∀ other ∈ createdIn events, node ≠ other →
      ¬ BelowIn (createdIn events) node other → ¬ BelowIn (createdIn events) other node →
        node.fixation.Incompatible other.fixation := by
  induction story with
  | planted drafted =>
    intro node here other there distinct
    exact absurd ((List.mem_singleton.mp here).trans (List.mem_singleton.mp there).symm) distinct
  | @processed before after born children earlier events story created waits block ih =>
    rw [createdIn_append, block.createdIn_eq]
    -- A child disagrees with the older nodes that its parent disagrees with.
    have across : ∀ child ∈ children, ∀ older ∈ createdIn earlier,
        ¬ BelowIn (createdIn earlier ++ children) child older →
          child.fixation.Incompatible older.fixation := by
      intro child new older old apart
      have kin : ChildIn (createdIn earlier ++ children) child born :=
        ⟨List.mem_append_right _ new, List.mem_append_left _ created, block.names_parent child new⟩
      have distinct : born ≠ older := by
        rintro rfl
        exact apart (.single kin)
      have above : ¬ BelowIn (createdIn earlier) born older := fun below =>
        apart (.head kin (below.append children))
      have disagree := ih born created older old distinct above (story.not_below waits)
      exact disagree.of_refines (block.refines child new)
    intro node here other there distinct apart reverse
    rcases List.mem_append.mp here with old | new <;>
      rcases List.mem_append.mp there with oldToo | newToo
    · exact ih node old other oldToo distinct (fun below => apart (below.append children))
        fun below => reverse (below.append children)
    · exact (across other newToo node old reverse).symm
    · exact across node new other oldToo apart
    · exact block.apart node new other newToo distinct

end Stories

/-- Nodes that make up a search tree. They are numbered as they came, and every one but the root has
a parent. The depth of a node is the number of items that it fixes; what is below a node is younger
and more constrained; and nodes of which neither is below the other disagree on an item, so no part
of the search space is seen twice. Only a feasible fractional node has children, and the feasible
ones among them are worth no more than the node. -/
structure SearchTree (inst : Instance) (nodes : List Node) : Prop where
  numbered : nodes.map (·.id) = List.range nodes.length
  parents : ∀ node ∈ nodes, node.parent? = none ∧ node.fixation = .unassigned inst.size ∨
    ∃ parent, ChildIn nodes node parent
  depth : ∀ node ∈ nodes, node.depth = node.fixation.fixedCount
  younger : ∀ child parent, ChildIn nodes child parent → parent.id < child.id
  refines : ∀ node above, BelowIn nodes node above → node.fixation.refines above.fixation = true
  apart : ∀ node ∈ nodes, ∀ other ∈ nodes, node ≠ other → ¬ BelowIn nodes node other →
    ¬ BelowIn nodes other node → node.fixation.Incompatible other.fixation
  leaves : ∀ node, node.feasible = false ∨ node.relaxed.isIntegral = true →
    ∀ child, ¬ ChildIn nodes child node
  values : ∀ child parent, ChildIn nodes child parent → child.feasible = true →
    child.value ≤ parent.value

section Heads

variable {plan : Plan} {frontier : Frontier} {limit count : ℕ} {state : State Frontier}

/-- Every node that was created is drawn. -/
theorem Head.drawn (builtIn : plan.BuiltIn)
    (head : Head plan limit (.initial plan frontier) count state) :
    ∀ node ∈ createdIn state.events, node.Drawn plan.inst := by
  refine head.by_blocks builtIn
    (fun _ state => ∀ node ∈ createdIn state.events, node.Drawn plan.inst) ?_ ?_
  · intro root drawn _ node member
    rw [State.events_opening] at member
    obtain rfl := List.mem_singleton.mp member
    exact drawn
  · intro count before node rest children events after _ drawn _ _ advance other member
    rw [advance.chronicle, createdIn_append, advance.block.createdIn_eq] at member
    exact (List.mem_append.mp member).elim (drawn other) (advance.drawn other)

theorem Head.searchTree (builtIn : plan.BuiltIn)
    (head : Head plan limit (.initial plan frontier) count state) :
    SearchTree plan.inst (createdIn state.events) := by
  have story := head.story builtIn
  have drawn := head.drawn builtIn
  refine ⟨story.consistent.numbered, fun node created => ?_, fun node created =>
    ((head.frugal builtIn).placed node created).1, fun _ _ => story.younger,
    fun _ _ => story.refines, story.apart, fun node leaf child kin => ?_,
    fun child parent kin feasible => ?_⟩
  · refine (story.origin node created).imp_right ?_
    rintro ⟨parent, present, before, after, children, block, isBlock, member, -⟩
    exact ⟨parent, created, present, isBlock.names_parent node member⟩
  · obtain ⟨before, after, children, block, isBlock, member, -⟩ := story.exists_block kin
    cases isBlock.offspring with
    | none => exact nomatch member
    | pair feasible fractional _ _ _ =>
      rcases leaf with infeasible | integral
      · exact nomatch feasible.symm.trans infeasible
      · exact nomatch fractional.symm.trans integral
  · exact ((drawn child kin.born).value_le_of_refines (drawn parent kin.present)
      (story.refines (.single kin)) feasible).2

end Heads

/-- Under any ranking and any budget, what a search has created makes up a tree at every head, and
in the end. -/
theorem created_nodes_are_a_tree {plan : Plan} (builtIn : plan.BuiltIn) (frontier : Frontier)
    (limit : ℕ) :
    (∀ count state, Head plan limit (.initial plan frontier) count state →
      SearchTree plan.inst (createdIn state.events)) ∧
    match search plan limit (.initial plan frontier) with
    | .ok _ last | .error (.error _) last => SearchTree plan.inst (createdIn last.events)
    | .error (.defect _) _ => 2 ^ 64 ≤ plan.inst.size := by
  refine ⟨fun count state head => head.searchTree builtIn, ?_⟩
  -- The end of a search creates nothing.
  have silent : ∀ events statistics, createdIn (events ++ [.searchEnded statistics]) =
      createdIn events := fun events _ => (createdIn_append events _).trans (List.append_nil _)
  refine search_leaves _ _ builtIn ?_ ?_
  · rintro last ⟨count, head, -⟩
    rw [State.events_completed, silent]
    exact head.searchTree builtIn
  · rintro last ⟨head, -⟩
    rw [State.events_interrupted, silent]
    exact head.searchTree builtIn

theorem created_nodes_are_a_tree_tight : Plan.tight.BuiltIn ∧
    ∃ best? last, search .tight 15 (.initial .tight (.empty .bestBound)) = .ok best? last ∧
      SearchTree Plan.tight.inst (createdIn last.events) := by
  obtain ⟨best?, last, answers⟩ := tight_isOk (.empty .bestBound)
  obtain ⟨-, tree⟩ := created_nodes_are_a_tree Plan.tight_builtIn (.empty .bestBound) 15
  rw [answers] at tree
  exact ⟨Plan.tight_builtIn, best?, last, answers, tree⟩

end Knapsack.Search

import Knapsack.Proofs.Search.Chronicle

/-! # What a turn brings up

Whatever the strategies of a search are, a turn processes the node that left the frontier and brings
up its children. They get the next numbers, name the node as their parent, stand one level deeper,
and join what waits one after the other. Nothing more is needed to say in which order the tree is
explored. A root that is not integral has children for certain, since nothing was found before it.
-/

namespace Knapsack.Search

/-- The node that an event reports as new. -/
def Event.created? : Event → Option Node
  | .nodeCreated node => some node
  | _ => none

/-- The node that an event reports as processed. -/
def Event.processed? : Event → Option Node
  | .nodeProcessed node _ _ _ _ => some node
  | _ => none

/-- The nodes that were created, in the order of their creation. -/
def createdIn (events : List Event) : List Node := events.filterMap (·.created?)

/-- The nodes that were processed, in the order of their processing. -/
def processedIn (events : List Event) : List Node := events.filterMap (·.processed?)

theorem mem_createdIn {events : List Event} {node : Node} :
    node ∈ createdIn events ↔ .nodeCreated node ∈ events := by
  rw [createdIn, List.mem_filterMap]
  constructor
  · rintro ⟨event, member, new⟩
    cases event <;> cases new
    exact member
  · intro member
    exact ⟨_, member, rfl⟩

@[simp]
theorem createdIn_append (first second : List Event) :
    createdIn (first ++ second) = createdIn first ++ createdIn second := List.filterMap_append

@[simp]
theorem processedIn_append (first second : List Event) :
    processedIn (first ++ second) = processedIn first ++ processedIn second := List.filterMap_append

@[simp]
theorem createdIn_map_nodeCreated (nodes : List Node) :
    createdIn (nodes.map .nodeCreated) = nodes := by
  rw [createdIn, List.filterMap_map]
  exact List.filterMap_some

@[simp]
theorem processedIn_map_nodeCreated (nodes : List Node) :
    processedIn (nodes.map .nodeCreated) = [] := by
  rw [processedIn, List.filterMap_map]
  exact List.filterMap_eq_nil_iff.mpr fun _ _ => rfl

variable {plan : Plan} {node : Node} {before after : State Frontier} {children : List Node}

/-- Entries that are numbered from zero on are as many as their numbers. -/
theorem length_eq_of_numbered {α : Type} {entries : List α} {number : α → ℕ} {count : ℕ}
    (numbered : entries.map number = List.range count) : entries.length = count := by
  rw [← List.length_map number, numbered, List.length_range]

/-- Nodes that get the next numbers are numbered within them. -/
theorem id_within {start : ℕ} {nodes : List Node}
    (numbers : nodes.map (·.id) = (List.range nodes.length).map (start + ·)) (member : node ∈ nodes) :
    start ≤ node.id ∧ node.id < start + nodes.length := by
  have listed : node.id ∈ nodes.map (·.id) := List.mem_map_of_mem member
  rw [numbers] at listed
  obtain ⟨index, small, same⟩ := List.mem_map.mp listed
  have less := List.mem_range.mp small
  omega

/-- The heuristic neither creates nor processes a node. -/
theorem State.silent_harvested (state : State Frontier) (node : Node) (notices : List Notice)
    (found : List (Solution × Fraction)) :
    createdIn (state.harvested node notices found).events = createdIn state.events ∧
      processedIn (state.harvested node notices found).events = processedIn state.events := by
  obtain ⟨discoveries, events, each⟩ := state.exists_events_harvested node notices found
  have silent : createdIn discoveries = [] ∧ processedIn discoveries = [] := by
    constructor <;> apply List.filterMap_eq_nil_iff.mpr <;> intro event member <;>
      obtain ⟨entry, -, incumbent, rfl⟩ := each event member <;> rfl
  rw [events, createdIn_append, processedIn_append, silent.1, silent.2, List.append_nil,
    List.append_nil]
  exact ⟨rfl, rfl⟩

/-- Closing a node reports it as processed. -/
theorem processedIn_closed (state : State Frontier) (node : Node) (status : Status)
    (found : List Solution) : processedIn (state.closed node status found).events =
      processedIn state.events ++ [{ node with status }] := by
  rw [State.events_closed, processedIn_append]
  rfl

/-- Closing a node creates none. -/
theorem createdIn_closed (state : State Frontier) (node : Node) (status : Status)
    (found : List Solution) :
    createdIn (state.closed node status found).events = createdIn state.events := by
  rw [State.events_closed, createdIn_append]
  exact List.append_nil _

/-- The end of a search processes no node. -/
theorem processedIn_of_ended {events later : List Event} {statistics : Statistics}
    (ended : later = events ++ [.searchEnded statistics]) :
    processedIn later = processedIn events := by
  rw [ended, processedIn_append]
  exact List.append_nil _

/-- The end of a search creates no node. -/
theorem createdIn_of_ended {events later : List Event} {statistics : Statistics}
    (ended : later = events ++ [.searchEnded statistics]) :
    createdIn later = createdIn events := by
  rw [ended, createdIn_append]
  exact List.append_nil _

/-- What classifying a node did adds no processed node of its own. -/
theorem Classified.processedIn_eq {status : Status} {found : List Solution}
    {middle : State Frontier} (classified : Classified plan node before status found middle) :
    processedIn middle.events = processedIn before.events := by
  cases classified with
  | infeasible _ => rfl
  | pruned _ _ => rfl
  | feasible _ _ _ => rw [State.events_recorded]
  | branched _ _ _ _ _ _ _ _ _ =>
    rw [State.events_grown, processedIn_append, processedIn_map_nodeCreated, List.append_nil]
    exact (before.silent_harvested node _ _).2

theorem State.created_grown (state : State Frontier) (children : List Node) :
    (state.grown children).tree.created = state.tree.created + children.length := by
  unfold State.grown
  suffices general : ∀ start : State Frontier,
      (children.foldl State.joined start).tree.created = start.tree.created + children.length from
    general _
  induction children with
  | nil => exact fun _ => rfl
  | cons child rest ih =>
    intro start
    rw [List.foldl_cons, ih (start.joined child), List.length_cons]
    change start.tree.created + 1 + rest.length = _
    omega

namespace Grow

variable {inst : Instance} {parent : Node} {tree : Tree} {fixations : List Fixation}

/-- Children get the next numbers. -/
theorem map_id (grow : Grow inst parent tree fixations children) :
    children.map (·.id) = (List.range children.length).map (tree.created + ·) := by
  induction grow with
  | nil => rfl
  | @cons tree _ _ _ rest _ _ drafted _ ih =>
    rw [List.map_cons, drafted.number, ih, List.length_cons, List.range_succ_eq_map, List.map_cons,
      List.map_map]
    congr 1
    apply List.map_congr_left
    intro index _
    change tree.created + 1 + index = tree.created + (index + 1)
    omega

theorem deeper (grow : Grow inst parent tree fixations children) :
    ∀ child ∈ children, child.depth = parent.depth + 1 := by
  induction grow with
  | nil => simp
  | cons _ _ drafted _ ih => exact List.forall_mem_cons.mpr ⟨drafted.depth, ih⟩

end Grow

/-- What a turn brings up: the node is processed, and its children are created and wait. Unless
there are none, they have the fixations that the branching gave. -/
structure Brood (plan : Plan) (node : Node) (before : State Frontier) (children : List Node)
    (after : State Frontier) : Prop where
  created : createdIn after.events = createdIn before.events ++ children
  processed : ∃ status, processedIn after.events = processedIn before.events ++ [{ node with status }]
  joins : after.frontier = before.frontier.join children
  grows : after.tree.created = before.tree.created + children.length
  counts : after.statistics.iterations = before.statistics.iterations + 1
  numbers : children.map (·.id) = (List.range children.length).map (before.tree.created + ·)
  names : ∀ child ∈ children, child.parent? = some node.id
  deeper : ∀ child ∈ children, child.depth = node.depth + 1
  refines : ∀ child ∈ children, child.fixation.refines node.fixation = true
  stems : children = [] ∨ ∃ call, plan.branching call node = .ok (children.map (·.fixation))

namespace Brood

variable {rest : Frontier}
  (brood : Brood plan node { before with frontier := rest } children after)

include brood

/-- The node that left the frontier is the next one that is processed. -/
theorem exists_processed :
    ∃ status, processedIn after.events = processedIn before.events ++ [{ node with status }] :=
  brood.processed

theorem queue_perm : after.frontier.queue.Perm (children.map Node.queued ++ rest.queue) :=
  brood.joins ▸ rest.queue_join_perm children

/-- After a turn the children wait, besides those that waited before. -/
theorem of_waits {other : Node} (waits : other ∈ after.frontier.queue) :
    (∃ child ∈ children, child.queued = other) ∨ other ∈ rest.queue :=
  (List.mem_append.mp (brood.queue_perm.mem_iff.mp waits)).imp_left List.mem_map.mp

end Brood

theorem Statistics.iterations_record (statistics : Statistics) (status : Status) :
    (statistics.record status).iterations = statistics.iterations + 1 := by
  cases status <;> rfl

private theorem childless {status : Status} {found : List Solution} {middle : State Frontier}
    (created : createdIn middle.events = createdIn before.events)
    (processed : processedIn middle.events = processedIn before.events)
    (frontier : middle.frontier = before.frontier) (tree : middle.tree = before.tree)
    (statistics : middle.statistics = before.statistics) :
    Brood plan node before [] (middle.closed node status found) where
  created := (createdIn_closed ..).trans (created.trans (List.append_nil _).symm)
  processed := ⟨status, (processedIn_closed ..).trans (congrArg (· ++ _) processed)⟩
  joins := frontier
  grows := congrArg Tree.created tree
  counts := (Statistics.iterations_record ..).trans (by rw [statistics])
  numbers := rfl
  names := by simp
  deeper := by simp
  refines := by simp
  stems := Or.inl rfl

/-- Every turn brings up some children, if only none. -/
theorem Turn.exists_brood (turn : Turn plan node before after) :
    ∃ children, Brood plan node before children after := by
  obtain ⟨classified⟩ := turn
  have processed := classified.processedIn_eq
  cases classified with
  | infeasible _ => exact ⟨[], childless rfl rfl rfl rfl rfl⟩
  | pruned _ _ => exact ⟨[], childless rfl rfl rfl rfl rfl⟩
  | feasible _ _ _ =>
    exact ⟨[], childless (congrArg createdIn (State.events_recorded ..)) processed rfl rfl rfl⟩
  | @branched _ _ _ harvest found _ _ _ fixations children branches _ grow =>
    refine ⟨children, ?_, ⟨.branched, ?_⟩, ?_, ?_, ?_, grow.map_id, grow.names_parent, grow.deeper,
      grow.refines, Or.inr ⟨_, grow.map_fixation.symm ▸ branches⟩⟩
    · rw [createdIn_closed, State.events_grown, createdIn_append, createdIn_map_nodeCreated,
        (before.silent_harvested node _ _).1]
    · rw [processedIn_closed, processed]
    · change ((before.harvested node harvest.notices found).grown children).frontier = _
      rw [State.grown_frontier, State.harvested_frontier]
    · change ((before.harvested node harvest.notices found).grown children).tree.created = _
      rw [State.created_grown, State.harvested_tree]
    · refine (Statistics.iterations_record ..).trans ?_
      rw [State.grown_statistics, State.harvested_iterations]

private theorem Classified.status_eq_branched {status : Status} {found : List Solution}
    {middle : State Frontier} (classified : Classified plan node before status found middle)
    (drawn : node.Drawn plan.inst) (fixes : node.fixation = .unassigned plan.inst.size)
    (fractional : node.relaxed.isIntegral = false) (nothing : before.lowerBound = .negInfinity) :
    status = .branched := by
  cases classified with
  | infeasible infeasible =>
    obtain ⟨chosen, load, -⟩ := plan.inst.exists_optimal_load
    have feasible :=
      (drawn.valueOf_le load (fixes ▸ Fixation.allows_unassigned plan.inst.size chosen)).1
    exact nomatch feasible.symm.trans infeasible
  | pruned _ dominated =>
    rw [nothing] at dominated
    exact nomatch dominated
  | feasible _ _ integral => exact nomatch integral.symm.trans fractional
  | branched _ _ _ _ _ _ _ _ _ => rfl

/-- A root that is not integral is branched on. -/
theorem Head.exists_branched {excuse : Failure → Prop} {frontier : Frontier} {limit count : ℕ}
    {state : State Frontier} (tame : plan.Tame excuse)
    (fractional : (Relaxation.greedySelection plan.inst (.unassigned plan.inst.size)).all
      (·.isInteger) = false)
    (head : Head plan limit (.initial plan frontier) count state) (positive : 0 < count) :
    ∃ node ∈ processedIn state.events, node.status = .branched := by
  induction head with
  | root _ _ => exact absurd positive (lt_irrefl 0)
  | @turn count before after node rest head _ _ next processes ih =>
    obtain ⟨waits, -, drawn, @⟨status, found, middle, classified⟩⟩ :=
      head.exists_turn tame next processes
    rw [processedIn_closed, classified.processedIn_eq]
    rcases Nat.eq_zero_or_pos count with rfl | later
    · cases head with
      | root announces plants =>
        obtain ⟨root, ⟨-, drafted⟩, rfl⟩ := exists_planted tame announces plants
        obtain ⟨rfl, -⟩ := List.cons.inj waits
        refine ⟨_, List.mem_append_right _ (List.mem_singleton_self _), ?_⟩
        apply classified.status_eq_branched drawn drafted.fixes _ rfl
        rw [Solution.isIntegral, drawn.selects]
        exact drafted.fixes ▸ fractional
    · obtain ⟨earlier, member, branched⟩ := ih later
      exact ⟨earlier, List.mem_append_left _ member, branched⟩

end Knapsack.Search

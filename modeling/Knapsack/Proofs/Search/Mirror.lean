import Knapsack.Proofs.Observer.Records
import Knapsack.Proofs.Search.Ancestry
import Knapsack.Proofs.Search.Safety

/-! # A recorder mirrors the search

At the heads of a search and at its end, no node is between its creation and that of its sibling, or
between the creation of its children and its own processing. So then the records of a recorder link
up: a child dates from the iteration in which its parent was processed, and exactly the nodes that
were branched on have children, which are two of consecutive numbers.
-/

namespace Knapsack

namespace Search

/-- The nodes that name a node as their parent, in the order of their creation. -/
def childrenIn (events : List Event) (id : ℕ) : List Node :=
  (createdIn events).filter (·.parent? == some id)

section Stories

variable {plan : Plan} {node : Node} {standing before after : Standing} {children : List Node}
  {events : List Event} {count : ℕ}

theorem Discoveries.birthsAfter_eq {incumbent final : Bound} {found : List Solution}
    (discovers : Discoveries node incumbent found events final) : birthsAfter count events = [] :=
  List.map_eq_nil_iff.mp (map_fst_birthsAfter.trans discovers.silent.1)

namespace Block

/-- The children of a block date from before its node was processed. -/
theorem birthsAfter_eq (block : Block plan node before after children events) :
    birthsAfter count events = children.map (·, count) := by
  cases block with
  | infeasible _ => rfl
  | pruned _ _ => rfl
  | feasible _ _ _ => rfl
  | branched _ _ _ _ discovers _ _ _ _ =>
    rw [birthsAfter_append, discovers.birthsAfter_eq, discovers.silent.2]
    rfl

/-- There are no children, or two of consecutive numbers. -/
theorem eq_nil_or_pair (block : Block plan node before after children events) :
    children = [] ∨ ∃ left right, children = [left, right] ∧ right.id = left.id + 1 := by
  cases block.offspring with
  | none => exact Or.inl rfl
  | pair _ _ _ first second =>
    refine Or.inr ⟨_, _, rfl, ?_⟩
    rw [first.number, second.number]
    rfl

/-- A block adds its children to those of its node. -/
theorem childrenIn_append (block : Block plan node before after children events)
    (earlier : List Event) (id : ℕ) : childrenIn (earlier ++ events) id =
      childrenIn earlier id ++ if id = node.id then children else [] := by
  rw [childrenIn, createdIn_append, block.createdIn_eq, List.filter_append]
  refine congrArg (childrenIn earlier id ++ ·) ?_
  split_ifs with own
  · refine List.filter_eq_self.mpr fun child member => ?_
    rw [block.names_parent child member, own]
    exact beq_self_eq_true _
  · refine List.filter_eq_nil_iff.mpr fun child member => ?_
    rw [block.names_parent child member]
    simpa using Ne.symm own

end Block

namespace Story

/-- A child dates from the iteration in which its parent was processed. -/
theorem dated (story : Story plan standing events) : ∀ birth ∈ births events,
    ∀ parent, birth.1.parent? = some parent →
      ((processedIn events).map (·.id))[birth.2]? = some parent := by
  induction story with
  | planted drafted =>
    intro birth member parent names
    obtain rfl := List.mem_singleton.mp member
    exact nomatch drafted.below.symm.trans names
  | @processed before after born children earlier events story _ _ block ih =>
    intro birth member parent names
    rw [births, birthsAfter_append, block.birthsAfter_eq, Nat.zero_add] at member
    rw [processedIn_append, List.map_append, block.map_id_processedIn]
    rcases List.mem_append.mp member with old | new
    · have there := ih birth old parent names
      rwa [List.getElem?_append_left (List.getElem?_eq_some_iff.mp there).1]
    · obtain ⟨child, listed, rfl⟩ := List.mem_map.mp new
      obtain rfl := Option.some.inj (names.symm.trans (block.names_parent child listed))
      rw [List.getElem?_append_right (List.length_map _).le, List.length_map, Nat.sub_self]
      rfl

/-- Every node but the first one has a parent, which is older and one level higher. -/
theorem exists_parent (story : Story plan standing events) : ∀ node ∈ createdIn events,
    node.id = 0 ∧ node.parent? = none ∨ ∃ parent ∈ createdIn events,
      node.parent? = some parent.id ∧ parent.id < node.id ∧ node.depth = parent.depth + 1 := by
  induction story with
  | planted drafted =>
    intro node member
    obtain rfl := List.mem_singleton.mp member
    exact Or.inl ⟨drafted.number, drafted.below⟩
  | @processed before after born children earlier events story created _ block ih =>
    intro node member
    rw [createdIn_append, block.createdIn_eq] at member ⊢
    rcases List.mem_append.mp member with old | new
    · refine (ih node old).imp_right ?_
      rintro ⟨parent, present, kin⟩
      exact ⟨parent, List.mem_append_left _ present, kin⟩
    · refine Or.inr ⟨born, List.mem_append_left _ created, block.names_parent node new, ?_,
        (block.below node new).1⟩
      exact (story.id_lt created).trans_le (id_within block.map_id_children.1 new).1

/-- Nobody names a node as parent that was not processed. -/
theorem childrenIn_eq_nil (story : Story plan standing events) {id : ℕ}
    (waits : id ∉ (processedIn events).map (·.id)) : childrenIn events id = [] := by
  refine List.filter_eq_nil_iff.mpr fun child created names => waits ?_
  exact story.spent child created id (beq_iff_eq.mp names)

/-- A processed node has two children of consecutive numbers if it was branched on, and otherwise
none. -/
theorem split (story : Story plan standing events) : ∀ node ∈ processedIn events,
    if node.status = .branched then
      ∃ left right, childrenIn events node.id = [left, right] ∧ right.id = left.id + 1
    else childrenIn events node.id = [] := by
  induction story with
  | planted _ => exact fun node absent => nomatch absent
  | @processed before after born children earlier events story _ waits block ih =>
    obtain ⟨status, -, branches, closes⟩ := block.exists_processed
    have own : childrenIn (earlier ++ events) born.id = children := by
      have nobody : childrenIn earlier born.id = [] := story.childrenIn_eq_nil waits
      rw [block.childrenIn_append, nobody]
      exact if_pos rfl
    intro node member
    rw [processedIn_append, closes] at member
    rcases List.mem_append.mp member with old | new
    · have other : node.id ≠ born.id := fun same => waits (same ▸ List.mem_map_of_mem old)
      have kept : childrenIn (earlier ++ events) node.id = childrenIn earlier node.id := by
        rw [block.childrenIn_append]
        exact (congrArg _ (if_neg other)).trans (List.append_nil _)
      rw [kept]
      exact ih node old
    · obtain rfl := List.mem_singleton.mp new
      change if status = .branched then
        ∃ left right, childrenIn (earlier ++ events) born.id = [left, right] ∧ _
        else childrenIn (earlier ++ events) born.id = []
      rw [own]
      split_ifs with branched
      · exact block.eq_nil_or_pair.resolve_left (branches.mp branched)
      · exact not_not.mp fun present => branched (branches.mpr present)

end Story

end Stories

end Search

open Search

/-- A recorder that shows the tree of a search which has created some number of nodes. -/
structure TreeRecorder.Mirrors (recorder : TreeRecorder) (count : ℕ) (events : List Event) :
    Prop where
  size : recorder.nodes.length = count
  numbered : ∀ id < count, ∃ record, recorder.nodes[id]? = some record ∧ record.id = id ∧
    recorder.node? id = some record
  describes : List.Forall₂ (fun node record => record.Describes node) (createdIn events)
    recorder.nodes
  linked : ∀ record ∈ recorder.nodes, record.id = 0 ∧ record.parent? = none ∨
    ∃ parent ∈ recorder.nodes, record.parent? = some parent.id ∧ parent.id < record.id ∧
      record.depth = parent.depth + 1 ∧ parent.processedAt? = some record.createdAt
  order : recorder.iterations = (processedIn events).map (·.id)
  once : recorder.iterations.Nodup
  located : ∀ id place, (∃ record, recorder.node? id = some record ∧
    record.processedAt? = some place) ↔ recorder.iterations[place]? = some id
  completed : ∀ node lower upper incumbent? found,
    .nodeProcessed node lower upper incumbent? found ∈ events →
      ∃ record, recorder.node? node.id = some record ∧ record.status = node.status ∧
        record.bounds? = some (lower.toBinary64, upper.toBinary64)
  settled : ∀ record ∈ recorder.nodes,
    record.status.isTerminal = true ∧ record.bounds?.isSome = true ↔
      record.id ∈ recorder.iterations
  waiting : ∀ record ∈ recorder.nodes, record.id ∉ recorder.iterations →
    record.status = .unknown ∧ record.bounds? = none
  split : ∀ id, if (recorder.node? id).map (·.status) = some .branched then
      ∃ left right, recorder.children id = [left, right] ∧ right.id = left.id + 1
    else recorder.children id = []

namespace TreeRecorder

variable {plan : Plan} {standing : Standing} {events : List Event} {recorder : TreeRecorder}
  {count : ℕ}

namespace Records

private theorem children (records : recorder.Records events) (id : ℕ) :
    List.Forall₂ (fun node record => record.Describes node) (childrenIn events id)
      (recorder.children id) := by
  refine List.rel_filter ?_ records.describes
  intro node record describes
  change (node.parent? == some id) = true ↔ (record.parent? == some id) = true
  rw [describes.below]

private theorem exists_node? (records : recorder.Records events) (consistent : Consistent events)
    {id : ℕ} (known : id ∈ (createdIn events).map (·.id)) : ∃ record ∈ recorder.nodes,
      recorder.node? id = some record ∧ record.id = id := by
  rw [← records.map_id] at known
  obtain ⟨record, listed, same⟩ := List.mem_map.mp known
  exact ⟨record, listed,
    (node?_eq_some_iff (records.nodup consistent)).mpr ⟨listed, same⟩, same⟩

private theorem exists_completed (records : recorder.Records events)
    (consistent : Consistent events) {node : Node} {lower upper : Bound}
    {incumbent? : Option Solution} {found : List Solution}
    (member : .nodeProcessed node lower upper incumbent? found ∈ events) :
    ∃ record, recorder.node? node.id = some record ∧ record.status = node.status ∧
      record.bounds? = some (lower.toBinary64, upper.toBinary64) := by
  have known := consistent.later events (List.prefix_refl _)
    (List.mem_map_of_mem (mem_processedIn_of_mem member))
  obtain ⟨record, listed, present, same⟩ := records.exists_node? consistent known
  exact ⟨record, present,
    (records.current record listed).completed node lower upper incumbent? found member same⟩

private theorem settled (records : recorder.Records events) (consistent : Consistent events) :
    ∀ record ∈ recorder.nodes, record.status.isTerminal = true ∧ record.bounds?.isSome = true ↔
      record.id ∈ recorder.iterations := by
  intro record listed
  constructor
  · rintro ⟨terminal, -⟩
    by_contra waits
    rw [(records.waiting record listed waits).1] at terminal
    cases terminal
  · intro done
    rw [records.order] at done
    obtain ⟨node, processed, same⟩ := List.mem_map.mp done
    obtain ⟨lower, upper, incumbent?, found, member⟩ := mem_processedIn.mp processed
    obtain ⟨status, bounds⟩ :=
      (records.current record listed).completed node lower upper incumbent? found member same.symm
    rw [status, bounds]
    exact ⟨consistent.final node processed, rfl⟩

private theorem linked (records : recorder.Records events) (story : Story plan standing events) :
    ∀ record ∈ recorder.nodes, record.id = 0 ∧ record.parent? = none ∨
      ∃ parent ∈ recorder.nodes, record.parent? = some parent.id ∧ parent.id < record.id ∧
        record.depth = parent.depth + 1 ∧ parent.processedAt? = some record.createdAt := by
  intro record listed
  obtain ⟨birth, born, describes, created⟩ := exists_partner records.described record listed
  have member : birth.1 ∈ createdIn events := by
    rw [← map_fst_births]
    exact List.mem_map_of_mem born
  rw [describes.id, describes.below, describes.depth]
  refine (story.exists_parent birth.1 member).imp_right ?_
  rintro ⟨parent, present, names, older, deeper⟩
  obtain ⟨grower, there, describesToo⟩ := records.exists_record present
  refine ⟨grower, there, ?_⟩
  rw [describesToo.id, describesToo.depth, records.located there, records.order,
    describesToo.id, created]
  exact ⟨names, older, deeper, story.dated birth born parent.id names⟩

private theorem split (records : recorder.Records events) (story : Story plan standing events)
    (id : ℕ) : if (recorder.node? id).map (·.status) = some .branched then
      ∃ left right, recorder.children id = [left, right] ∧ right.id = left.id + 1
    else recorder.children id = [] := by
  have consistent := story.consistent
  have matched := records.children id
  by_cases done : id ∈ (processedIn events).map (·.id)
  · obtain ⟨node, processed, rfl⟩ := List.mem_map.mp done
    obtain ⟨lower, upper, incumbent?, found, member⟩ := mem_processedIn.mp processed
    obtain ⟨record, present, status, -⟩ := records.exists_completed consistent member
    have shape := story.split node processed
    have classified : (recorder.node? node.id).map (·.status) = some .branched ↔
        node.status = .branched := by
      rw [present, Option.map_some, status, Option.some_inj]
    by_cases branched : node.status = .branched
    · rw [if_pos (classified.mpr branched)]
      rw [if_pos branched] at shape
      obtain ⟨left, right, pair, next⟩ := shape
      rw [pair] at matched
      obtain ⟨first, _, fits, rest, two⟩ := List.forall₂_cons_left_iff.mp matched
      obtain ⟨second, _, fitsToo, nothing, rfl⟩ := List.forall₂_cons_left_iff.mp rest
      obtain rfl := List.forall₂_nil_left_iff.mp nothing
      refine ⟨first, second, two, ?_⟩
      rw [fits.id, fitsToo.id, next]
    · rw [if_neg fun same => branched (classified.mp same)]
      rw [if_neg branched] at shape
      rw [shape] at matched
      exact List.forall₂_nil_left_iff.mp matched
  · have status : (recorder.node? id).map (·.status) ≠ some .branched := by
      intro branched
      obtain ⟨record, present, same⟩ := Option.map_eq_some_iff.mp branched
      obtain ⟨listed, rfl⟩ := (node?_eq_some_iff (records.nodup consistent)).mp present
      rw [← records.order] at done
      exact nomatch same.symm.trans (records.waiting record listed done).1
    rw [if_neg status]
    rw [story.childrenIn_eq_nil done] at matched
    exact List.forall₂_nil_left_iff.mp matched

/-- A recorder with the records of a story mirrors it. -/
theorem mirrors (records : recorder.Records events) (story : Story plan standing events) :
    recorder.Mirrors standing.tree.created events := by
  have consistent := story.consistent
  have numbers : recorder.nodes.map (·.id) = List.range standing.tree.created :=
    records.map_id.trans story.numbered
  have size : recorder.nodes.length = standing.tree.created := length_eq_of_numbered numbers
  refine ⟨size, fun id small => ?_, records.describes, records.linked story, records.order, ?_,
    fun id place => ?_, fun _ _ _ _ _ => records.exists_completed consistent,
    records.settled consistent, records.waiting, records.split story⟩
  · have within : id < recorder.nodes.length := size ▸ small
    have same : recorder.nodes[id].id = id := by
      have entry : (recorder.nodes.map (·.id))[id]? = some id := by
        rw [numbers, List.getElem?_range small]
      rw [List.getElem?_map, List.getElem?_eq_getElem within] at entry
      exact Option.some.inj entry
    exact ⟨recorder.nodes[id], List.getElem?_eq_getElem within, same,
      (node?_eq_some_iff (records.nodup consistent)).mpr ⟨List.getElem_mem within, same⟩⟩
  · rw [records.order]
    exact consistent.once
  · constructor
    · rintro ⟨record, present, processed⟩
      obtain ⟨listed, rfl⟩ := (node?_eq_some_iff (records.nodup consistent)).mp present
      exact (records.located listed place).mp processed
    · intro entry
      have done := List.mem_of_getElem? entry
      rw [records.order] at done
      obtain ⟨record, listed, present, rfl⟩ := records.exists_node? consistent
        (consistent.later events (List.prefix_refl _) done)
      exact ⟨record, present, (records.located listed place).mpr entry⟩

end Records

/-- The end of a search changes nothing that is recorded. -/
theorem Mirrors.ended {statistics : Statistics} (mirrors : recorder.Mirrors count events) :
    recorder.Mirrors count (events ++ [.searchEnded statistics]) := by
  have created : createdIn (events ++ [.searchEnded statistics]) = createdIn events :=
    createdIn_of_ended rfl
  have processed : processedIn (events ++ [.searchEnded statistics]) = processedIn events :=
    processedIn_of_ended rfl
  refine { mirrors with
    describes := created ▸ mirrors.describes
    order := processed ▸ mirrors.order
    completed := fun node lower upper incumbent? found member => ?_ }
  exact mirrors.completed node lower upper incumbent? found (by simpa using member)

end TreeRecorder

namespace Search

variable {plan : Plan} {frontier : Frontier} {limit count : ℕ} {state : State Frontier}

/-- A recorder that watched a search up to a head mirrors it. -/
theorem Head.exists_recorder (builtIn : plan.BuiltIn)
    (head : Head plan limit (.initial plan frontier) count state) :
    ∃ recorder, TreeRecorder.observeAll {} state.events = .ok recorder ∧
      recorder.Mirrors state.tree.created state.events := by
  have story := head.story builtIn
  obtain ⟨recorder, outcome, records⟩ :=
    TreeRecorder.exists_records (head.traceable builtIn.tame).orderly story.consistent
  exact ⟨recorder, outcome, records.mirrors story⟩

private theorem Head.exists_recorder_of_ended {last : State Frontier} {statistics : Statistics}
    (builtIn : plan.BuiltIn) (head : Head plan limit (.initial plan frontier) count state)
    (ended : last.events = state.events ++ [.searchEnded statistics]) :
    ∃ recorder, TreeRecorder.observeAll {} last.events = .ok recorder ∧
      recorder.Mirrors state.tree.created last.events := by
  obtain ⟨recorder, outcome, mirrors⟩ := head.exists_recorder builtIn
  rw [ended]
  refine ⟨recorder, ?_, mirrors.ended⟩
  rw [TreeRecorder.observeAll, List.foldlM_append]
  exact bind_eq_ok.mpr ⟨recorder, outcome, rfl⟩

/-- Under any ranking and any budget, a fresh recorder can watch a search from its start. What it
then shows is the tree of the search, at every head and in the end. -/
theorem recorder_mirrors_search (builtIn : plan.BuiltIn) (frontier : Frontier) (limit : ℕ) :
    (∀ count state, Head plan limit (.initial plan frontier) count state →
      ∃ recorder, TreeRecorder.observeAll {} state.events = .ok recorder ∧
        recorder.Mirrors state.tree.created state.events) ∧
    match search plan limit (.initial plan frontier) with
    | .ok _ last | .error (.error _) last =>
      ∃ recorder, TreeRecorder.observeAll {} last.events = .ok recorder ∧
        recorder.Mirrors last.statistics.nodesCreated last.events
    | .error (.defect _) _ => 2 ^ 64 ≤ plan.inst.size := by
  refine ⟨fun count state head => head.exists_recorder builtIn, ?_⟩
  let mirrored (last : State Frontier) : Prop :=
    ∃ recorder, TreeRecorder.observeAll {} last.events = .ok recorder ∧
      recorder.Mirrors last.statistics.nodesCreated last.events
  refine search_leaves mirrored mirrored builtIn ?_ ?_
  · rintro last ⟨count, head, -⟩
    have watched := head.exists_recorder_of_ended builtIn State.events_completed
    exact watched
  · rintro last ⟨head, -⟩
    have watched := head.exists_recorder_of_ended builtIn (State.events_interrupted limit)
    exact watched

theorem recorder_mirrors_search_tight : Plan.tight.BuiltIn ∧
    ∃ best? last, search .tight 15 (.initial .tight (.empty .bestBound)) = .ok best? last ∧
      ∃ recorder, TreeRecorder.observeAll {} last.events = .ok recorder ∧
        recorder.Mirrors last.statistics.nodesCreated last.events := by
  obtain ⟨best?, last, answers⟩ := tight_isOk (.empty .bestBound)
  obtain ⟨-, ended⟩ := recorder_mirrors_search Plan.tight_builtIn (.empty .bestBound) 15
  rw [answers] at ended
  exact ⟨Plan.tight_builtIn, best?, last, answers, ended⟩

end Search

end Knapsack

import Knapsack.Proofs.Observer.Orderly
import Knapsack.Proofs.Search.Story

/-! # The records of what was seen

A recorder that starts afresh has one record for each node that was created. The record says what
the node was created with and when, and what became of the node so far: nothing as long as it was not
processed, and otherwise when that was, its final class and the bounds that held then. This is so
after every single event.
-/

namespace Knapsack

namespace Search

/-- The nodes that were created, each with how many nodes had been processed by then. -/
def birthsAfter (count : ℕ) : List Event → List (Node × ℕ)
  | [] => []
  | .nodeCreated node :: rest => (node, count) :: birthsAfter count rest
  | .nodeProcessed _ _ _ _ _ :: rest => birthsAfter (count + 1) rest
  | .searchStarted _ :: rest | .solutionFound _ _ _ :: rest | .searchEnded _ :: rest =>
    birthsAfter count rest

/-- The nodes that were created, with their dates. -/
def births (events : List Event) : List (Node × ℕ) := birthsAfter 0 events

variable {count : ℕ} {seen first second events : List Event}

theorem birthsAfter_append : birthsAfter count (first ++ second) =
    birthsAfter count first ++ birthsAfter (count + (processedIn first).length) second := by
  induction first generalizing count with
  | nil => rfl
  | cons event rest ih =>
    cases event with
    | nodeCreated node => exact congrArg ((node, count) :: ·) ih
    | nodeProcessed node lower upper incumbent? found =>
      refine ih.trans ?_
      rw [show count + 1 + (processedIn rest).length = count + ((processedIn rest).length + 1) by
        omega]
      rfl
    | searchStarted _ | solutionFound _ _ _ | searchEnded _ => exact ih

theorem map_fst_birthsAfter : (birthsAfter count events).map (·.1) = createdIn events := by
  induction events generalizing count with
  | nil => rfl
  | cons event rest ih =>
    cases event with
    | nodeCreated node => exact congrArg (node :: ·) ih
    | nodeProcessed _ _ _ _ _ | searchStarted _ | solutionFound _ _ _ | searchEnded _ => exact ih

theorem map_fst_births : (births events).map (·.1) = createdIn events := map_fst_birthsAfter

/-- A new node dates from the number of nodes that have been processed. -/
theorem births_concat_nodeCreated (node : Node) : births (seen ++ [.nodeCreated node]) =
    births seen ++ [(node, (processedIn seen).length)] := by
  refine birthsAfter_append.trans (congrArg (births seen ++ ·) ?_)
  rw [Nat.zero_add]
  rfl

theorem births_concat_of_eq_none {event : Event} (creates : event.created? = none) :
    births (seen ++ [event]) = births seen := by
  refine birthsAfter_append.trans ?_
  cases event with
  | nodeCreated node => cases creates
  | nodeProcessed _ _ _ _ _ | searchStarted _ | solutionFound _ _ _ | searchEnded _ =>
    exact List.append_nil _

theorem processedIn_concat_of_eq_none {event : Event} (processes : event.processed? = none) :
    processedIn (seen ++ [event]) = processedIn seen := by
  have nobody : processedIn [event] = [] := List.filterMap_cons_none processes
  rw [processedIn_append, nobody, List.append_nil]

theorem mem_processedIn {node : Node} : node ∈ processedIn events ↔ ∃ lower upper incumbent? found,
    .nodeProcessed node lower upper incumbent? found ∈ events := by
  rw [processedIn, List.mem_filterMap]
  constructor
  · rintro ⟨event, member, done⟩
    cases event <;> cases done
    exact ⟨_, _, _, _, member⟩
  · rintro ⟨lower, upper, incumbent?, found, member⟩
    exact ⟨_, member, rfl⟩

/-- A node that is reported as processed. -/
theorem mem_processedIn_of_mem {node : Node} {lower upper : Bound} {incumbent? : Option Solution}
    {found : List Solution}
    (member : .nodeProcessed node lower upper incumbent? found ∈ events) :
    node ∈ processedIn events := mem_processedIn.mpr ⟨_, _, _, _, member⟩

/-- What is consistent was so at any earlier time. -/
theorem Consistent.of_prefix (consistent : Consistent events) (cut : seen <+: events) :
    Consistent seen where
  numbered := by
    have earlier : createdIn seen <+: createdIn events := cut.filterMap _
    have ids := earlier.map (·.id)
    rw [consistent.numbered, List.prefix_iff_eq_take, List.take_range, List.length_map] at ids
    rwa [Nat.min_eq_left earlier.length_le] at ids
  fresh := fun node created => consistent.fresh node ((cut.filterMap _).subset created)
  final := fun node processed => consistent.final node ((cut.filterMap _).subset processed)
  once := (consistent.once).sublist (((cut.filterMap Event.processed?).map (·.id)).sublist)
  later := fun part within => consistent.later part (within.trans cut)

/-- A new node has a number under which no node was processed. -/
theorem Consistent.unprocessed_of_created {node : Node}
    (consistent : Consistent (seen ++ [.nodeCreated node])) :
    node.id ∉ (processedIn seen).map (·.id) := by
  intro processed
  have known := consistent.later seen (List.prefix_append ..) processed
  have distinct : ((createdIn (seen ++ [.nodeCreated node])).map (·.id)).Nodup :=
    consistent.numbered ▸ List.nodup_range
  rw [createdIn_append, List.map_append, List.nodup_append] at distinct
  exact distinct.2.2 _ known _ (List.mem_singleton_self _) rfl

/-- A node was not processed before. -/
theorem Consistent.unprocessed_of_processed {node : Node} {lower upper : Bound}
    {incumbent? : Option Solution} {found : List Solution}
    (consistent : Consistent (seen ++ [.nodeProcessed node lower upper incumbent? found])) :
    node.id ∉ (processedIn seen).map (·.id) := by
  intro processed
  have once := consistent.once
  rw [processedIn_append, List.map_append, List.nodup_append] at once
  exact once.2.2 _ processed _ (List.mem_singleton_self _) rfl

end Search

open Search

private theorem getElem?_concat_eq_some_iff {α : Type} {entries : List α} {last entry : α}
    {place : ℕ} : (entries ++ [last])[place]? = some entry ↔
      entries[place]? = some entry ∨ place = entries.length ∧ last = entry := by
  rw [List.getElem?_append]
  split_ifs with within
  · exact ⟨Or.inl, fun either => either.resolve_right fun after => within.ne after.1⟩
  · rw [List.getElem?_eq_none (not_lt.mp within), List.getElem?_singleton]
    split_ifs with here
    · have same : place = entries.length := by omega
      simp [same]
    · have apart : place ≠ entries.length := by omega
      simp [apart]

/-- In two lists that match, every entry of the second one has a partner. -/
theorem exists_partner {α β : Type} {R : α → β → Prop} {left : List α} {right : List β}
    (matched : List.Forall₂ R left right) : ∀ entry ∈ right, ∃ partner ∈ left, R partner entry := by
  induction matched with
  | nil => simp
  | cons fits _ ih =>
    refine List.forall_mem_cons.mpr ⟨⟨_, List.mem_cons_self .., fits⟩, fun entry member => ?_⟩
    obtain ⟨partner, listed, fitsToo⟩ := ih entry member
    exact ⟨partner, List.mem_cons_of_mem _ listed, fitsToo⟩

variable {seen : List Event}

/-- A record that says what became of its node so far. -/
structure RecordedNode.Current (record : RecordedNode) (seen : List Event) : Prop where
  located : ∀ place, record.processedAt? = some place ↔
    ((processedIn seen).map (·.id))[place]? = some record.id
  waiting : record.id ∉ (processedIn seen).map (·.id) →
    record.status = .unknown ∧ record.bounds? = none
  completed : ∀ node lower upper incumbent? found,
    .nodeProcessed node lower upper incumbent? found ∈ seen → record.id = node.id →
      record.status = node.status ∧ record.bounds? = some (lower.toBinary64, upper.toBinary64)

namespace RecordedNode

variable {record : RecordedNode} {node : Node}

/-- The record of a new node is up to date. -/
theorem Opens.current {createdAt : ℕ} (opens : record.Opens node createdAt)
    (fresh : node.status = .unknown) (unprocessed : node.id ∉ (processedIn seen).map (·.id)) :
    record.Current seen := by
  rw [← opens.describes.id] at unprocessed
  refine ⟨fun place => ?_, fun _ => ⟨opens.status.trans fresh, opens.unbounded⟩, ?_⟩
  · rw [opens.unprocessed]
    constructor
    · intro impossible
      cases impossible
    · exact fun listed => absurd (List.mem_of_getElem? listed) unprocessed
  · intro other lower upper incumbent? found member same
    refine absurd ?_ unprocessed
    rw [same]
    exact List.mem_map_of_mem (mem_processedIn_of_mem member)

namespace Current

/-- Nothing becomes of a node when none is processed. -/
theorem concat (current : record.Current seen) {event : Event}
    (processes : event.processed? = none) : record.Current (seen ++ [event]) := by
  have processed : processedIn (seen ++ [event]) = processedIn seen :=
    processedIn_concat_of_eq_none processes
  refine ⟨processed ▸ current.located, processed ▸ current.waiting, ?_⟩
  intro node lower upper incumbent? found member
  refine current.completed node lower upper incumbent? found ?_
  refine (List.mem_append.mp member).resolve_right fun last => ?_
  obtain rfl := List.mem_singleton.mp last
  cases processes

/-- Completing the record of a node that was just processed brings all records up to date. -/
theorem concat_nodeProcessed (current : record.Current seen)
    (unprocessed : node.id ∉ (processedIn seen).map (·.id)) (lower upper : Bound)
    (incumbent? : Option Solution) (found : List Solution) :
    (record.completed node lower upper (processedIn seen).length).Current
      (seen ++ [.nodeProcessed node lower upper incumbent? found]) := by
  have processed : (processedIn (seen ++ [.nodeProcessed node lower upper incumbent? found])).map
      (·.id) = (processedIn seen).map (·.id) ++ [node.id] := by
    rw [processedIn_append, List.map_append]
    rfl
  by_cases same : record.id = node.id
  · rw [completed_of_eq same]
    refine ⟨fun place => ?_, fun waits => ?_, fun other low high best? list member sameToo => ?_⟩
    · rw [processed, getElem?_concat_eq_some_iff, List.length_map, same]
      constructor
      · rintro ⟨⟩
        exact Or.inr ⟨rfl, rfl⟩
      · rintro (listed | ⟨rfl, -⟩)
        · exact absurd (List.mem_of_getElem? listed) unprocessed
        · rfl
    · rw [processed, same] at waits
      exact absurd (List.mem_append_right _ (List.mem_singleton_self _)) waits
    · rcases List.mem_append.mp member with before | last
      · have done : other.id ∈ (processedIn seen).map (·.id) :=
          List.mem_map_of_mem (mem_processedIn_of_mem before)
        exact absurd (sameToo.symm.trans same ▸ done) unprocessed
      · cases List.mem_singleton.mp last
        exact ⟨rfl, rfl⟩
  · rw [completed_of_ne same]
    refine ⟨fun place => ?_, fun waits => ?_, fun other low high best? list member sameToo => ?_⟩
    · rw [processed, getElem?_concat_eq_some_iff, current.located]
      exact ⟨Or.inl, fun either => either.resolve_right fun last => same last.2.symm⟩
    · rw [processed, List.mem_append, not_or] at waits
      exact current.waiting waits.1
    · rcases List.mem_append.mp member with before | last
      · exact current.completed other low high best? list before sameToo
      · cases List.mem_singleton.mp last
        exact absurd sameToo same

end Current

end RecordedNode

namespace TreeRecorder

/-- The records of what was seen: one for each node that was created. -/
structure Records (recorder : TreeRecorder) (seen : List Event) : Prop where
  described : List.Forall₂
    (fun birth record => record.Describes birth.1 ∧ record.createdAt = birth.2)
    (births seen) recorder.nodes
  order : recorder.iterations = (processedIn seen).map (·.id)
  current : ∀ record ∈ recorder.nodes, record.Current seen

variable {recorder : TreeRecorder}

namespace Records

/-- The records describe the nodes. -/
theorem describes (records : recorder.Records seen) :
    List.Forall₂ (fun node record => record.Describes node) (createdIn seen) recorder.nodes := by
  rw [← map_fst_births, List.forall₂_map_left_iff]
  exact records.described.imp fun _ _ both => both.1

theorem map_id (records : recorder.Records seen) :
    recorder.nodes.map (·.id) = (createdIn seen).map (·.id) := by
  rw [← List.forall₂_eq_eq_eq, List.forall₂_map_left_iff, List.forall₂_map_right_iff]
  exact records.describes.flip.imp fun _ _ describes => describes.id

theorem nodup (records : recorder.Records seen) (consistent : Consistent seen) :
    (recorder.nodes.map (·.id)).Nodup := by
  rw [records.map_id, consistent.numbered]
  exact List.nodup_range

/-- As many nodes were processed as there are iterations. -/
theorem length_iterations (records : recorder.Records seen) :
    recorder.iterations.length = (processedIn seen).length := by
  rw [records.order, List.length_map]

/-- The iterations say when a node was processed. -/
theorem located (records : recorder.Records seen) {record : RecordedNode}
    (listed : record ∈ recorder.nodes) (place : ℕ) : record.processedAt? = some place ↔
      recorder.iterations[place]? = some record.id := by
  rw [records.order]
  exact (records.current record listed).located place

/-- Nothing became of a node that is not in the iterations. -/
theorem waiting (records : recorder.Records seen) : ∀ record ∈ recorder.nodes,
    record.id ∉ recorder.iterations → record.status = .unknown ∧ record.bounds? = none := by
  rw [records.order]
  exact fun record listed => (records.current record listed).waiting

/-- Every node that was created has a record. -/
theorem exists_record (records : recorder.Records seen) {node : Node}
    (created : node ∈ createdIn seen) : ∃ record ∈ recorder.nodes, record.Describes node :=
  exists_partner records.describes.flip node created

private theorem create {node : Node} (records : recorder.Records seen)
    (grounded : (Event.nodeCreated node).Grounded seen)
    (consistent : Consistent (seen ++ [.nodeCreated node])) :
    ∃ after, recorder.create node = .ok after ∧ after.Records (seen ++ [.nodeCreated node]) := by
  have earlier := consistent.of_prefix (List.prefix_append seen _)
  obtain ⟨latest, outcome, opens⟩ : ∃ latest, recorder.create node = .ok _ ∧ _ := by
    refine create_isOk fun parent below => ?_
    obtain ⟨created, member, rfl⟩ := grounded parent below
    obtain ⟨record, listed, describes⟩ := records.exists_record (mem_createdIn.mpr member)
    exact Option.isSome_of_mem ((node?_eq_some_iff (records.nodup earlier)).mpr
      ⟨listed, describes.id⟩)
  have joined : (⟨latest :: recorder.created, recorder.processed⟩ : TreeRecorder).nodes =
      recorder.nodes ++ [latest] := List.reverse_cons
  have fresh : node.status = .unknown :=
    consistent.fresh node (mem_createdIn.mpr (List.mem_append_right _ (List.mem_singleton_self _)))
  refine ⟨_, outcome, ?_, ?_, ?_⟩
  · rw [births_concat_nodeCreated, joined, ← records.length_iterations]
    exact List.rel_append records.described (.cons ⟨opens.describes, opens.created⟩ .nil)
  · rw [processedIn_concat_of_eq_none rfl]
    exact records.order
  · rw [joined, List.forall_mem_append, List.forall_mem_singleton]
    exact ⟨fun record listed => (records.current record listed).concat rfl,
      (opens.current fresh consistent.unprocessed_of_created).concat rfl⟩

private theorem process {node : Node} {lower upper : Bound} {incumbent? : Option Solution}
    {found : List Solution} (records : recorder.Records seen)
    (consistent : Consistent (seen ++ [.nodeProcessed node lower upper incumbent? found])) :
    (recorder.process node lower upper).Records
      (seen ++ [.nodeProcessed node lower upper incumbent? found]) := by
  have earlier := consistent.of_prefix (List.prefix_append seen _)
  have changed := nodes_process (records.nodup earlier) node lower upper
  rw [records.length_iterations] at changed
  refine ⟨?_, ?_, ?_⟩
  · rw [births_concat_of_eq_none rfl, changed, List.forall₂_map_right_iff]
    refine records.described.imp fun birth record ⟨describes, created⟩ => ?_
    exact ⟨describes.completed, RecordedNode.createdAt_completed.trans created⟩
  · rw [iterations_process, records.order, processedIn_append, List.map_append]
    rfl
  · rw [changed, List.forall_mem_map]
    exact fun record listed => (records.current record listed).concat_nodeProcessed
      consistent.unprocessed_of_processed lower upper incumbent? found

private theorem observe {event : Event} (records : recorder.Records seen)
    (grounded : event.Grounded seen) (consistent : Consistent (seen ++ [event])) :
    ∃ after, recorder.observe event = .ok after ∧ after.Records (seen ++ [event]) := by
  cases event with
  | nodeCreated node => exact records.create grounded consistent
  | nodeProcessed node lower upper incumbent? found => exact ⟨_, rfl, records.process consistent⟩
  | searchStarted _ | solutionFound _ _ _ | searchEnded _ =>
    refine ⟨recorder, rfl, ?_, ?_, fun record listed => (records.current record listed).concat rfl⟩
    · rw [births_concat_of_eq_none rfl]
      exact records.described
    · rw [processedIn_concat_of_eq_none rfl]
      exact records.order

end Records

/-- After any number of consistent events, a fresh recorder has their records. -/
theorem exists_records (orderly : Orderly [] seen) (consistent : Consistent seen) :
    ∃ recorder, TreeRecorder.observeAll {} seen = .ok recorder ∧ recorder.Records seen := by
  induction seen using List.reverseRecOn with
  | nil => exact ⟨{}, rfl, .nil, rfl, by simp [nodes]⟩
  | append_singleton seen event ih =>
    obtain ⟨first, grounded, -⟩ := orderly_append.mp orderly
    obtain ⟨recorder, outcome, records⟩ := ih first (consistent.of_prefix (List.prefix_append ..))
    obtain ⟨after, follows, still⟩ := records.observe grounded consistent
    refine ⟨after, ?_, still⟩
    rw [observeAll, List.foldlM_append]
    exact bind_eq_ok.mpr ⟨recorder, outcome, bind_eq_ok.mpr ⟨after, follows, rfl⟩⟩

end TreeRecorder

end Knapsack

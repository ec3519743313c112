import Mathlib
import Knapsack.Observer.TreeRecorder

/-! # What a recorder does with an event

A recorder keeps its records with the latest first. Seen in the order of their creation, a new node
adds a record at the end, and a processed node completes its record in place. As long as the records
have different numbers, looking a node up finds its only record.
-/

namespace Knapsack

/-- A record that says of a node what is known when it is created. -/
structure RecordedNode.Describes (record : RecordedNode) (node : Node) : Prop where
  id : record.id = node.id
  below : record.parent? = node.parent?
  depth : record.depth = node.depth
  value : record.value = node.value.toBinary64.toThousandths
  feasible : record.feasible = node.feasible
  integral : record.integral = node.relaxed.isIntegral

/-- The record of a node that has just been created, when some nodes had been processed already. -/
structure RecordedNode.Opens (record : RecordedNode) (node : Node) (createdAt : ℕ) : Prop where
  describes : record.Describes node
  created : record.createdAt = createdAt
  unprocessed : record.processedAt? = none
  status : record.status = node.status
  unbounded : record.bounds? = none

/-- The record of a node that has just been created. -/
def RecordedNode.ofCreated (node : Node) (createdAt : ℕ) : RecordedNode where
  id := node.id
  parent? := node.parent?
  depth := node.depth
  value := node.value.toBinary64.toThousandths
  feasible := node.feasible
  integral := node.relaxed.isIntegral
  createdAt
  processedAt? := none
  status := node.status
  bounds? := none

/-- A record after a node was processed, which completes the record of that node only. -/
def RecordedNode.completed (record : RecordedNode) (node : Node) (lower upper : Bound)
    (iteration : ℕ) : RecordedNode :=
  if record.id = node.id then
    { record with
      processedAt? := some iteration
      status := node.status
      bounds? := some (lower.toBinary64, upper.toBinary64) }
  else record

namespace RecordedNode

variable {record : RecordedNode} {node other : Node} {lower upper : Bound} {iteration : ℕ}

theorem completed_of_ne (different : record.id ≠ node.id) :
    record.completed node lower upper iteration = record := if_neg different

theorem completed_of_eq (same : record.id = node.id) :
    record.completed node lower upper iteration = { record with
      processedAt? := some iteration
      status := node.status
      bounds? := some (lower.toBinary64, upper.toBinary64) } := if_pos same

@[simp]
theorem createdAt_completed :
    (record.completed node lower upper iteration).createdAt = record.createdAt := by
  unfold completed
  split_ifs <;> rfl

/-- Completing a record leaves what was known from the start. -/
theorem Describes.completed (describes : record.Describes other) :
    (record.completed node lower upper iteration).Describes other := by
  obtain ⟨id, below, depth, value, feasible, integral⟩ := describes
  unfold RecordedNode.completed
  split_ifs <;> exact ⟨id, below, depth, value, feasible, integral⟩

end RecordedNode

namespace TreeRecorder

variable {recorder : TreeRecorder} {node : Node} {record : RecordedNode}

/-- Changing the first record of a number changes every record of it, if there is no second one. -/
theorem amend_eq_map (id : ℕ) (change : RecordedNode → RecordedNode) {records : List RecordedNode}
    (distinct : (records.map (·.id)).Nodup) :
    amend id change records =
      records.map fun record => if record.id = id then change record else record := by
  induction records with
  | nil => rfl
  | cons record rest ih =>
    obtain ⟨absent, others⟩ := List.nodup_cons.mp distinct
    rw [amend, List.map_cons]
    split_ifs with same
    · have untouched : ∀ other ∈ rest, (if other.id = id then change other else other) = other := by
        intro other member
        refine if_neg fun sameToo => absent ?_
        exact List.mem_map.mpr ⟨other, member, sameToo.trans same.symm⟩
      rw [List.map_congr_left untouched, List.map_id']
    · rw [ih others]

private theorem nodup_created (distinct : (recorder.nodes.map (·.id)).Nodup) :
    (recorder.created.map (·.id)).Nodup := by
  rwa [nodes, List.map_reverse, List.nodup_reverse] at distinct

theorem id_of_node? {id : ℕ} (found : recorder.node? id = some record) : record.id = id := by
  have holds := List.find?_some found
  exact beq_iff_eq.mp holds

/-- Looking a node up finds its only record. -/
theorem node?_eq_some_iff (distinct : (recorder.nodes.map (·.id)).Nodup) {id : ℕ} :
    recorder.node? id = some record ↔ record ∈ recorder.nodes ∧ record.id = id := by
  rw [nodes, List.mem_reverse]
  constructor
  · intro found
    exact ⟨List.mem_of_find?_eq_some found, id_of_node? found⟩
  · rintro ⟨member, rfl⟩
    obtain ⟨other, found⟩ : ∃ other, recorder.node? record.id = some other :=
      Option.isSome_iff_exists.mp (List.find?_isSome.mpr ⟨record, member, beq_self_eq_true _⟩)
    obtain rfl := List.inj_on_of_nodup_map (nodup_created distinct)
      (List.mem_of_find?_eq_some found) member (id_of_node? found)
    exact found

/-- A recorder records a node exactly when it knows the parent of the node. -/
theorem create_eq_ok_iff {after : TreeRecorder} : recorder.create node = .ok after ↔
    (∀ parent, node.parent? = some parent → (recorder.node? parent).isSome = true) ∧
      after = { recorder with
        created := .ofCreated node recorder.iterations.length :: recorder.created } := by
  rw [show recorder.iterations.length = recorder.processed.length from List.length_reverse,
    RecordedNode.ofCreated]
  unfold create
  cases node.parent? with
  | none =>
    constructor
    · rintro ⟨⟩
      exact ⟨nofun, rfl⟩
    · rintro ⟨-, rfl⟩
      rfl
  | some parent =>
    simp only [Option.some.injEq, forall_eq']
    cases recorder.node? parent with
    | none =>
      constructor
      · exact fun outcome => nomatch outcome
      · exact fun impossible => nomatch impossible.1
    | some record =>
      constructor
      · rintro ⟨⟩
        exact ⟨rfl, rfl⟩
      · rintro ⟨-, rfl⟩
        rfl

/-- A recorder that knows the parent of a node records the node. -/
theorem create_isOk
    (known : ∀ parent, node.parent? = some parent → (recorder.node? parent).isSome = true) :
    ∃ record, recorder.create node = .ok { recorder with created := record :: recorder.created } ∧
      record.Opens node recorder.iterations.length :=
  ⟨_, create_eq_ok_iff.mpr ⟨known, rfl⟩, ⟨rfl, rfl, rfl, rfl, rfl, rfl⟩, rfl, rfl, rfl, rfl⟩

/-- Processing a node completes its record, and its number comes after those of the nodes that were
processed before. -/
theorem nodes_process (distinct : (recorder.nodes.map (·.id)).Nodup) (node : Node)
    (lower upper : Bound) : (recorder.process node lower upper).nodes =
      recorder.nodes.map (·.completed node lower upper recorder.iterations.length) := by
  rw [nodes, process, amend_eq_map _ _ (nodup_created distinct), nodes, List.map_reverse,
    iterations, List.length_reverse]
  rfl

theorem iterations_process (node : Node) (lower upper : Bound) :
    (recorder.process node lower upper).iterations = recorder.iterations ++ [node.id] :=
  List.reverse_cons

end TreeRecorder

end Knapsack

import Knapsack.Proofs.Search.Block
import Knapsack.Proofs.Search.Brood

/-! # Who was created, who waits and who was processed

At every head of a search, each node that was created either waits or was processed, and no node
comes up twice. So the counters of the tree, of the statistics and of the frontier always agree with
each other and with the events.
-/

namespace Knapsack.Search

open scoped List

variable {plan : Plan} {node : Node}

/-- Neither creates nor processes a node. -/
theorem Discoveries.silent {incumbent final : Bound} {found : List Solution} {events : List Event}
    (discovers : Discoveries node incumbent found events final) :
    createdIn events = [] ∧ processedIn events = [] := by
  induction discovers with
  | nil => exact ⟨rfl, rfl⟩
  | cons _ _ ih => exact ih

namespace Block

variable {before after : Standing} {children : List Node} {events : List Event}

theorem createdIn_eq (block : Block plan node before after children events) :
    createdIn events = children := by
  cases block with
  | infeasible _ => rfl
  | pruned _ _ => rfl
  | feasible _ _ _ => rfl
  | branched _ _ _ _ discovers _ _ _ _ =>
    rw [createdIn_append, discovers.silent.1]
    rfl

/-- A block closes with the processing of its node, which gets a final class. -/
theorem exists_processed (block : Block plan node before after children events) :
    ∃ status, status.isTerminal = true ∧ (status = .branched ↔ children ≠ []) ∧
      processedIn events = [{ node with status }] := by
  cases block with
  | infeasible _ => exact ⟨.infeasible, rfl, by decide, rfl⟩
  | pruned _ _ => exact ⟨.pruned, rfl, by decide, rfl⟩
  | feasible _ _ _ => exact ⟨.feasible, rfl, by decide, rfl⟩
  | branched _ _ _ _ discovers _ _ _ _ =>
    refine ⟨.branched, rfl, by simp, ?_⟩
    rw [processedIn_append, discovers.silent.2]
    rfl

/-- The last event of a block is the processing of its node. -/
theorem exists_getLast? (block : Block plan node before after children events) :
    ∃ event, events.getLast? = some event ∧ event.processed?.isSome = true := by
  cases block with
  | infeasible _ => exact ⟨_, rfl, rfl⟩
  | pruned _ _ => exact ⟨_, rfl, rfl⟩
  | feasible _ _ _ => exact ⟨_, rfl, rfl⟩
  | branched _ _ _ _ _ _ _ _ _ => exact ⟨_, List.getLast?_append_of_ne_nil _ (by simp), rfl⟩

theorem map_id_processedIn (block : Block plan node before after children events) :
    (processedIn events).map (·.id) = [node.id] := by
  obtain ⟨status, -, -, closes⟩ := block.exists_processed
  rw [closes]
  rfl

/-- The children get the next numbers. -/
theorem map_id_children (block : Block plan node before after children events) :
    children.map (·.id) = (List.range children.length).map (before.tree.created + ·) ∧
      after.tree.created = before.tree.created + children.length := by
  cases block with
  | infeasible _ => exact ⟨rfl, rfl⟩
  | pruned _ _ => exact ⟨rfl, rfl⟩
  | feasible _ _ _ => exact ⟨rfl, rfl⟩
  | branched _ _ _ _ _ _ _ first second =>
    refine ⟨?_, rfl⟩
    rw [List.map_cons, List.map_singleton, first.number, second.number]
    rfl

theorem fresh (block : Block plan node before after children events) :
    ∀ child ∈ children, child.status = .unknown := by
  cases block.offspring with
  | none => simp
  | pair _ _ _ first second =>
    rw [List.forall_mem_cons, List.forall_mem_singleton]
    exact ⟨first.fresh, second.fresh⟩

theorem names_parent (block : Block plan node before after children events) :
    ∀ child ∈ children, child.parent? = some node.id := by
  cases block.offspring with
  | none => simp
  | pair _ _ _ first second =>
    rw [List.forall_mem_cons, List.forall_mem_singleton]
    exact ⟨first.below, second.below⟩

/-- The children are one level deeper and fix one item more. -/
theorem below (block : Block plan node before after children events) : ∀ child ∈ children,
    child.depth = node.depth + 1 ∧ child.fixation.fixedCount = node.fixation.fixedCount + 1 := by
  cases block.offspring with
  | none => simp
  | pair _ _ undecided first second =>
    rw [List.forall_mem_cons, List.forall_mem_singleton, first.fixes, second.fixes]
    exact ⟨⟨first.depth, Fixation.fixedCount_decided undecided _⟩,
      second.depth, Fixation.fixedCount_decided undecided _⟩

/-- The children keep what the node has decided. -/
theorem refines (block : Block plan node before after children events) : ∀ child ∈ children,
    child.fixation.refines node.fixation = true := by
  cases block.offspring with
  | none => simp
  | pair _ _ undecided first second =>
    rw [List.forall_mem_cons, List.forall_mem_singleton, first.fixes, second.fixes]
    exact ⟨Fixation.refines_decided undecided _, Fixation.refines_decided undecided _⟩

/-- The children disagree with each other. -/
theorem apart (block : Block plan node before after children events) :
    ∀ child ∈ children, ∀ other ∈ children, child ≠ other →
      child.fixation.Incompatible other.fixation := by
  cases block.offspring with
  | none => simp
  | @pair _ _ index left right undecided first second =>
    have disagree : left.fixation.Incompatible right.fixation := by
      rw [first.fixes, second.fixes]
      exact Fixation.incompatible_decided undecided false
    intro child member other listed distinct
    rcases List.mem_pair.mp member with rfl | rfl <;> rcases List.mem_pair.mp listed with rfl | rfl
    · exact absurd rfl distinct
    · exact disagree
    · exact disagree.symm
    · exact absurd rfl distinct

end Block

/-- The books of the nodes at a head. -/
structure Census (count : ℕ) (state : State Frontier) : Prop where
  numbered : (createdIn state.events).map (·.id) = List.range state.tree.created
  shared : (state.frontier.queue.map (·.id) ++ (processedIn state.events).map (·.id)).Perm
    (List.range state.tree.created)
  waits : ∀ node ∈ state.frontier.queue, ∃ born ∈ createdIn state.events, node = born.queued
  processed : (processedIn state.events).length = count
  iterations : state.statistics.iterations = count

variable {limit count : ℕ} {frontier : Frontier} {before after : State Frontier}
  {children : List Node}

private theorem census_planted (plan : Plan) (limit : ℕ) (frontier : Frontier) {root : Node}
    (drafted : Tree.Drafted {} none (.unassigned plan.inst.size) root) :
    Census 0 (((State.initial plan frontier).announced plan limit).planted root) := by
  have events := State.events_opening plan frontier limit root
  refine ⟨?_, ?_, ?_, ?_, rfl⟩
  · rw [events]
    change [root.id] = [0]
    rw [drafted.number]
  · rw [events]
    change [root.id].Perm [0]
    rw [drafted.number]
  · intro node waits
    obtain rfl := List.mem_singleton.mp waits
    exact ⟨root, by simp [events, createdIn, Event.created?], rfl⟩
  · rw [events]
    rfl

/-- A turn keeps the books. -/
theorem Census.turn {rest : Frontier} (census : Census count before)
    (next : before.frontier.queue = node :: rest.queue)
    (brood : Brood plan node { before with frontier := rest } children after) :
    Census (count + 1) after := by
  have created : createdIn after.events = createdIn before.events ++ children := brood.created
  obtain ⟨status, processed⟩ := brood.exists_processed
  have numbers : children.map (·.id) =
      (List.range children.length).map (before.tree.created + ·) := brood.numbers
  have grows : after.tree.created = before.tree.created + children.length := brood.grows
  have range : List.range after.tree.created =
      List.range before.tree.created ++ children.map (·.id) := by
    rw [grows, List.range_add, numbers]
  refine ⟨?_, ?_, fun other waits => ?_, ?_, ?_⟩
  · rw [created, List.map_append, census.numbered, range]
  · have shared := census.shared
    rw [next] at shared
    have ids : (after.frontier.queue.map (·.id)).Perm
        (children.map (·.id) ++ rest.queue.map (·.id)) := by
      have mapped := brood.queue_perm.map (·.id)
      rwa [List.map_append, List.map_map] at mapped
    calc after.frontier.queue.map (·.id) ++ (processedIn after.events).map (·.id)
      _ = after.frontier.queue.map (·.id) ++
            ((processedIn before.events).map (·.id) ++ [node.id]) := by
        rw [processed, List.map_append, List.map_singleton]
      _ ~ children.map (·.id) ++ rest.queue.map (·.id) ++
            ((processedIn before.events).map (·.id) ++ [node.id]) := ids.append_right _
      _ = children.map (·.id) ++
            (rest.queue.map (·.id) ++ (processedIn before.events).map (·.id) ++ [node.id]) := by
        simp only [List.append_assoc]
      _ ~ children.map (·.id) ++
            (node.id :: (rest.queue.map (·.id) ++ (processedIn before.events).map (·.id))) :=
        (List.perm_append_singleton ..).append_left _
      _ ~ children.map (·.id) ++ List.range before.tree.created := shared.append_left _
      _ ~ List.range before.tree.created ++ children.map (·.id) := List.perm_append_comm
      _ = List.range after.tree.created := range.symm
  · rw [created]
    rcases brood.of_waits waits with ⟨child, listed, rfl⟩ | stayed
    · exact ⟨child, List.mem_append_right _ listed, rfl⟩
    · obtain ⟨born, listed, same⟩ := census.waits other (next ▸ List.mem_cons_of_mem _ stayed)
      exact ⟨born, List.mem_append_left _ listed, same⟩
  · rw [processed, List.length_append, census.processed]
    rfl
  · exact brood.counts.trans (congrArg (· + 1) census.iterations)

namespace Census

variable {state : State Frontier}

theorem id_lt (census : Census count state) (waits : node ∈ state.frontier.queue) :
    node.id < state.tree.created :=
  List.mem_range.mp (census.shared.mem_iff.mp (List.mem_append_left _ (List.mem_map_of_mem waits)))

theorem id_lt_of_processed (census : Census count state)
    (processed : node ∈ processedIn state.events) : node.id < state.tree.created :=
  List.mem_range.mp
    (census.shared.mem_iff.mp (List.mem_append_right _ (List.mem_map_of_mem processed)))

/-- No number waits twice, or waits although it was processed. -/
theorem nodup (census : Census count state) :
    (state.frontier.queue.map (·.id) ++ (processedIn state.events).map (·.id)).Nodup :=
  census.shared.nodup_iff.mpr List.nodup_range

theorem id_ne (census : Census count state) {done : Node} (waits : node ∈ state.frontier.queue)
    (processed : done ∈ processedIn state.events) : node.id ≠ done.id :=
  (List.nodup_append.mp census.nodup).2.2 _ (List.mem_map_of_mem waits) _
    (List.mem_map_of_mem processed)

end Census

/-- The books are kept at every head of a search, whatever its strategies. -/
theorem Head.census_of_guarded {excuse : Failure → Prop} {state : State Frontier}
    (guarded : plan.Guarded excuse)
    (head : Head plan limit (.initial plan frontier) count state) : Census count state := by
  refine head.invariant_of_guarded guarded Census
    (fun _ _ drafted => census_planted plan limit frontier drafted) ?_
  intro count before node rest after census _ _ _ next _ turn
  obtain ⟨children, brood⟩ := turn.exists_brood
  exact census.turn next brood

theorem Head.census {state : State Frontier} (builtIn : plan.BuiltIn)
    (head : Head plan limit (.initial plan frontier) count state) : Census count state :=
  head.census_of_guarded builtIn.tame.guarded

end Knapsack.Search

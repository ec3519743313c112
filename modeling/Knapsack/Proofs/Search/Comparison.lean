import Knapsack.Proofs.Frontier.Embedding
import Knapsack.Proofs.Search.Census

/-! # Two searches side by side

What one search makes of a node is compared with what another one makes of its twin. A block is
decided by the node and by the incumbent alone, so a better incumbent can only save work: without
heuristic nothing comes of a node that is idle, and twins that are both branched on have twins as
children. Within one search the queue is sorted, and the children of a node are younger than all
that waits; so twins that join keep one queue embedded in the other.
-/

namespace Knapsack.Search

open Frontier (Sorted)

/-- The processed nodes that were branched on. -/
def branchedIn (events : List Event) : List Node :=
  (processedIn events).filter (·.status = .branched)

@[simp]
theorem branchedIn_append (first second : List Event) :
    branchedIn (first ++ second) = branchedIn first ++ branchedIn second := by
  rw [branchedIn, processedIn_append, List.filter_append]
  rfl

/-- Events that process, in their order, some of the fixations that others process, and branch only
on such as are branched on there. -/
structure Within (few many : List Event) : Prop where
  processed : ((processedIn few).map (·.fixation)).Sublist ((processedIn many).map (·.fixation))
  branched : ((branchedIn few).map (·.fixation)).Sublist ((branchedIn many).map (·.fixation))

theorem Within.append {few many : List Event} (within : Within few many) (more : List Event) :
    Within few (many ++ more) := by
  constructor
  · rw [processedIn_append, List.map_append]
    exact within.processed.trans (List.sublist_append_left _ _)
  · rw [branchedIn_append, List.map_append]
    exact within.branched.trans (List.sublist_append_left _ _)

/-- The end of a search processes nothing. -/
theorem Within.ended {few many : List Event} (within : Within few many)
    (statistics last : Statistics) :
    Within (few ++ [.searchEnded statistics]) (many ++ [.searchEnded last]) := by
  have silent : processedIn [.searchEnded statistics] = [] := rfl
  apply Within.append
  constructor
  · rw [processedIn_append, silent, List.append_nil]
    exact within.processed
  · rw [branchedIn_append, branchedIn, branchedIn, silent, List.filter_nil, List.append_nil]
    exact within.branched

/-- Both sequences go on with a block each, of nodes with the same fixation. -/
theorem Within.blocks {plan other : Plan} {a b : Node} {before after former later : Standing}
    {children others : List Node} {few many events more : List Event} (within : Within few many)
    (block : Block plan a before after children events)
    (along : Block other b former later others more) (same : a.fixation = b.fixation)
    (splits : children ≠ [] → others ≠ []) : Within (few ++ events) (many ++ more) := by
  obtain ⟨status, -, grows, closes⟩ := block.exists_processed
  obtain ⟨final, -, growsToo, closesToo⟩ := along.exists_processed
  constructor
  · rw [processedIn_append, processedIn_append, List.map_append, List.map_append, closes, closesToo,
      List.map_singleton, List.map_singleton, same]
    exact within.processed.append (List.Sublist.refl _)
  · rw [branchedIn_append, branchedIn_append, List.map_append, List.map_append]
    apply within.branched.append
    by_cases branched : status = .branched
    · have alsoBranched : final = .branched := growsToo.mpr (splits (grows.mp branched))
      simp [branchedIn, closes, closesToo, branched, alsoBranched, same]
    · simp [branchedIn, closes, branched]

/-- The same search without heuristic. -/
def Plan.plain (plan : Plan) : Plan := { plan with heuristic := .none }

theorem Plan.BuiltIn.plain {plan : Plan} (builtIn : plan.BuiltIn) : plan.plain.BuiltIn :=
  ⟨builtIn.relaxation, builtIn.branching, Or.inl rfl⟩

section Blocks

variable {plan : Plan} {a b : Node} {before after : Standing} {children : List Node}
  {events : List Event}

/-- A tree grows by two nodes whenever a node is branched on. -/
theorem Block.created_eq (block : Block plan b before after children events) :
    after.tree.created = before.tree.created + 2 * (branchedIn events).length := by
  cases block with
  | infeasible _ => rfl
  | pruned _ _ => rfl
  | feasible _ _ _ => rfl
  | branched _ _ _ _ discovers _ _ _ _ =>
    rw [branchedIn, processedIn_append, discovers.silent.2]
    rfl

theorem Discoveries.le {node : Node} {incumbent final : Bound} {found : List Solution}
    (discovers : Discoveries node incumbent found events final) : incumbent ≤ final := by
  induction discovers with
  | nil => exact le_refl _
  | cons _ _ ih => exact le_trans (le_max_left _ _) ih

/-- The incumbent never gets worse. -/
theorem Block.incumbent_le (block : Block plan b before after children events) :
    before.incumbent ≤ after.incumbent := by
  cases block with
  | infeasible _ => exact le_refl _
  | pruned _ _ => exact le_refl _
  | feasible _ promising _ => exact promising.1
  | branched _ _ _ _ discovers _ _ _ _ => exact discovers.le

/-- Without heuristic, nothing that beats a bound comes of a node that is idle. -/
theorem Block.idle_children (silent : plan.heuristic = .none)
    (block : Block plan b before after children events) (drawn : b.Drawn plan.inst)
    (born : ∀ child ∈ children, child.Drawn plan.inst) {bound : Bound} (idle : b.Idle bound)
    (below : before.incumbent ≤ bound) :
    after.incumbent ≤ bound ∧ ∀ child ∈ children, child.Idle bound := by
  have refines := block.refines
  cases block with
  | infeasible _ => exact ⟨below, by simp⟩
  | pruned _ _ => exact ⟨below, by simp⟩
  | feasible feasible _ _ => exact ⟨idle feasible, by simp⟩
  | branched feasible _ _ harvests discovers _ _ _ _ =>
    rw [silent] at harvests
    cases harvests
    cases discovers
    refine ⟨below, fun child member feasibleChild => ?_⟩
    have worth : child.value ≤ b.value :=
      ((born child member).value_le_of_refines drawn (refines child member) feasibleChild).2
    exact le_trans (Bound.finite_le_finite.mpr worth) (idle feasible)

/-- Twins are either both branched on, and then their children are twins, or the one with heuristic
has no child, and the children of the other are idle. -/
theorem Block.keeps_up (builtIn : plan.BuiltIn)
    (assisted : Block plan a before after children events)
    {former later : Standing} {others : List Node} {plainEvents : List Event}
    (plain : Block plan.plain b former later others plainEvents) (twin : a.Twin b)
    (drawn : b.Drawn plan.inst) (born : ∀ child ∈ children, child.Drawn plan.inst)
    (bornPlain : ∀ child ∈ others, child.Drawn plan.inst)
    (below : former.incumbent ≤ before.incumbent) :
    later.incumbent ≤ after.incumbent ∧
      (children = [] ∧ (∀ other ∈ others, other.Idle after.incumbent) ∨
        List.Forall₂ Node.Twin children others) := by
  have discards : b.Idle after.incumbent → later.incumbent ≤ after.incumbent ∧
      ∀ other ∈ others, other.Idle after.incumbent := fun idle =>
    plain.idle_children rfl drawn bornPlain idle (le_trans below assisted.incumbent_le)
  cases assisted with
  | infeasible infeasible =>
    obtain ⟨reached, idle⟩ := discards fun feasible =>
      nomatch (twin.feasible.trans feasible).symm.trans infeasible
    exact ⟨reached, Or.inl ⟨rfl, idle⟩⟩
  | pruned _ dominated =>
    obtain ⟨reached, idle⟩ := discards fun _ => twin.value ▸ dominated
    exact ⟨reached, Or.inl ⟨rfl, idle⟩⟩
  | feasible _ _ _ =>
    obtain ⟨reached, idle⟩ := discards fun _ => twin.value ▸ le_refl _
    exact ⟨reached, Or.inl ⟨rfl, idle⟩⟩
  | branched feasible promising fractional _ discovers _ branches first second =>
    cases plain with
    | infeasible infeasible => exact nomatch feasible.symm.trans (twin.feasible.trans infeasible)
    | pruned _ dominated =>
      rw [← twin.value] at dominated
      exact absurd (le_trans dominated below) promising.2
    | feasible _ _ integral =>
      rw [← twin.relaxed] at integral
      exact nomatch fractional.symm.trans integral
    | branched _ _ _ harvests discoversPlain _ branchesPlain firstPlain secondPlain =>
      cases harvests
      cases discoversPlain
      have split :=
        (branches.symm.trans (builtIn.branching_eq_of_twin twin _ _)).trans branchesPlain
      obtain ⟨left, rest⟩ := List.cons.inj (Except.ok.inj split)
      obtain ⟨right, -⟩ := List.cons.inj rest
      refine ⟨le_trans below discovers.le, Or.inr (.cons ?_ (.cons ?_ .nil))⟩
      · exact twin.child first firstPlain left (born _ (by simp)) (bornPlain _ (by simp))
      · exact twin.child second secondPlain right (born _ (by simp)) (bornPlain _ (by simp))

end Blocks

section Heads

variable {plan : Plan} {frontier : Frontier} {limit count : ℕ} {state : State Frontier}

/-- The nodes at a head wait in the order of the ranking. -/
theorem Head.sorted_of_guarded {excuse : Failure → Prop} {start : State Frontier}
    (guarded : plan.Guarded excuse) (order : Std.TransCmp start.frontier.ranking)
    (head : Head plan limit start count state) :
    state.frontier.ranking = start.frontier.ranking ∧
      Sorted start.frontier.ranking state.frontier.queue := by
  refine head.invariant_of_guarded guarded
    (fun _ state => state.frontier.ranking = start.frontier.ranking ∧
      Sorted start.frontier.ranking state.frontier.queue) ?_ ?_
  · intro root _ _
    exact ⟨rfl, List.pairwise_singleton _ _⟩
  · rintro count before node rest after ⟨ranked, sorted⟩ _ _ _ next same turn
    have ranking : rest.ranking = start.frontier.ranking := same.trans ranked
    rw [next] at sorted
    have behind : Sorted rest.ranking rest.queue := ranking ▸ (List.pairwise_cons.mp sorted).2
    obtain ⟨children, joins⟩ := turn.exists_join
    rw [joins, Frontier.ranking_join]
    exact ⟨ranking, ranking ▸ behind.join (ranking ▸ order) children⟩

theorem Head.sorted (builtIn : plan.BuiltIn) (order : Std.TransCmp frontier.ranking)
    (head : Head plan limit (.initial plan frontier) count state) :
    state.frontier.ranking = frontier.ranking ∧
      Sorted frontier.ranking state.frontier.queue :=
  head.sorted_of_guarded builtIn.tame.guarded order

/-- The root was created first, and then two children for each node that was branched on. -/
theorem Head.created_eq (builtIn : plan.BuiltIn)
    (head : Head plan limit (.initial plan frontier) count state) :
    state.tree.created = 1 + 2 * (branchedIn state.events).length := by
  refine head.by_blocks builtIn
    (fun _ state => state.tree.created = 1 + 2 * (branchedIn state.events).length) ?_ ?_
  · intro root _ _
    rw [State.events_opening]
    rfl
  · intro count before node rest children events after _ created _ _ advance
    have grown : after.tree.created = before.tree.created + 2 * (branchedIn events).length :=
      advance.block.created_eq
    have chronicle : after.events = before.events ++ events := advance.chronicle
    rw [grown, created, chronicle, branchedIn_append, List.length_append]
    omega

/-- The children of a node are younger than all that waits, and the second is the younger one. -/
theorem Census.young {node : Node} {rest : Frontier} {children : List Node}
    (census : Census count state) (next : state.frontier.queue = node :: rest.queue)
    (numbers : children.map (·.id) =
      (List.range children.length).map (state.tree.created + ·)) :
    Young rest.queue children := by
  constructor
  · intro child member other waits
    have older : other.id < state.tree.created :=
      census.id_lt (next ▸ List.mem_cons_of_mem _ waits)
    exact older.trans_le (id_within numbers member).1
  · have ascending : (children.map (·.id)).Pairwise (· < ·) := by
      rw [numbers, List.pairwise_map]
      apply List.pairwise_lt_range.imp
      intro first second less
      exact Nat.add_lt_add_left less _
    exact List.pairwise_map.mp ascending

end Heads

end Knapsack.Search

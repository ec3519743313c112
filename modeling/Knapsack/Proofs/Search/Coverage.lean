import Knapsack.Proofs.Search.Session

/-! # Improving loads are below nodes that wait

Every load that is worth more than the incumbent stays below one of the nodes that wait, and these
are apart. A turn keeps this: a node that is discarded has no such load below it, because its value
bounds them, and a node that is branched hands its loads over to its children. The incumbent may
rise before the children are created, which only leaves fewer loads to care about.
-/

namespace Knapsack.Search

variable {plan : Plan} {excuse : Failure → Prop} {limit count : ℕ} {start state : State Frontier}
  {inst : Instance}

section Incumbent

variable {node : Node} {solution : Solution} {value : Fraction}

theorem lowerBound_recorded (lawful : state.solutions.Lawful inst) (packs : solution.Packs inst)
    (worth : solution.value = .ok value) :
    (state.recorded solution value).lowerBound = max state.lowerBound (.finite value) :=
  lawful.lowerBound_insert packs worth

/-- The heuristic only ever raises the lower bound. -/
theorem lawful_harvested (node : Node) (lawful : state.solutions.Lawful inst)
    {found : List (Solution × Fraction)} (valued : Valued inst found) (notices : List Notice) :
    (state.harvested node notices found).solutions.Lawful inst ∧
      state.lowerBound ≤ (state.harvested node notices found).lowerBound := by
  refine List.foldlRecOn (motive := fun later : State Frontier => later.solutions.Lawful inst ∧
    state.lowerBound ≤ later.lowerBound) found _ ⟨lawful, le_refl _⟩ ?_
  rintro later ⟨still, above⟩ entry listed
  obtain ⟨packs, worth⟩ := valued entry listed
  have raised : (later.accepted node entry).lowerBound = max later.lowerBound (.finite entry.2) :=
    still.lowerBound_insert packs worth
  exact ⟨still.insert packs worth, le_trans above (raised ▸ le_max_left _ _)⟩

end Incumbent

variable {node : Node} {before after : State Frontier}

/-- A turn keeps the solutions lawful and never lowers the lower bound. -/
theorem Turn.lawful (turn : Turn plan node before after) (drawn : node.Drawn plan.inst)
    (lawful : before.solutions.Lawful plan.inst) :
    after.solutions.Lawful plan.inst ∧ before.lowerBound ≤ after.lowerBound := by
  obtain ⟨classified⟩ := turn
  cases classified with
  | infeasible _ => exact ⟨lawful, le_refl _⟩
  | pruned _ _ => exact ⟨lawful, le_refl _⟩
  | feasible feasible _ integral =>
    have packs := drawn.packs feasible integral
    refine ⟨lawful.insert packs drawn.worth, ?_⟩
    exact lowerBound_recorded lawful packs drawn.worth ▸ le_max_left _ _
  | @branched _ _ _ harvest found _ _ valued _ children _ _ _ =>
    have harvested := lawful_harvested node lawful valued harvest.notices
    rwa [State.lowerBound, State.lowerBound, ← State.grown_solutions _ children] at harvested

/-- The children of a turn are apart, and a load below the node is below one of them unless the
incumbent is at least as good. -/
theorem Turn.shares (turn : Turn plan node before after) (faithful : plan.Faithful)
    (drawn : node.Drawn plan.inst) (lawful : before.solutions.Lawful plan.inst) :
    ∃ children : List Node,
      after.frontier.queue.Perm (children.map Node.queued ++ before.frontier.queue) ∧
      (∀ child ∈ children, child.fixation.refines node.fixation = true) ∧
      (children.map (·.fixation)).Pairwise Fixation.Incompatible ∧
      ∀ chosen ∈ plan.inst.loads, node.fixation.allows chosen = true →
        .finite (.ofNat (plan.inst.valueOf chosen)) ≤ after.lowerBound ∨
          ∃ child ∈ children, child.fixation.allows chosen = true := by
  obtain ⟨classified⟩ := turn
  cases classified with
  | infeasible infeasible =>
    refine ⟨[], List.Perm.refl _, by simp, List.Pairwise.nil, fun chosen load allowed => ?_⟩
    have feasible := (drawn.valueOf_le load allowed).1
    exact nomatch feasible.symm.trans infeasible
  | pruned _ dominated =>
    refine ⟨[], List.Perm.refl _, by simp, List.Pairwise.nil, fun chosen load allowed => ?_⟩
    exact Or.inl (le_trans (drawn.valueOf_le load allowed).2 dominated)
  | feasible feasible _ integral =>
    have packs := drawn.packs feasible integral
    have raised : Bound.finite node.value ≤ (before.recorded node.relaxed node.value).lowerBound :=
      lowerBound_recorded lawful packs drawn.worth ▸ le_max_right _ _
    refine ⟨[], List.Perm.refl _, by simp, List.Pairwise.nil, fun chosen load allowed => ?_⟩
    exact Or.inl (le_trans (drawn.valueOf_le load allowed).2 raised)
  | @branched _ _ _ harvest found _ _ _ fixations children _ shares grow =>
    have perm := (before.harvested node harvest.notices found).queue_grown_perm children
    rw [State.harvested_frontier] at perm
    refine ⟨children, perm, grow.refines, grow.map_fixation.symm ▸ (shares faithful).disjoint,
      fun chosen load allowed => Or.inr ?_⟩
    obtain ⟨fixation, member, below⟩ := (shares faithful).cover chosen allowed
    rw [← grow.map_fixation] at member
    obtain ⟨child, listed, rfl⟩ := List.mem_map.mp member
    exact ⟨child, listed, below⟩

/-- Nodes that are apart wait, and every load that improves the incumbent is below one of them. -/
structure Covered (inst : Instance) (state : State Frontier) : Prop where
  lawful : state.solutions.Lawful inst
  apart : state.frontier.queue.Pairwise fun a b => a.fixation.Incompatible b.fixation
  cover : ∀ chosen ∈ inst.loads, state.lowerBound < .finite (.ofNat (inst.valueOf chosen)) →
    ∃ node ∈ state.frontier.queue, node.fixation.allows chosen = true

theorem covered_planted {root : Node} (lawful : state.solutions.Lawful inst)
    (fixes : root.fixation = .unassigned inst.size) : Covered inst (state.planted root) where
  lawful := lawful
  apart := by
    rw [State.queue_planted]
    exact List.pairwise_singleton _ _
  cover := by
    intro chosen _ _
    refine ⟨root.queued, List.mem_singleton_self _, ?_⟩
    exact fixes ▸ Fixation.allows_unassigned inst.size chosen

/-- A turn of the first node that waits keeps the coverage. -/
theorem Covered.turn {frontier : Frontier} (covered : Covered plan.inst before)
    (faithful : plan.Faithful) (drawn : node.Drawn plan.inst)
    (next : before.frontier.queue = node :: frontier.queue)
    (turn : Turn plan node { before with frontier } after) : Covered plan.inst after := by
  obtain ⟨lawful, above⟩ := turn.lawful drawn covered.lawful
  obtain ⟨children, perm, refines, disjoint, shares⟩ := turn.shares faithful drawn covered.lawful
  have apart := covered.apart
  rw [next, List.pairwise_cons] at apart
  refine ⟨lawful, ?_, fun chosen load improving => ?_⟩
  · apply (perm.pairwise_iff fun disagree => disagree.symm).mpr
    refine List.pairwise_append.mpr ⟨?_, apart.2, fun child member other waits => ?_⟩
    · rw [List.pairwise_map] at disjoint ⊢
      exact disjoint
    · obtain ⟨child, listed, rfl⟩ := List.mem_map.mp member
      exact (apart.1 other waits).of_refines (refines child listed)
  · obtain ⟨other, waits, allowed⟩ :=
      covered.cover chosen load (lt_of_le_of_lt above improving)
    rw [next] at waits
    -- A load below the processed node moves on to a child, unless the incumbent caught up with it.
    rcases List.mem_cons.mp waits with rfl | stays
    · rcases shares chosen load allowed with reached | ⟨child, listed, below⟩
      · exact absurd improving (not_lt.mpr reached)
      · exact ⟨child.queued, perm.mem_iff.mpr (List.mem_append_left _
          (List.mem_map_of_mem listed)), below⟩
    · exact ⟨other, perm.mem_iff.mpr (List.mem_append_right _ stays), allowed⟩

/-- Every head is covered, however the search was started. -/
theorem Head.covered (tame : plan.Tame excuse) (lawful : start.solutions.Lawful plan.inst)
    (head : Head plan limit start count state) : Covered plan.inst state := by
  refine head.invariant tame (fun _ => Covered plan.inst) ?_ ?_
  · intro root drawn drafted
    exact covered_planted lawful drafted.fixes
  · intro count before node frontier after covered waiting _ _ next _ turn
    obtain ⟨drawn, -⟩ := waiting node (next ▸ List.mem_cons_self ..)
    exact covered.turn tame.toFaithful drawn next turn

end Knapsack.Search

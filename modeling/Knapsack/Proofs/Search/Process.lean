import Knapsack.Proofs.Search.Turn

/-! # Processing a node is a turn

Each step of a search leads to the state that was described, and fails only with an excuse. Children
and solutions come in lists, so the passes over them go by induction on the list.
-/

namespace Knapsack.Search

variable {plan : Plan} {excuse : Failure → Prop} {node : Node} {before : State Frontier}

section Solutions

variable {solution : Solution} {value : Fraction}

/-- Recording a solution that packs a load. -/
theorem record_eq (packs : solution.Packs plan.inst) (worth : solution.value = .ok value) :
    record solution before = .ok () (before.recorded solution value) := by
  have valued : exactly solution.value = .ok value := exactly_eq_ok_iff.mpr worth
  unfold record
  rw [valued]
  change (Step.ofDefect (before.solutions.add solution) >>= _) before = _
  rw [SolutionSet.add_eq packs worth, State.recorded]
  generalize before.solutions.insert solution value = added
  obtain ⟨solutions, improves⟩ := added
  cases improves <;> rfl

/-- Accounting for a solution of the heuristic that packs a load. -/
theorem accept_eq (packs : solution.Packs plan.inst) (worth : solution.value = .ok value) :
    accept node solution before = .ok () (before.accepted node (solution, value)) := by
  have valued : exactly solution.value = .ok value := exactly_eq_ok_iff.mpr worth
  have judged : exactly solution.isFeasible = .ok true := exactly_eq_ok_iff.mpr packs.feasible
  unfold accept
  rw [judged, valued, packs.integral]
  change (record solution >>= _) _ = _
  rw [Step.bind_apply, record_eq packs worth]
  rfl

/-- A solution of the heuristic is accounted for unless it is not a load. -/
theorem accept_leads (guarded : plan.Guarded excuse)
    (sound : solution.Packs plan.inst ∨ ∀ defect, excuse (.defect defect))
    (about : solution.inst = plan.inst) :
    Leads excuse (accept node solution) before fun _ after => ∃ value,
      (solution.Packs plan.inst ∧ solution.value = .ok value) ∧
        after = before.accepted node (solution, value) := by
  by_cases packs : solution.Packs plan.inst
  · cases worth : solution.value with
    | ok value => exact Leads.of_eq (accept_eq packs worth) ⟨value, ⟨packs, rfl⟩, rfl⟩
    | error fault =>
      -- A load has a value unless there are too many items.
      have many : 2 ^ 64 ≤ plan.inst.size := by
        by_contra few
        obtain ⟨value, known⟩ := packs.value_isOk (not_le.mp few)
        exact nomatch worth.symm.trans known
      have judged : exactly solution.isFeasible = .ok true := exactly_eq_ok_iff.mpr packs.feasible
      unfold accept
      rw [judged, packs.integral]
      change Leads excuse (Step.ofDefect (exactly solution.value) >>= _) before _
      exact Leads.bind (fun _ _ => False)
        (Leads.ofDefect (fun _ known => nomatch (exactly_eq_ok_iff.mp known).symm.trans worth)
          fun defect _ => guarded.wide many defect)
        fun _ _ absurd => absurd.elim
  -- What is not a load fails one of the two tests, or the tests themselves break down.
  · have excused := sound.resolve_left packs
    unfold accept
    refine Leads.bind (fun feasible _ => solution.isFeasible = .ok feasible)
      (Leads.ofDefect (fun _ known => exactly_eq_ok_iff.mp known) fun defect _ => excused defect) ?_
    intro feasible after judged
    have unfit : ¬ (feasible && solution.isIntegral) = true := by
      intro fits
      rw [Bool.and_eq_true] at fits
      exact packs ⟨about, fits.1 ▸ judged, fits.2⟩
    simp only [if_neg unfit]
    exact Leads.bind (fun _ _ => False) (Leads.throw (excused _))
      fun _ _ absurd => absurd.elim

end Solutions

section Heuristic

private theorem forM_tell_eq (notices : List Notice) :
    notices.forM tell before = .ok () (before.told notices) := by
  induction notices generalizing before with
  | nil => rfl
  | cons notice rest ih =>
    change (tell notice >>= fun _ => rest.forM tell) before = _
    rw [Step.bind_apply, show tell notice before = .ok () (before.told [notice]) from rfl]
    exact ih

private theorem forM_accept_leads (guarded : plan.Guarded excuse) {solutions : List Solution}
    (sound : ∀ solution ∈ solutions, solution.Packs plan.inst ∨ ∀ defect, excuse (.defect defect))
    (about : ∀ solution ∈ solutions, solution.inst = plan.inst) :
    Leads excuse (solutions.forM (accept node)) before fun _ after => ∃ found,
      (solutions = found.map (·.1) ∧ Valued plan.inst found) ∧
        after = found.foldl (State.accepted · node) before := by
  induction solutions generalizing before with
  | nil => exact Leads.pure ⟨[], ⟨rfl, by simp [Valued]⟩, rfl⟩
  | cons solution rest ih =>
    change Leads excuse (accept node solution >>= fun _ => rest.forM (accept node)) before _
    refine Leads.bind _ (accept_leads guarded (sound solution (List.mem_cons_self ..))
      (about solution (List.mem_cons_self ..))) ?_
    rintro _ after ⟨value, known, rfl⟩
    refine Leads.imp (ih (fun other member => sound other (List.mem_cons_of_mem _ member))
      fun other member => about other (List.mem_cons_of_mem _ member)) ?_
    rintro _ final ⟨found, ⟨yields, valued⟩, rfl⟩
    refine ⟨(solution, value) :: found, ⟨by rw [yields, List.map_cons], ?_⟩, rfl⟩
    exact List.forall_mem_cons.mpr ⟨known, valued⟩

/-- Running the heuristic. -/
theorem runHeuristic_leads (guarded : plan.Guarded excuse) (drawn : node.Drawn plan.inst) :
    Leads excuse (runHeuristic plan node) before fun solutions after => ∃ harvest found,
      plan.heuristic before.heuristicRuns plan.inst node = .ok harvest ∧
        solutions = harvest.solutions ∧ harvest.solutions = found.map (·.1) ∧
          Valued plan.inst found ∧ after = before.harvested node harvest.notices found := by
  unfold runHeuristic
  refine Leads.get_bind (Leads.modify_bind ?_)
  refine Leads.bind (fun harvest after =>
      plan.heuristic before.heuristicRuns plan.inst node = .ok harvest ∧
        after = { before with heuristicRuns := before.heuristicRuns + 1 })
    (Leads.ofDefect (fun harvest outcome => ⟨outcome, rfl⟩)
      fun defect failed => guarded.searches _ node defect drawn failed) ?_
  rintro harvest _ ⟨outcome, rfl⟩
  refine Leads.bind (fun _ after => after = _)
    (Leads.of_eq (forM_tell_eq harvest.notices) rfl) ?_
  rintro _ _ rfl
  refine Leads.bind _ (forM_accept_leads guarded (guarded.finds _ node harvest drawn outcome)
    (guarded.about _ node harvest drawn outcome)) ?_
  rintro _ after ⟨found, ⟨yields, valued⟩, rfl⟩
  exact Leads.pure ⟨harvest, found, outcome, rfl, yields, valued, rfl⟩

end Heuristic

section Branching

variable {fixation : Fixation} {parent? : Option Node}

theorem enqueue_eq (fresh : node.status = .unknown) :
    enqueue node before =
      .ok () { before with frontier := before.frontier.enqueue node.queued } := by
  have advanced : node.advance .enqueued = .ok node.queued := by
    rw [Node.advance, fresh]
    rfl
  unfold enqueue
  rw [advanced]
  rfl

/-- A node of the tree is created when its relaxation comes out. -/
theorem create_leads (guarded : plan.Guarded excuse) (covers : fixation.length = plan.inst.size) :
    Leads excuse (create plan parent? fixation) before fun _ after => ∃ child,
      (child.Drawn plan.inst ∧ before.tree.Drafted parent? fixation child) ∧
        after = before.joined child := by
  unfold create
  apply Leads.get_bind
  simp only [Tree.grow, guarded.relaxation]
  apply Leads.modify_bind
  cases outcome : before.tree.draft .greedy plan.inst parent? fixation with
  | ok child =>
    obtain ⟨drawn, drafted⟩ := Tree.drawn_of_draft covers outcome
    rw [Step.ofExcept_ok, pure_bind]
    apply Leads.modify_bind
    exact Leads.of_eq (enqueue_eq drafted.fresh) ⟨child, ⟨drawn, drafted⟩, rfl⟩
  | error failure =>
    obtain ⟨many, fault, rfl⟩ := Tree.draft_error covers outcome
    exact guarded.wide many _

private theorem createChild_leads (guarded : plan.Guarded excuse) (drawn : node.Drawn plan.inst)
    (refines : fixation.refines node.fixation = true) :
    Leads excuse (createChild plan node fixation) before fun _ after => ∃ child,
      (child.Drawn plan.inst ∧ before.tree.Drafted (some node) fixation child) ∧
        after = before.joined child := by
  have covers : fixation.length = plan.inst.size :=
    (Fixation.length_of_refines refines).trans drawn.covers
  simp only [createChild, refines, if_true]
  exact create_leads guarded covers

private theorem forM_createChild_leads (guarded : plan.Guarded excuse)
    (drawn : node.Drawn plan.inst) {fixations : List Fixation}
    (splits : (∀ fixation ∈ fixations, fixation.refines node.fixation = true) ∨
      ∀ defect, excuse (.defect defect)) :
    Leads excuse (fixations.forM (createChild plan node)) before fun _ after => ∃ children,
      Grow plan.inst node before.tree fixations children ∧
        after = children.foldl State.joined before := by
  induction fixations generalizing before with
  | nil => exact Leads.pure ⟨[], Grow.nil, rfl⟩
  | cons fixation rest ih =>
    change Leads excuse
      (createChild plan node fixation >>= fun _ => rest.forM (createChild plan node)) before _
    by_cases refines : fixation.refines node.fixation = true
    · apply Leads.bind _ (createChild_leads guarded drawn refines)
      rintro _ after ⟨child, ⟨drawnChild, drafted⟩, rfl⟩
      apply Leads.imp (ih (splits.imp_left fun refine other member =>
        refine other (List.mem_cons_of_mem _ member)))
      rintro _ final ⟨children, grow, rfl⟩
      exact ⟨child :: children, Grow.cons refines drawnChild drafted grow, rfl⟩
    · have excused := splits.resolve_left fun refine => refines (refine _ (List.mem_cons_self ..))
      simp only [createChild, if_neg refines]
      exact Leads.throw (excused _)

/-- Splitting a fractional node. -/
theorem branch_leads (guarded : plan.Guarded excuse) (drawn : node.Drawn plan.inst)
    (feasible : node.feasible = true) (fractional : node.relaxed.isIntegral = false) :
    Leads excuse (branch plan node) before fun _ after => ∃ fixations children,
      plan.branching before.branchings node = .ok fixations ∧
        Grow plan.inst node before.tree fixations children ∧ after = before.grown children := by
  unfold branch
  refine Leads.get_bind (Leads.modify_bind ?_)
  refine Leads.bind (fun fixations after =>
      plan.branching before.branchings node = .ok fixations ∧
        after = { before with branchings := before.branchings + 1 })
    (Leads.ofExcept (fun fixations outcome => ⟨outcome, rfl⟩)
      fun failure failed => guarded.branches _ node failure drawn feasible fractional failed) ?_
  rintro fixations _ ⟨outcome, rfl⟩
  have splits := guarded.splits _ node fixations drawn feasible fractional outcome
  cases present : fixations.isEmpty with
  | false =>
    simp only [Bool.false_eq_true, if_false]
    apply Leads.imp (forM_createChild_leads guarded drawn (splits.imp_left And.right))
    rintro _ after ⟨children, grow, rfl⟩
    exact ⟨fixations, children, outcome, grow, rfl⟩
  | true =>
    have excused := splits.resolve_left fun fine => fine.1 (List.isEmpty_iff.mp present)
    simp only [if_true]
    exact Leads.throw (excused _)

end Branching

/-- Classifying a drawn node. -/
theorem classify_leads (guarded : plan.Guarded excuse) (drawn : node.Drawn plan.inst) :
    Leads excuse (classify plan node) before fun outcome after =>
      Classified plan node before outcome.1 outcome.2 after := by
  unfold classify
  cases feasible : node.feasible with
  | false => exact Leads.pure (Classified.infeasible feasible)
  | true =>
    simp only [Bool.not_true, Bool.false_eq_true, if_false]
    apply Leads.get_bind
    split_ifs with dominated integral
    · exact Leads.pure (Classified.pruned feasible dominated)
    · have packs := drawn.packs feasible integral
      exact Leads.bind (fun _ after => after = _) (Leads.of_eq (record_eq packs drawn.worth) rfl)
        fun _ after recorded => recorded ▸ Leads.pure
          (Classified.feasible feasible (not_le.mp dominated) integral)
    · have fractional := Bool.eq_false_iff.mpr integral
      apply Leads.bind _ (runHeuristic_leads guarded drawn)
      rintro solutions _ ⟨harvest, found, harvests, rfl, yields, valued, rfl⟩
      apply Leads.bind _ (branch_leads guarded drawn feasible fractional)
      rintro _ _ ⟨fixations, children, branches, grow, rfl⟩
      rw [State.harvested_branchings] at branches
      rw [State.harvested_tree] at grow
      exact Leads.pure (Classified.branched feasible (not_le.mp dominated) fractional
        harvests yields valued branches
        (fun faithful => faithful.shares _ node fixations drawn feasible fractional branches) grow)

/-- Processing a node that waited on the frontier is a turn. -/
theorem process_leads (guarded : plan.Guarded excuse) (drawn : node.Drawn plan.inst)
    (waited : node.status = .enqueued) :
    Leads excuse (process plan node) before fun _ after => Turn plan node before after := by
  unfold process
  apply Leads.bind _ (classify_leads guarded drawn)
  rintro ⟨status, found⟩ middle classified
  have advanced : node.advance status = .ok { node with status } := by
    rw [Node.advance, waited]
    cases classified <;> rfl
  dsimp only
  rw [advanced]
  exact Leads.of_eq rfl (Turn.intro classified)

end Knapsack.Search

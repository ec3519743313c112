import Knapsack.Proofs.Outcome
import Knapsack.Proofs.Relaxation.Greedy
import Knapsack.Proofs.SolutionSet.Lawful

/-! # Nodes drawn with the greedy relaxation

A drawn node carries the relaxed solution of its own fixation, with its exact value and feasibility.
Its value bounds every load below it and the feasible nodes below it, and no load is below a node
that is infeasible. Drawing a node can only fail when there are too many items.
-/

namespace Knapsack

namespace Node

variable {inst : Instance} {node child parent : Node}

/-- A node that carries the greedy relaxed solution of its fixation. -/
structure Drawn (inst : Instance) (node : Node) : Prop where
  covers : node.fixation.length = inst.size
  about : node.relaxed.inst = inst
  selects : node.relaxed.selection = Relaxation.greedySelection inst node.fixation
  worth : node.relaxed.value = .ok node.value
  judged : node.relaxed.isFeasible = .ok node.feasible

namespace Drawn

/-- The status of a node does not matter. -/
theorem withStatus (drawn : Drawn inst node) (status : Status) :
    Drawn inst { node with status } := ⟨drawn.covers, drawn.about, drawn.selects, drawn.worth,
  drawn.judged⟩

/-- The amounts of a relaxed solution have a common measure of 32 bits. -/
theorem parted (drawn : Drawn inst node) :
    ∃ parts : ℕ, 0 < parts ∧ parts < 2 ^ 32 ∧ node.relaxed.Parted parts := by
  simpa only [Solution.Parted, drawn.selects] using
    Relaxation.greedySelection_parted inst node.fixation

theorem single (drawn : Drawn inst node) : ∀ taken ∈ node.relaxed.selection, taken ≤ 1 := by
  obtain ⟨parts, -, -, parted⟩ := drawn.parted
  exact fun taken member => (parted taken member).1

/-- The relaxed solution of a feasible node packs a load when it is integral. -/
theorem packs (drawn : Drawn inst node) (feasible : node.feasible = true)
    (integral : node.relaxed.isIntegral = true) : node.relaxed.Packs inst :=
  ⟨drawn.about, feasible ▸ drawn.judged, integral⟩

theorem kept (drawn : Drawn inst node) :
    node.fixation.keptBy node.relaxed.selection = true := by
  rw [drawn.selects]
  exact Relaxation.keptBy_greedySelection inst node.fixation

theorem length_selection (drawn : Drawn inst node) :
    node.relaxed.selection.length = node.fixation.length := by
  rw [node.relaxed.covers, drawn.about, drawn.covers]

theorem keeps (drawn : Drawn inst node) : node.fixation.Keeps node.relaxed.amounts :=
  Fixation.keeps_amountsOf drawn.length_selection drawn.kept

theorem amounts_mem (drawn : Drawn inst node) (index : ℕ) :
    0 ≤ node.relaxed.amounts index ∧ node.relaxed.amounts index ≤ 1 :=
  ⟨Fraction.toRat_nonneg _, Solution.amountsOf_le_one drawn.single index⟩

/-- The value of a node is the exact value of its relaxed solution. -/
theorem toRat_value (drawn : Drawn inst node) :
    node.value.toRat = inst.spread (·.value) node.relaxed.amounts := by
  rw [(Solution.toRat_total drawn.worth).1, drawn.about]

/-- A node is feasible exactly when its fixed items fit. -/
theorem feasible_iff (drawn : Drawn inst node) :
    node.feasible = true ↔ inst.weightOf node.fixation.packedBy ≤ inst.capacity.toNat :=
  Relaxation.isFeasible_iff drawn.covers drawn.about drawn.selects drawn.judged

/-- Amounts that keep the fixation and fit are worth no more than the node, which is feasible. -/
theorem spread_le (drawn : Drawn inst node) {amounts : ℕ → ℚ}
    (keeps : node.fixation.Keeps amounts)
    (bounded : ∀ index < inst.size, 0 ≤ amounts index ∧ amounts index ≤ 1)
    (fits : inst.spread (·.weight) amounts ≤ inst.capacity.toNat) :
    node.feasible = true ∧ inst.spread (·.value) amounts ≤ node.value.toRat := by
  refine ⟨drawn.feasible_iff.mpr (Relaxation.weightOf_packedBy_le drawn.covers keeps
    (fun index bound => (bounded index bound).1) fits), ?_⟩
  rw [drawn.toRat_value, Solution.amounts, drawn.selects]
  exact Relaxation.spread_value_le_greedySelection drawn.covers keeps bounded fits

/-- A load below a node is worth no more than the node, which is feasible. -/
theorem valueOf_le (drawn : Drawn inst node) {chosen : Finset ℕ} (load : chosen ∈ inst.loads)
    (allowed : node.fixation.allows chosen = true) :
    node.feasible = true ∧ Bound.finite (.ofNat (inst.valueOf chosen)) ≤ .finite node.value := by
  obtain ⟨items, fits⟩ := Instance.mem_loads.mp load
  obtain ⟨feasible, bound⟩ := drawn.spread_le (Fixation.keeps_whole allowed)
    (fun index _ => ⟨Instance.whole_nonneg chosen index, Instance.whole_le_one chosen index⟩)
    (by rw [Instance.spread_whole _ items]; exact Nat.cast_le.mpr fits)
  refine ⟨feasible, Fraction.le_iff_toRat.mpr ?_⟩
  rwa [Instance.spread_whole _ items, ← Fraction.toRat_ofNat] at bound

/-- A feasible node is worth no more than the nodes above it, which are feasible. -/
theorem value_le_of_refines (drawn : Drawn inst child) (above : Drawn inst parent)
    (refines : child.fixation.refines parent.fixation = true) (feasible : child.feasible = true) :
    parent.feasible = true ∧ child.value ≤ parent.value := by
  have light := (Solution.spread_weight_le_of_isFeasible (feasible ▸ drawn.judged)).1
  rw [drawn.about] at light
  obtain ⟨feasibleAbove, bound⟩ := above.spread_le (drawn.keeps.of_refines refines)
    (fun index _ => drawn.amounts_mem index) light
  exact ⟨feasibleAbove, Fraction.le_iff_toRat.mpr (drawn.toRat_value.trans_le bound)⟩

/-- At most one item is cut. -/
theorem fractional_unique (drawn : Drawn inst node) {i j : ℕ}
    (here : i ∈ node.relaxed.fractionalIndices) (there : j ∈ node.relaxed.fractionalIndices) :
    i = j := by
  obtain ⟨first, present, cut⟩ := Solution.mem_indicesWhere.mp here
  obtain ⟨second, presentToo, cutToo⟩ := Solution.mem_indicesWhere.mp there
  rw [drawn.selects] at present presentToo
  exact Relaxation.greedySelection_cut_unique inst node.fixation present presentToo
    (Bool.not_eq_true' _ ▸ cut) (Bool.not_eq_true' _ ▸ cutToo)

/-- Only open items are cut. -/
theorem isOpen_of_fractional (drawn : Drawn inst node) {index : ℕ}
    (fractional : index ∈ node.relaxed.fractionalIndices) :
    node.fixation.get? index = some none := by
  obtain ⟨taken, present, cut⟩ := Solution.mem_indicesWhere.mp fractional
  rw [drawn.selects] at present
  exact Relaxation.isOpen_of_cut present (Bool.not_eq_true' _ ▸ cut)

end Drawn

end Node

namespace Tree

variable {inst : Instance} {tree : Tree} {parent? : Option Node} {fixation : Fixation} {node : Node}
  {failure : Failure}

/-- The next node of a tree, with its place there. -/
structure Drafted (tree : Tree) (parent? : Option Node) (fixation : Fixation) (node : Node) :
    Prop where
  number : node.id = tree.created
  below : node.parent? = parent?.map (·.id)
  depth : node.depth = parent?.elim 0 (·.depth + 1)
  fixes : node.fixation = fixation
  fresh : node.status = .unknown

private theorem draft_eq (covers : fixation.length = inst.size) {relaxed : Solution}
    (solved : Relaxation.greedy tree.relaxations inst fixation = .ok relaxed) :
    tree.draft .greedy inst parent? fixation = (do
      let value ← Failure.ofDefect (exactly relaxed.value)
      let feasible ← Failure.ofDefect (exactly relaxed.isFeasible)
      return {
        id := tree.created
        parent? := parent?.map (·.id)
        depth := parent?.elim 0 (·.depth + 1)
        fixation, relaxed, value, feasible
        status := .unknown }) := by
  have kept : fixation.keptBy relaxed.selection = true := by
    rw [Relaxation.greedy_eq covers, Except.ok.injEq] at solved
    rw [← solved]
    exact Relaxation.keptBy_greedySelection inst fixation
  simp only [draft, solved, Failure.ofError, Except.mapError, kept, bind, Except.bind, if_true,
    pure, Except.pure]

/-- The greedy relaxation refuses a fixation of another length, and then there is no node. -/
theorem covers_of_draft (outcome : tree.draft .greedy inst parent? fixation = .ok node) :
    fixation.length = inst.size := by
  by_contra other
  obtain ⟨relaxed, solved, -⟩ := bind_eq_ok.mp outcome
  rw [Relaxation.greedy, if_neg other] at solved
  cases solved

/-- A node that the greedy relaxation drafts is drawn. -/
theorem drawn_of_draft (covers : fixation.length = inst.size)
    (outcome : tree.draft .greedy inst parent? fixation = .ok node) :
    node.Drawn inst ∧ tree.Drafted parent? fixation node := by
  rw [draft_eq covers (Relaxation.greedy_eq covers _)] at outcome
  obtain ⟨value, worth, outcome⟩ := bind_eq_ok.mp outcome
  obtain ⟨feasible, judged, outcome⟩ := bind_eq_ok.mp outcome
  obtain rfl := Except.ok.inj outcome
  simp only [Failure.ofDefect_eq_ok_iff, exactly_eq_ok_iff] at worth judged
  exact ⟨⟨covers, rfl, rfl, worth, judged⟩, rfl, rfl, rfl, rfl, rfl⟩

/-- Drafting fails on arithmetic alone, and only when there are too many items. -/
theorem draft_error (covers : fixation.length = inst.size)
    (outcome : tree.draft .greedy inst parent? fixation = .error failure) :
    2 ^ 64 ≤ inst.size ∧ ∃ fault, failure = .defect (.arithmetic fault) := by
  rw [draft_eq covers (Relaxation.greedy_eq covers _)] at outcome
  generalize solved : (⟨inst, Relaxation.greedySelection inst fixation, _⟩ : Solution) = relaxed
    at outcome
  have many : ∀ {measure : Item → UInt32} {fault : ArithmeticFault},
      relaxed.total measure = .error fault → 2 ^ 64 ≤ inst.size :=
    Relaxation.le_size_of_total_error (by rw [← solved]) (by rw [← solved])
  -- The value is computed first, and judging the solution needs nothing but its weight.
  cases worth : relaxed.value with
  | error fault =>
    rw [worth] at outcome
    exact ⟨many worth, fault, (Except.error.inj outcome).symm⟩
  | ok value =>
    cases weighed : relaxed.weight with
    | error fault =>
      have judged : relaxed.isFeasible = .error fault := by
        rw [Solution.isFeasible, weighed]
        rfl
      rw [worth, judged] at outcome
      exact ⟨many weighed, fault, (Except.error.inj outcome).symm⟩
    | ok weight =>
      rw [worth, Solution.isFeasible_eq weighed] at outcome
      cases outcome

end Tree

end Knapsack

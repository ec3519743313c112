import Knapsack.Proofs.Heuristic.LocalSearch
import Knapsack.Proofs.Node.Drawn
import Knapsack.Proofs.Relaxation.Optimal

/-! # Greedy completion yields maximal loads

Greedy completion starts from the items that the relaxed solution of a node packs entirely, so all
that it loses at first is the item that is cut. Local search touches open items only and never loses
value. So what comes out keeps the fixation, leaves no room for an open item, and is worth no more
than the relaxed solution. All of it comes out for any number of items, because the totals of the
relaxed solution did.
-/

namespace Knapsack

variable {inst : Instance} {node : Node} {fixation : Fixation}

/-- A solution that packs a load, keeps a fixation and leaves no room for an open item. -/
structure Solution.Completes (inst : Instance) (fixation : Fixation) (solution : Solution) : Prop
    extends Solution.Packs inst solution where
  keeps : ∀ index decision, fixation.get? index = some (some decision) →
    solution.selection[index]? = some (.ofDecision decision)
  maximal : ∀ index, fixation.get? index = some none → solution.selection[index]? ≠ some 1 →
    inst.capacity.toNat < inst.weightOf solution.packedSet + inst.measureAt (·.weight) index

namespace Heuristic

/-- The items that a selection packs entirely are marked. -/
theorem marked_eq_packedSet (solution : Solution) :
    Instance.marked (solution.selection.map (· == 1)) = solution.packedSet := by
  ext index
  rw [Instance.mem_marked, Solution.mem_packedSet, List.getElem?_map]
  cases solution.selection[index]? <;> simp

/-- The packing that greedy completion starts from. -/
def start (inst : Instance) (node : Node) : Packing :=
  ⟨node.relaxed.selection.map (· == 1),
    inst.capacity.toNat - inst.markedWeight (node.relaxed.selection.map (· == 1))⟩

section Start

variable (drawn : node.Drawn inst)

include drawn

theorem markedWeight_start : inst.markedWeight (node.relaxed.selection.map (· == 1)) =
    inst.weightOf node.relaxed.packedSet := by
  rw [Instance.markedWeight_eq, marked_eq_packedSet]
  rw [List.length_map, node.relaxed.covers, drawn.about]

private theorem weightOf_packedSet_le : (inst.weightOf node.relaxed.packedSet : ℚ) ≤
    inst.spread (·.weight) node.relaxed.amounts := by
  have parts := Solution.spread_amounts_eq (·.weight) drawn.single
  have positive := node.relaxed.cut_nonneg (·.weight)
  rw [drawn.about] at parts
  rw [parts, Instance.weightOf]
  linarith

/-- The weight of the relaxed solution came out when the node was created, so this one does. -/
theorem markedWeight_start_le :
    inst.markedWeight (node.relaxed.selection.map (· == 1)) ≤ Fraction.widthLimit := by
  rw [markedWeight_start drawn]
  cases outcome : node.relaxed.weight with
  | error fault =>
    have judged := drawn.judged
    simp [Solution.isFeasible, outcome, bind, Except.bind] at judged
  | ok weight =>
    obtain ⟨exact, narrow⟩ := Solution.toRat_total outcome
    apply narrow.le_widthLimit
    rw [exact, drawn.about]
    exact weightOf_packedSet_le drawn

theorem allows_start : node.fixation.allows node.relaxed.packedSet = true :=
  Relaxation.allows_packedSet drawn.length_selection drawn.kept

/-- What is packed entirely fits exactly when the fixed items do. -/
theorem weightOf_start_le_iff : inst.weightOf node.relaxed.packedSet ≤ inst.capacity.toNat ↔
    inst.weightOf node.fixation.packedBy ≤ inst.capacity.toNat := by
  constructor
  · intro fits
    have fewer : node.fixation.packedBy ⊆ node.relaxed.packedSet := by
      intro index member
      have fixed := Fixation.mem_packedBy.mp member
      exact (Fixation.allows_iff.mp (allows_start drawn) index true fixed).mp rfl
    exact (Finset.sum_le_sum_of_subset fewer).trans fits
  · intro fits
    have light := (Relaxation.spread_weight_greedySelection_le drawn.covers).mpr fits
    rw [← drawn.selects] at light
    have bound := (weightOf_packedSet_le drawn).trans light
    exact_mod_cast bound

private theorem balanced_start
    (fits : inst.weightOf node.fixation.packedBy ≤ inst.capacity.toNat) :
    (start inst node).Balanced inst where
  covers := by
    rw [start, List.length_map, node.relaxed.covers, drawn.about]
  balance := by
    rw [start, markedWeight_start drawn, marked_eq_packedSet]
    exact Nat.add_sub_cancel' ((weightOf_start_le_iff drawn).mpr fits)

/-- Greedy completion yields nothing when the fixed items do not fit. Otherwise it fills the packing
that it starts from, and improves the result. -/
theorem completion_cases (call : ℕ) :
    (inst.capacity.toNat < inst.weightOf node.fixation.packedBy ∧
      completion call inst node = .ok {}) ∨
    (inst.weightOf node.fixation.packedBy ≤ inst.capacity.toNat ∧
      ∃ completed improved rounds, completed.Balanced inst ∧
        Packing.Extends (inst.byDensity node.fixation.openIndices) (start inst node) completed ∧
        Packing.Full (inst.byDensity node.fixation.openIndices) completed ∧
        Packing.Improves inst (inst.byDensity node.fixation.openIndices) completed improved ∧
        completion call inst node = .ok {
          notices := [.completionImproved node.id rounds]
          solutions := (if improved.packed = completed.packed then [completed.packed]
            else [completed.packed, improved.packed]).filterMap (solution? inst) }) := by
  have valid := Relaxation.valid_openIndices drawn.covers
  have lists := Relaxation.lists_byDensity inst node.fixation.openIndices
  have heavier := (weightOf_start_le_iff drawn).not
  rw [not_le, not_le] at heavier
  simp only [completion, word, if_pos (markedWeight_start_le drawn), valid, bind, Except.bind, pure,
    Except.pure]
  split_ifs with heavy
  · exact Or.inl ⟨heavier.mp (markedWeight_start drawn ▸ heavy), rfl⟩
  · rw [markedWeight_start drawn, heavier, not_lt] at heavy
    obtain ⟨completed, filled, balanced, extension, full⟩ :=
      Packing.fill_isOk (balanced_start drawn heavy) lists
    obtain ⟨⟨improved, rounds⟩, outcome, improves⟩ :=
      Packing.improve_isOk balanced full lists inst.size
    refine Or.inr ⟨heavy, completed, improved, rounds, balanced, extension, full, improves, ?_⟩
    rw [start] at filled
    simp only [filled, outcome]

end Start

section Solution

variable {packing before after : Packing} {solution : Solution}

private theorem exists_solution? (balanced : packing.Balanced inst) : ∃ solution,
    solution? inst packing.packed = some solution ∧ solution.inst = inst ∧
      solution.selection = packing.packed.map fun p => if p then 1 else 0 := by
  have covers :
      (packing.packed.map fun p => if p then (1 : Fraction) else 0).length = inst.size := by
    rw [List.length_map]
    exact balanced.covers
  refine ⟨⟨inst, _, covers⟩, ?_, rfl, rfl⟩
  rw [solution?, Solution.ofPacked, Solution.ofSelection, dif_pos covers]
  rfl

variable (about : solution.inst = inst)
  (selects : solution.selection = packing.packed.map fun p => if p then 1 else 0)

section Selection

include selects

private theorem packedSet_eq : solution.packedSet = Instance.marked packing.packed := by
  ext index
  rw [Solution.mem_packedSet, Instance.mem_marked, selects, List.getElem?_map]
  cases packing.packed[index]? with
  | none => simp
  | some mark => cases mark <;> simp; decide

private theorem isIntegral_of_marks : solution.isIntegral = true := by
  apply List.all_eq_true.mpr
  intro taken member
  rw [selects] at member
  obtain ⟨mark, -, rfl⟩ := List.mem_map.mp member
  cases mark <;> rfl

private theorem single_of_marks : ∀ taken ∈ solution.selection, taken ≤ 1 := by
  intro taken member
  rw [selects] at member
  obtain ⟨mark, -, rfl⟩ := List.mem_map.mp member
  cases mark <;> decide

end Selection

include about selects

private theorem packs_of_marks (balanced : packing.Balanced inst) : solution.Packs inst := by
  apply Solution.packs_of_light about (isIntegral_of_marks selects) (single_of_marks selects)
  rw [packedSet_eq selects]
  exact Nat.le.intro balanced.balance

private theorem completes_of_marks (covers : fixation.length = inst.size)
    (balanced : packing.Balanced inst)
    (full : packing.Full (inst.byDensity fixation.openIndices))
    (allowed : fixation.allows (Instance.marked packing.packed) = true) :
    solution.Completes inst fixation where
  toPacks := packs_of_marks about selects balanced
  keeps := by
    intro index decision fixed
    obtain ⟨bound, -⟩ := List.getElem?_eq_some_iff.mp fixed
    have within : index < packing.packed.length := by
      rw [balanced.covers, ← covers]
      exact bound
    have agrees := Fixation.allows_iff.mp allowed index decision fixed
    rw [Instance.mem_marked, List.getElem?_eq_getElem within, Option.some.injEq] at agrees
    rw [selects, List.getElem?_map, List.getElem?_eq_getElem within, Option.map_some,
      Fraction.ofDecision, ← Bool.eq_iff_iff.mpr agrees]
  maximal := by
    intro index undecided absent
    have perm := Instance.map_index_byDensity_perm (Relaxation.openIndices_lt_size covers)
    obtain ⟨entry, listed, rfl⟩ :=
      List.mem_map.mp (perm.mem_iff.mpr (Fixation.mem_openIndices.mpr undecided))
    have left : entry.index ∉ Instance.marked packing.packed := by
      rwa [← packedSet_eq selects, Solution.mem_packedSet]
    have heavy := full entry listed left
    have balance := balanced.balance
    rw [packedSet_eq selects, inst.measureAt_eq (·.weight) (Instance.mem_byDensity listed).2]
    omega

end Solution

private theorem allows_of_agree {before after : Packing}
    (agree : Packing.Agree (inst.byDensity fixation.openIndices) before after)
    (allowed : fixation.allows (Instance.marked before.packed) = true) :
    fixation.allows (Instance.marked after.packed) = true := by
  apply Fixation.allows_iff.mpr
  intro index decision fixed
  have untouched : index ∉ Packing.positions (inst.byDensity fixation.openIndices) := by
    intro member
    obtain ⟨entry, listed, rfl⟩ := Packing.mem_positions.mp member
    have undecided := Fixation.mem_openIndices.mp (Instance.mem_byDensity listed).1
    exact nomatch fixed.symm.trans undecided
  rw [agree index untouched]
  exact Fixation.allows_iff.mp allowed index decision fixed

section Yield

variable (drawn : node.Drawn inst)

include drawn

private theorem value_eq_of_packs {solution : Solution} (packs : solution.Packs inst)
    (allowed : node.fixation.allows solution.packedSet = true) :
    solution.value = .ok (.ofNat (inst.valueOf solution.packedSet)) ∧
      .ofNat (inst.valueOf solution.packedSet) ≤ node.value := by
  have bound : Fraction.ofNat (inst.valueOf solution.packedSet) ≤ node.value :=
    (drawn.valueOf_le packs.mem_loads allowed).2
  have narrow := (Solution.toRat_total drawn.worth).2
  have fits := narrow.le_widthLimit (Fraction.toRat_ofNat _ ▸ Fraction.le_iff_toRat.mp bound)
  have single := (Solution.spread_weight_le_of_isFeasible packs.feasible).2
  refine ⟨?_, bound⟩
  rw [← packs.about] at fits ⊢
  exact Solution.total_eq_of_integral (·.value) packs.integral single fits

private theorem exists_completion {packing : Packing} (balanced : packing.Balanced inst)
    (full : packing.Full (inst.byDensity node.fixation.openIndices))
    (agree : Packing.Agree (inst.byDensity node.fixation.openIndices) (start inst node) packing) :
    ∃ solution, solution? inst packing.packed = some solution ∧
      solution.Completes inst node.fixation ∧
      solution.value = .ok (.ofNat (inst.valueOf (Instance.marked packing.packed))) ∧
      .ofNat (inst.valueOf (Instance.marked packing.packed)) ≤ node.value := by
  obtain ⟨solution, found, about, selects⟩ := exists_solution? balanced
  have allowed : node.fixation.allows (Instance.marked packing.packed) = true := by
    apply allows_of_agree agree
    rw [start, marked_eq_packedSet]
    exact allows_start drawn
  have completes := completes_of_marks about selects drawn.covers balanced full allowed
  rw [← packedSet_eq selects] at allowed ⊢
  exact ⟨solution, found, completes, value_eq_of_packs drawn completes.toPacks allowed⟩

private theorem valueOf_start : node.value.toRat =
    inst.valueOf (Instance.marked (start inst node).packed) + node.relaxed.cut (·.value) := by
  have parts := Solution.spread_amounts_eq (·.value) drawn.single
  rw [drawn.about] at parts
  rw [drawn.toRat_value, start, marked_eq_packedSet, Instance.valueOf, parts]

/-- Greedy completion of a drawn node yields solutions that pack loads. -/
theorem completion_isOk (call : ℕ) : ∃ harvest, completion call inst node = .ok harvest ∧
    ∀ solution ∈ harvest.solutions, solution.Packs inst := by
  rcases completion_cases drawn call with ⟨-, none⟩ |
    ⟨-, completed, improved, rounds, balanced, extension, full, improves, outcome⟩
  · exact ⟨{}, none, by simp⟩
  refine ⟨_, outcome, fun solution member => ?_⟩
  obtain ⟨packed, listed, found⟩ := List.mem_filterMap.mp member
  have origin : packed = completed.packed ∨ packed = improved.packed := by
    split_ifs at listed with same
    · exact Or.inl (List.mem_singleton.mp listed)
    · simpa using listed
  rcases origin with rfl | rfl
  · obtain ⟨_, known, completes, -⟩ := exists_completion drawn balanced full extension.agree
    obtain rfl := Option.some.inj (known.symm.trans found)
    exact completes.toPacks
  · obtain ⟨_, known, completes, -⟩ := exists_completion drawn improves.balanced improves.full
      (extension.agree.trans improves.agree)
    obtain rfl := Option.some.inj (known.symm.trans found)
    exact completes.toPacks

end Yield

/-- Greedy completion of a node that was created with the greedy relaxation, wherever the node is,
yields nothing when the fixed items do not fit. Otherwise it yields one or two solutions. Each of
them packs a load that keeps the fixation and leaves no room for an open item, and is worth no more
than the node. The first one loses at most what the node cuts, and the second one is better. -/
theorem completion_is_maximal {tree : Tree} {parent? : Option Node}
    (created : (tree.grow .greedy inst parent? fixation).1 = .ok node) (call : ℕ) :
    ∃ harvest, completion call inst node = .ok harvest ∧
      (inst.capacity.toNat < inst.weightOf fixation.packedBy → harvest.solutions = []) ∧
      (inst.weightOf fixation.packedBy ≤ inst.capacity.toNat →
        ∃ first value, first.Completes inst fixation ∧ first.value = .ok value ∧
          value ≤ node.value ∧ node.value.toRat - node.relaxed.cut (·.value) ≤ value.toRat ∧
          (harvest.solutions = [first] ∨ ∃ second better, harvest.solutions = [first, second] ∧
            second.Completes inst fixation ∧ second.value = .ok better ∧
            better ≤ node.value ∧ value < better)) := by
  obtain ⟨drawn, drafted⟩ := Tree.drawn_of_draft (Tree.covers_of_draft created) created
  rw [← drafted.fixes]
  rcases completion_cases drawn call with ⟨heavy, none⟩ |
    ⟨fits, completed, improved, rounds, balanced, extension, full, improves, outcome⟩
  · exact ⟨{}, none, fun _ => rfl, fun fits => absurd fits (not_le.mpr heavy)⟩
  refine ⟨_, outcome, fun heavy => absurd fits (not_le.mpr heavy), fun _ => ?_⟩
  obtain ⟨first, found, completes, worth, bound⟩ :=
    exists_completion drawn balanced full extension.agree
  obtain ⟨second, foundToo, completesToo, worthToo, boundToo⟩ :=
    exists_completion drawn improves.balanced improves.full (extension.agree.trans improves.agree)
  refine ⟨first, _, completes, worth, bound, ?_, ?_⟩
  · have kept : (inst.valueOf (Instance.marked (start inst node).packed) : ℚ) ≤
        inst.valueOf (Instance.marked completed.packed) := by
      exact_mod_cast extension.valueOf_le inst
    rw [valueOf_start drawn, Fraction.toRat_ofNat]
    linarith
  · split_ifs with same
    · exact Or.inl (by simp [found])
    · have gains := improves.gains.resolve_left fun unchanged => same (by rw [unchanged])
      refine Or.inr ⟨second, _, by simp [found, foundToo], completesToo, worthToo, boundToo, ?_⟩
      rw [Fraction.lt_iff_toRat, Fraction.toRat_ofNat, Fraction.toRat_ofNat]
      exact_mod_cast gains

/-- Three items of which the relaxation cuts the second one. -/
def uneven : Instance := ⟨[⟨2, 6⟩, ⟨4, 8⟩, ⟨1, 1⟩], 5⟩

/-- Leaving the item out that is cut is worth 7, and exchanging the first one for it is worth 9. -/
theorem completion_is_maximal_uneven : ∃ node harvest first second,
    (Tree.grow {} .greedy uneven .none (.unassigned 3)).1 = .ok node ∧
      completion 0 uneven node = .ok harvest ∧ harvest.solutions = [first, second] ∧
      second.Completes uneven (.unassigned 3) ∧ first.value = .ok 7 ∧ second.value = .ok 9 := by
  cases created : (Tree.grow {} .greedy uneven .none (.unassigned 3)).1 with
  | error failure =>
    have many := (Tree.draft_error rfl created).1
    exact absurd many (by decide)
  | ok node =>
    obtain ⟨harvest, outcome, -, yields⟩ := completion_is_maximal created 0
    obtain ⟨drawn, drafted⟩ := Tree.drawn_of_draft rfl created
    have selects : node.relaxed.selection = [1, .reduce 3 4 (by decide), 0] := by
      rw [drawn.selects, drafted.fixes]
      cbv
    have ordered : uneven.byDensity (Fixation.unassigned 3).openIndices =
        [Item.atIndex ⟨2, 6⟩ 0, Item.atIndex ⟨4, 8⟩ 1, Item.atIndex ⟨1, 1⟩ 2] := by
      cbv
    have evaluated : completion 0 uneven node = .ok {
        notices := [.completionImproved node.id 1]
        solutions := [⟨uneven, [1, 0, 1], rfl⟩, ⟨uneven, [0, 1, 1], rfl⟩] } := by
      rw [completion, selects, drafted.fixes, ordered]
      rfl
    obtain rfl := Except.ok.inj (outcome.symm.trans evaluated)
    obtain ⟨first, value, -, -, -, -, alone | ⟨second, better, both, completes, -⟩⟩ :=
      yields (by decide)
    · cases alone
    · cases both
      exact ⟨node, _, _, _, rfl, outcome, rfl, completes, by decide +kernel, by decide +kernel⟩

end Heuristic

end Knapsack

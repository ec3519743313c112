import Knapsack.Proofs.Relaxation.Greedy

/-! # The shape of a relaxed solution

The greedy relaxation keeps what is fixed and cuts at most one open item. As long as the fixed items
fit it fills the sack, or packs everything that is not left out. When they do not fit it adds
nothing to them.
-/

namespace Knapsack

/-- The items that a fixation does not leave out. -/
def Fixation.available (fixation : Fixation) : Finset ℕ :=
  (Finset.range fixation.length).filter fun index => fixation.get? index ≠ some (some false)

namespace Relaxation

variable {inst : Instance} {fixation : Fixation}

private theorem keeps_whole_available (fixation : Fixation) :
    fixation.Keeps (Instance.whole fixation.available) := by
  apply Fixation.keeps_whole
  apply Fixation.allows_iff.mpr
  intro index decision fixed
  obtain ⟨bound, -⟩ := List.getElem?_eq_some_iff.mp fixed
  have within : index < fixation.length := bound
  cases decision <;> simp [Fixation.available, fixed, within]

private theorem whole_available_of_open {index : ℕ} (member : index ∈ fixation.openIndices) :
    Instance.whole fixation.available index = 1 := by
  have within := Fixation.lt_length_of_mem_openIndices member
  have undecided := Fixation.mem_openIndices.mp member
  simp [Instance.whole, Fixation.available, within, undecided]

private theorem weightOf_available (covers : fixation.length = inst.size) :
    (inst.weightOf fixation.available : ℚ) = inst.weightOf fixation.packedBy +
      listed inst (·.weight) (inst.byDensity fixation.openIndices) fun _ => 1 := by
  have items : fixation.available ⊆ Finset.range inst.size := by
    rw [← covers]
    exact Finset.filter_subset _ _
  have entire : listed inst (·.weight) (inst.byDensity fixation.openIndices)
      (Instance.whole fixation.available) =
        listed inst (·.weight) (inst.byDensity fixation.openIndices) fun _ => 1 := by
    unfold listed
    congr 1
    apply List.map_congr_left
    intro entry member
    rw [whole_available_of_open (Instance.mem_byDensity member).1]
  rw [← entire, Instance.weightOf, Instance.weightOf, ← Instance.spread_whole _ items]
  exact spread_of_keeps _ covers (keeps_whole_available fixation)

/-- While the fixed items fit, the sack is filled unless everything that is available fits. -/
theorem spread_weight_greedySelection (covers : fixation.length = inst.size)
    (fits : inst.weightOf fixation.packedBy ≤ inst.capacity.toNat) :
    inst.spread (·.weight) (Solution.amountsOf (greedySelection inst fixation)) =
      (min inst.capacity.toNat (inst.weightOf fixation.available) : ℕ) := by
  rw [spread_greedySelection _ covers (fixedWeight_eq covers ▸ fits),
    poured_weight _ (lists_byDensity inst _), fixedWeight_eq covers, Nat.cast_sub fits,
    ← min_add_add_left, Nat.cast_min, weightOf_available covers]
  unfold Instance.weightOf
  rw [add_sub_cancel]

/-- The weight of such a relaxed solution is an integer, and it comes out for any number of items:
what is packed is no heavier than the capacity. -/
theorem weight_eq_of_fits (covers : fixation.length = inst.size)
    (fits : inst.weightOf fixation.packedBy ≤ inst.capacity.toNat) {relaxed : Solution}
    (about : relaxed.inst = inst) (selects : relaxed.selection = greedySelection inst fixation) :
    relaxed.weight =
      .ok (.ofNat (min inst.capacity.toNat (inst.weightOf fixation.available))) := by
  obtain ⟨parts, positive, narrow, parted⟩ := greedySelection_parted inst fixation
  apply Solution.total_eq_ofNat positive narrow fun taken member => parted taken (selects ▸ member)
  · rw [Solution.amounts, about, selects]
    exact spread_weight_greedySelection covers fits
  · have capacity : inst.capacity.toNat < 2 ^ 64 := inst.capacity.toNat_lt
    calc min inst.capacity.toNat (inst.weightOf fixation.available) * parts
        ≤ 2 ^ 64 * 2 ^ 32 := Nat.mul_le_mul (by omega) narrow.le
      _ ≤ Fraction.widthLimit := by rw [Fraction.widthLimit_eq]; omega

private theorem isFeasible_greedy (covers : fixation.length = inst.size) {relaxed : Solution}
    (about : relaxed.inst = inst) (selects : relaxed.selection = greedySelection inst fixation) :
    match relaxed.isFeasible with
      | .ok feasible =>
        (feasible = true ↔ inst.weightOf fixation.packedBy ≤ inst.capacity.toNat)
      | .error _ =>
        inst.capacity.toNat < inst.weightOf fixation.packedBy ∧ 2 ^ 64 ≤ inst.size := by
  cases weighed : relaxed.weight with
  | error fault =>
    have refused : relaxed.isFeasible = .error fault := by
      rw [Solution.isFeasible, weighed]
      rfl
    rw [refused]
    refine ⟨?_, le_size_of_total_error about selects weighed⟩
    by_contra light
    rw [weight_eq_of_fits covers (not_lt.mp light) about selects] at weighed
    cases weighed
  | ok weight =>
    have judged := Solution.isFeasible_eq weighed
    rw [judged]
    exact isFeasible_iff covers about selects judged

private theorem getElem?_greedySelection_of_overweight (covers : fixation.length = inst.size)
    (heavy : inst.capacity.toNat < inst.weightOf fixation.packedBy) {index : ℕ}
    (undecided : fixation.get? index = some none) :
    (greedySelection inst fixation)[index]? = some 0 := by
  have overweight : ¬ fixedWeight inst fixation ≤ inst.capacity.toNat := by
    rw [fixedWeight_eq covers]
    omega
  rw [show greedySelection inst fixation = fixedPart fixation from if_neg overweight,
    getElem?_fixedPart undecided]
  rfl

/-- The greedy relaxation keeps what is fixed, packs between nothing and all of every item, and cuts
at most one item, which is open. It is feasible exactly when the fixed items fit. Then it weighs as
much as the sack carries, or as everything that is not left out if that is less; otherwise it packs
nothing of the open items. Feasibility can be told unless there are more items than a machine word
can count. -/
theorem greedy_fills_sack (covers : fixation.length = inst.size) (call : ℕ) :
    ∃ relaxed, greedy call inst fixation = .ok relaxed ∧ relaxed.inst = inst ∧
      (∀ index decision, fixation.get? index = some (some decision) →
        relaxed.selection[index]? = some (.ofDecision decision)) ∧
      (∀ taken ∈ relaxed.selection, 0 ≤ taken ∧ taken ≤ 1) ∧
      (∀ index ∈ relaxed.fractionalIndices, fixation.get? index = some none ∧
        ∀ other ∈ relaxed.fractionalIndices, other = index) ∧
      (match relaxed.isFeasible with
        | .ok feasible =>
          (feasible = true ↔ inst.weightOf fixation.packedBy ≤ inst.capacity.toNat)
        | .error _ =>
          inst.capacity.toNat < inst.weightOf fixation.packedBy ∧ 2 ^ 64 ≤ inst.size) ∧
      (inst.weightOf fixation.packedBy ≤ inst.capacity.toNat → relaxed.weight =
        .ok (.ofNat (min inst.capacity.toNat (inst.weightOf fixation.available)))) ∧
      (inst.capacity.toNat < inst.weightOf fixation.packedBy →
        ∀ index, fixation.get? index = some none → relaxed.selection[index]? = some 0) := by
  have length := length_greedySelection inst fixation
  refine ⟨_, greedy_eq covers call, rfl, ?_, ?_, ?_, isFeasible_greedy covers rfl rfl,
    fun fits => weight_eq_of_fits covers fits rfl rfl,
    fun heavy index undecided => getElem?_greedySelection_of_overweight covers heavy undecided⟩
  · exact (Fixation.keptBy_iff length).mp (keptBy_greedySelection inst fixation)
  · intro taken member
    obtain ⟨parts, -, -, parted⟩ := greedySelection_parted inst fixation
    refine ⟨?_, (parted taken member).1⟩
    rw [Fraction.le_iff_toRat, Fraction.toRat_zero]
    exact taken.toRat_nonneg
  · intro index cut
    obtain ⟨taken, present, isCut⟩ := Solution.mem_indicesWhere.mp cut
    rw [Bool.not_eq_true'] at isCut
    refine ⟨isOpen_of_cut present isCut, fun other cutToo => ?_⟩
    obtain ⟨_, presentToo, isCutToo⟩ := Solution.mem_indicesWhere.mp cutToo
    rw [Bool.not_eq_true'] at isCutToo
    exact greedySelection_cut_unique inst fixation presentToo present isCutToo isCut

/-- With an item of weight 2 packed and one left out, the last item is cut to fill the sack. -/
theorem greedy_fills_sack_cut : ∃ relaxed,
    greedy 0 ⟨[⟨2, 3⟩, ⟨3, 4⟩, ⟨4, 4⟩], 4⟩ ⟨[some true, some false, none]⟩ = .ok relaxed ∧
      relaxed.weight = .ok 4 ∧ relaxed.selection = [1, 0, .half] := by
  obtain ⟨relaxed, solved, -, -, -, -, -, weight, -⟩ := greedy_fills_sack
    (show Fixation.length ⟨[some true, some false, none]⟩ =
      Instance.size ⟨[⟨2, 3⟩, ⟨3, 4⟩, ⟨4, 4⟩], 4⟩ from rfl) 0
  refine ⟨relaxed, solved, weight (by decide), ?_⟩
  rw [greedy_eq rfl] at solved
  obtain rfl := Except.ok.inj solved
  cbv

end Relaxation

end Knapsack

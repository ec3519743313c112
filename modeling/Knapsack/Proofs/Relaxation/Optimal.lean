import Knapsack.Proofs.Relaxation.Greedy

/-! # The relaxed solution is the best fractional packing

The linear relaxation allows any part of an open item, and what is fixed as it is fixed, as long as
the sack carries it. The greedy relaxation is such a packing and none is worth more, so its value is
the optimum of the relaxation. When no item is cut, it is also the best of the loads that keep the
fixation.
-/

namespace Knapsack.Relaxation

variable {inst : Instance} {fixation : Fixation}

/-- Amounts that the linear relaxation of an instance allows under a fixation. -/
structure Admits (inst : Instance) (fixation : Fixation) (amounts : ℕ → ℚ) : Prop where
  keeps : fixation.Keeps amounts
  bounded : ∀ index < inst.size, 0 ≤ amounts index ∧ amounts index ≤ 1
  fits : inst.spread (·.weight) amounts ≤ inst.capacity.toNat

/-- The values that the linear relaxation can reach. -/
def worths (inst : Instance) (fixation : Fixation) : Set ℚ :=
  {worth | ∃ amounts, Admits inst fixation amounts ∧ inst.spread (·.value) amounts = worth}

/-- The loads that keep a fixation. -/
def completions (inst : Instance) (fixation : Fixation) : Finset (Finset ℕ) :=
  inst.loads.filter fun chosen => fixation.allows chosen = true

/-- A load that keeps the fixation is a fractional packing. -/
theorem admits_whole {chosen : Finset ℕ} (completes : chosen ∈ completions inst fixation) :
    Admits inst fixation (Instance.whole chosen) := by
  obtain ⟨load, allowed⟩ := Finset.mem_filter.mp completes
  obtain ⟨items, fits⟩ := Instance.mem_loads.mp load
  refine ⟨Fixation.keeps_whole allowed, fun index _ => ?_, ?_⟩
  · exact ⟨Instance.whole_nonneg chosen index, Instance.whole_le_one chosen index⟩
  · rw [Instance.spread_whole _ items]
    exact Nat.cast_le.mpr fits

section Relaxed

variable {relaxed : Solution}

/-- A relaxed solution packs between nothing and all of every item. -/
theorem amountsOf_greedySelection_mem (inst : Instance) (fixation : Fixation) (index : ℕ) :
    0 ≤ Solution.amountsOf (greedySelection inst fixation) index ∧
      Solution.amountsOf (greedySelection inst fixation) index ≤ 1 := by
  obtain ⟨parts, -, -, parted⟩ := greedySelection_parted inst fixation
  exact ⟨Fraction.toRat_nonneg _,
    Solution.amountsOf_le_one (fun taken member => (parted taken member).1) index⟩

/-- The relaxed solution is a fractional packing as long as the fixed items fit. -/
theorem admits_greedySelection (covers : fixation.length = inst.size)
    (fits : inst.weightOf fixation.packedBy ≤ inst.capacity.toNat) :
    Admits inst fixation (Solution.amountsOf (greedySelection inst fixation)) where
  keeps := Fixation.keeps_amountsOf (length_greedySelection inst fixation)
    (keptBy_greedySelection inst fixation)
  bounded := fun index _ => amountsOf_greedySelection_mem inst fixation index
  fits := (spread_weight_greedySelection_le covers).mpr fits

/-- The relaxed solution is worth the optimum of the linear relaxation. -/
theorem isGreatest_greedySelection (covers : fixation.length = inst.size)
    (fits : inst.weightOf fixation.packedBy ≤ inst.capacity.toNat) :
    IsGreatest (worths inst fixation)
      (inst.spread (·.value) (Solution.amountsOf (greedySelection inst fixation))) := by
  constructor
  · exact ⟨_, admits_greedySelection covers fits, rfl⟩
  · rintro worth ⟨amounts, admits, rfl⟩
    exact spread_value_le_greedySelection covers admits.keeps admits.bounded admits.fits

/-- The items that a solution packs entirely keep a fixation that its selection keeps. -/
theorem allows_packedSet (covers : relaxed.selection.length = fixation.length)
    (kept : fixation.keptBy relaxed.selection = true) :
    fixation.allows relaxed.packedSet = true := by
  apply Fixation.allows_iff.mpr
  intro index decision fixed
  rw [Solution.mem_packedSet, (Fixation.keptBy_iff covers).mp kept index decision fixed]
  cases decision with
  | false => exact iff_of_false Bool.false_ne_true (by decide)
  | true => exact iff_of_true rfl rfl

/-- An integral solution that is worth the optimum of the linear relaxation packs the best load that
keeps the fixation. -/
theorem packedSet_is_best (single : ∀ taken ∈ relaxed.selection, taken ≤ 1)
    (kept : fixation.keptBy relaxed.selection = true) (covers : fixation.length = relaxed.inst.size)
    (fits : relaxed.inst.spread (·.weight) relaxed.amounts ≤ relaxed.inst.capacity.toNat)
    (optimal : IsGreatest (worths relaxed.inst fixation)
      (relaxed.inst.spread (·.value) relaxed.amounts))
    (integral : relaxed.isIntegral = true) :
    relaxed.packedSet ∈ completions relaxed.inst fixation ∧
      ∀ chosen ∈ completions relaxed.inst fixation,
        relaxed.inst.valueOf chosen ≤ relaxed.inst.valueOf relaxed.packedSet := by
  have light := Solution.spread_amounts_eq_measureOf (·.weight) integral single ▸ fits
  have load : relaxed.packedSet ∈ relaxed.inst.loads :=
    Instance.mem_loads.mpr ⟨relaxed.packedSet_subset, Nat.cast_le.mp light⟩
  refine ⟨Finset.mem_filter.mpr ⟨load, ?_⟩, fun chosen completes => ?_⟩
  · exact allows_packedSet (relaxed.covers.trans covers.symm) kept
  · obtain ⟨items, -⟩ := Instance.mem_loads.mp (Finset.mem_filter.mp completes).1
    have bound := optimal.2 ⟨_, admits_whole completes, rfl⟩
    rw [Instance.spread_whole _ items,
      Solution.spread_amounts_eq_measureOf _ integral single] at bound
    exact Nat.cast_le.mp bound

end Relaxed

/-- The greedy relaxation solves every fixation whose fixed items fit, and its value is the greatest
that any fractional packing can reach. The value comes out unless there are more items than a
machine word can count. A relaxed solution that cuts no item is an optimal completion of the
fixation. -/
theorem greedy_is_optimal (covers : fixation.length = inst.size)
    (fits : inst.weightOf fixation.packedBy ≤ inst.capacity.toNat) (call : ℕ) :
    ∃ relaxed, greedy call inst fixation = .ok relaxed ∧
      IsGreatest (worths inst fixation) (inst.spread (·.value) relaxed.amounts) ∧
        (match relaxed.value with
          | .ok value => IsGreatest (worths inst fixation) value.toRat
          | .error _ => 2 ^ 64 ≤ inst.size) ∧
        (relaxed.isIntegral = true → relaxed.packedSet ∈ completions inst fixation ∧
          ∀ chosen ∈ completions inst fixation,
            inst.valueOf chosen ≤ inst.valueOf relaxed.packedSet) := by
  have optimal := isGreatest_greedySelection covers fits
  have admits := admits_greedySelection covers fits
  refine ⟨_, greedy_eq covers call, optimal, ?_, ?_⟩
  · split
    · rename_i value worth
      rw [(Solution.toRat_total worth).1]
      exact optimal
    · rename_i fault failed
      exact le_size_of_total_error rfl rfl failed
  · obtain ⟨parts, -, -, parted⟩ := greedySelection_parted inst fixation
    exact packedSet_is_best (fun taken member => (parted taken member).1)
      (keptBy_greedySelection inst fixation) covers admits.fits optimal

/-- With an item of weight 2 packed, the room for 2 more takes two thirds of an item of weight 3. -/
theorem greedy_is_optimal_cut :
    IsGreatest (worths ⟨[⟨2, 3⟩, ⟨3, 4⟩, ⟨4, 4⟩], 4⟩ ⟨[some true, none, none]⟩) (17 / 3) := by
  obtain ⟨relaxed, solved, -, worth, -⟩ := greedy_is_optimal
    (show Fixation.length ⟨[some true, none, none]⟩ =
      Instance.size ⟨[⟨2, 3⟩, ⟨3, 4⟩, ⟨4, 4⟩], 4⟩ from rfl) (by decide) 0
  have selects : greedySelection ⟨[⟨2, 3⟩, ⟨3, 4⟩, ⟨4, 4⟩], 4⟩ ⟨[some true, none, none]⟩ =
      [1, .reduce 2 3 (by decide), 0] := by cbv
  have same : relaxed = ⟨⟨[⟨2, 3⟩, ⟨3, 4⟩, ⟨4, 4⟩], 4⟩, [1, .reduce 2 3 (by decide), 0], rfl⟩ := by
    rw [greedy_eq rfl] at solved
    obtain rfl := Except.ok.inj solved
    exact Solution.eq_of_selection rfl selects
  have value : relaxed.value = .ok (.reduce 17 3 (by decide)) := by
    subst same
    decide +kernel
  simp only [value, Fraction.toRat_reduce] at worth
  exact worth

end Knapsack.Relaxation

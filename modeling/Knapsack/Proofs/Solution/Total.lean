import Knapsack.Solution
import Knapsack.Proofs.Fraction.Rational
import Knapsack.Proofs.Instance.Load

/-! # Totals of solutions

The value and the weight of a solution are the exact sums over its items. Over amounts of a common
denominator of 32 bits no partial sum is wider than the total, so a total comes out when it is
narrow enough, and with fewer than `2 ^ 64` items it always is. A solution that is feasible and
integral is a load.
-/

namespace Knapsack.Solution

variable {measure : Item → UInt32}

/-- A solution is known by its instance and its selection. -/
theorem eq_of_selection {a b : Solution} (about : a.inst = b.inst)
    (selects : a.selection = b.selection) : a = b := by
  cases a
  cases b
  cases about
  cases selects
  rfl

/-- How much a selection takes of each item. -/
def amountsOf (selection : List Fraction) (index : ℕ) : ℚ := (selection[index]?.getD 0).toRat

/-- A selection takes at most all of an item when each of its entries does. -/
theorem amountsOf_le_one {selection : List Fraction} (single : ∀ taken ∈ selection, taken ≤ 1)
    (index : ℕ) : amountsOf selection index ≤ 1 := by
  rw [amountsOf, ← Fraction.toRat_one]
  apply Fraction.le_iff_toRat.mp
  cases present : selection[index]? with
  | none => exact show (0 : Fraction) ≤ 1 by decide
  | some taken => exact single taken (List.mem_of_getElem? present)

/-- How much a solution packs of each item. -/
def amounts (solution : Solution) : ℕ → ℚ := amountsOf solution.selection

private theorem toRat_account {sum total : Fraction} {entry : Item × Fraction}
    (accounted : account measure sum entry = .ok total) :
    total.toRat = sum.toRat + entry.2.toRat * (measure entry.1).toNat ∧ total.Representable := by
  simp only [account, bind, Except.bind] at accounted
  split at accounted
  · cases accounted
  · rename_i scaled product
    obtain ⟨exact, representable⟩ := Fraction.toRat_add accounted
    refine ⟨?_, representable⟩
    rw [exact, (Fraction.toRat_mul product).1, Fraction.toRat_ofNat]

private theorem toRat_foldlM_account {entries : List (Item × Fraction)} {start total : Fraction}
    (accounted : entries.foldlM (account measure) start = .ok total)
    (representable : start.Representable) :
    total.toRat = start.toRat +
      (entries.map fun entry => entry.2.toRat * ((measure entry.1).toNat : ℚ)).sum ∧
      total.Representable := by
  induction entries generalizing start with
  | nil =>
    cases accounted
    exact ⟨by simp, representable⟩
  | cons entry rest ih =>
    simp only [List.foldlM_cons, bind, Except.bind] at accounted
    split at accounted
    · cases accounted
    · rename_i next step
      obtain ⟨exact, narrow⟩ := toRat_account step
      obtain ⟨sum, fits⟩ := ih accounted narrow
      refine ⟨?_, fits⟩
      rw [sum, exact, List.map_cons, List.sum_cons, add_assoc]

private theorem sum_zip (items : List Item) (selection : List Fraction)
    (covers : selection.length = items.length) :
    ((items.zip selection).map fun entry => entry.2.toRat * ((measure entry.1).toNat : ℚ)).sum =
      ∑ index ∈ Finset.range items.length, (selection[index]?.getD 0).toRat *
        (((items[index]?.map fun item => (measure item).toNat).getD 0 : ℕ) : ℚ) := by
  induction items generalizing selection with
  | nil => simp
  | cons item items ih =>
    cases selection with
    | nil => simp at covers
    | cons taken selection =>
      simp only [List.length_cons, Nat.add_right_cancel_iff] at covers
      rw [List.zip_cons_cons, List.map_cons, List.sum_cons, ih selection covers,
        List.length_cons, Finset.sum_range_succ', add_comm]
      simp

/-- A total that comes out is the exact sum over the items. -/
theorem toRat_total {solution : Solution} {total : Fraction}
    (outcome : solution.total measure = .ok total) :
    total.toRat = solution.inst.spread measure solution.amounts ∧ total.Representable := by
  obtain ⟨sum, representable⟩ := toRat_foldlM_account outcome ⟨by decide, by decide⟩
  refine ⟨?_, representable⟩
  rw [sum, Fraction.toRat_zero, zero_add, sum_zip _ _ solution.covers]
  rfl

/-- Every amount is a number of equal parts of an item, and at most the whole item. -/
def Parted (solution : Solution) (parts : ℕ) : Prop :=
  ∀ taken ∈ solution.selection, taken ≤ 1 ∧ taken.den ∣ parts

private theorem scale_isOk (measure : Item → UInt32) (item : Item) {taken : Fraction} {parts : ℕ}
    (positive : 0 < parts) (narrow : parts < 2 ^ 32) (parted : taken ≤ 1 ∧ taken.den ∣ parts) :
    ∃ scaled, taken.mul (.ofNat (measure item).toNat) = .ok scaled ∧ scaled.den ∣ parts := by
  obtain ⟨small, divides⟩ := parted
  have mass : (measure item).toNat < 2 ^ 32 := (measure item).toNat_lt
  have denominator : taken.den ≤ parts := Nat.le_of_dvd positive divides
  have numerator : taken.num ≤ taken.den := by
    change taken.num * 1 ≤ 1 * taken.den at small
    omega
  have fits : taken.num * (measure item).toNat ≤ Fraction.widthLimit := by
    calc taken.num * (measure item).toNat ≤ 2 ^ 32 * 2 ^ 32 :=
          Nat.mul_le_mul (by omega) mass.le
      _ ≤ Fraction.widthLimit := by rw [Fraction.widthLimit_eq]; omega
  obtain ⟨scaled, product⟩ :=
    Fraction.mul_ofNat_isOk (by rw [Fraction.widthLimit_eq]; omega) fits
  exact ⟨scaled, product, (Fraction.den_mul_ofNat_dvd product).trans divides⟩

private theorem account_isOk (measure : Item → UInt32) {sum : Fraction} {entry : Item × Fraction}
    {parts : ℕ} (positive : 0 < parts) (narrow : parts < 2 ^ 32) (divides : sum.den ∣ parts)
    (taken : entry.2 ≤ 1 ∧ entry.2.den ∣ parts)
    (fits : (sum.toRat + entry.2.toRat * (measure entry.1).toNat) * parts ≤ Fraction.widthLimit) :
    ∃ total, account measure sum entry = .ok total ∧ total.den ∣ parts := by
  obtain ⟨scaled, product, dividesScaled⟩ := scale_isOk measure entry.1 positive narrow taken
  have wide : parts ≤ Fraction.widthLimit := by rw [Fraction.widthLimit_eq]; omega
  rw [← Fraction.toRat_ofNat, ← (Fraction.toRat_mul product).1] at fits
  obtain ⟨total, added⟩ := Fraction.add_isOk positive wide divides dividesScaled fits
  refine ⟨total, ?_, Fraction.den_add_dvd added divides dividesScaled⟩
  simp only [account, product, bind, Except.bind]
  exact added

private theorem foldlM_account_isOk {entries : List (Item × Fraction)} {start : Fraction}
    {parts : ℕ} (positive : 0 < parts) (narrow : parts < 2 ^ 32) (divides : start.den ∣ parts)
    (taken : ∀ entry ∈ entries, entry.2 ≤ 1 ∧ entry.2.den ∣ parts)
    (fits : (start.toRat +
      (entries.map fun entry => entry.2.toRat * ((measure entry.1).toNat : ℚ)).sum) * parts ≤
        Fraction.widthLimit) :
    ∃ total, entries.foldlM (account measure) start = .ok total ∧ total.den ∣ parts := by
  induction entries generalizing start with
  | nil => exact ⟨start, rfl, divides⟩
  | cons entry rest ih =>
    rw [List.map_cons, List.sum_cons, ← add_assoc] at fits
    have others : 0 ≤
        (rest.map fun entry => entry.2.toRat * ((measure entry.1).toNat : ℚ)).sum := by
      apply List.sum_nonneg
      intro part member
      obtain ⟨other, -, rfl⟩ := List.mem_map.mp member
      exact mul_nonneg other.2.toRat_nonneg (Nat.cast_nonneg _)
    have first : (start.toRat + entry.2.toRat * (measure entry.1).toNat) * parts ≤
        Fraction.widthLimit :=
      (mul_le_mul_of_nonneg_right (by linarith) (Nat.cast_nonneg _)).trans fits
    obtain ⟨next, step, divided⟩ := account_isOk measure positive narrow divides
      (taken entry (List.mem_cons_self ..)) first
    rw [← (toRat_account step).1] at fits
    obtain ⟨total, accounted, final⟩ :=
      ih divided (fun other member => taken other (List.mem_cons_of_mem _ member)) fits
    refine ⟨total, ?_, final⟩
    simp only [List.foldlM_cons, step, bind, Except.bind]
    exact accounted

/-- A total over amounts of a common denominator of 32 bits comes out when it is narrow enough, no
matter how many items there are. -/
theorem total_isOk_of_spread_le {solution : Solution} {parts : ℕ} (positive : 0 < parts)
    (narrow : parts < 2 ^ 32) (parted : solution.Parted parts)
    (fits : solution.inst.spread measure solution.amounts * parts ≤ Fraction.widthLimit) :
    ∃ total, solution.total measure = .ok total ∧ total.den ∣ parts := by
  apply foldlM_account_isOk positive narrow (one_dvd _)
  · intro entry member
    exact parted entry.2 (List.of_mem_zip member).2
  · rw [Fraction.toRat_zero, zero_add, sum_zip _ _ solution.covers]
    exact fits

/-- A total that is an integer comes out as that integer. -/
theorem total_eq_ofNat {solution : Solution} {parts total : ℕ} (positive : 0 < parts)
    (narrow : parts < 2 ^ 32) (parted : solution.Parted parts)
    (sum : solution.inst.spread measure solution.amounts = total)
    (fits : total * parts ≤ Fraction.widthLimit) :
    solution.total measure = .ok (.ofNat total) := by
  have small : solution.inst.spread measure solution.amounts * parts ≤ Fraction.widthLimit := by
    rw [sum]
    exact_mod_cast fits
  obtain ⟨result, outcome, -⟩ := total_isOk_of_spread_le positive narrow parted small
  have value := (toRat_total outcome).1
  rw [sum, ← Fraction.toRat_ofNat, Fraction.toRat_inj] at value
  rw [outcome, value]

private theorem total_fits {size parts : ℕ} (few : size < 2 ^ 64) (narrow : parts < 2 ^ 32) :
    (size * (2 ^ 32 - 1) : ℚ) * parts ≤ Fraction.widthLimit := by
  have product : size * (2 ^ 32 - 1) * parts ≤ (2 ^ 64 - 1) * (2 ^ 32 - 1) * (2 ^ 32 - 1) :=
    Nat.mul_le_mul (Nat.mul_le_mul_right _ (by omega)) (by omega)
  have limit : size * (2 ^ 32 - 1) * parts ≤ Fraction.widthLimit :=
    product.trans (by rw [Fraction.widthLimit_eq]; norm_num)
  calc (size : ℚ) * (2 ^ 32 - 1) * parts = ((size * (2 ^ 32 - 1) * parts : ℕ) : ℚ) := by
        push_cast [Nat.cast_sub (Nat.one_le_two_pow (n := 32))]
        ring
    _ ≤ Fraction.widthLimit := by exact_mod_cast limit

/-- A total over amounts of a common denominator of 32 bits is representable at every step. -/
theorem total_isOk (measure : Item → UInt32) {solution : Solution} {parts : ℕ}
    (few : solution.inst.size < 2 ^ 64) (positive : 0 < parts) (narrow : parts < 2 ^ 32)
    (parted : solution.Parted parts) :
    ∃ total, solution.total measure = .ok total ∧ total.den ∣ parts := by
  apply total_isOk_of_spread_le positive narrow parted
  have bound := solution.inst.spread_le measure fun index _ =>
    amountsOf_le_one (fun taken member => (parted taken member).1) index
  exact (mul_le_mul_of_nonneg_right bound (Nat.cast_nonneg _)).trans (total_fits few narrow)

/-- Feasibility is decided by the weight and by the single amounts. -/
theorem isFeasible_eq {solution : Solution} {weight : Fraction}
    (outcome : solution.weight = .ok weight) :
    solution.isFeasible = .ok (decide (weight ≤ .ofNat solution.inst.capacity.toNat) &&
      solution.selection.all (· ≤ 1)) := by
  simp only [isFeasible, outcome, bind, Except.bind, pure, Except.pure]

/-- A feasible solution keeps to the capacity and packs no item more than once. -/
theorem spread_weight_le_of_isFeasible {solution : Solution}
    (feasible : solution.isFeasible = .ok true) :
    solution.inst.spread (·.weight) solution.amounts ≤ solution.inst.capacity.toNat ∧
      ∀ taken ∈ solution.selection, taken ≤ 1 := by
  cases outcome : solution.weight with
  | error fault => simp [isFeasible, outcome, bind, Except.bind] at feasible
  | ok weight =>
    rw [isFeasible_eq outcome] at feasible
    obtain ⟨light, single⟩ := Bool.and_eq_true_iff.mp (Except.ok.inj feasible)
    refine ⟨?_, fun taken member => of_decide_eq_true (List.all_eq_true.mp single taken member)⟩
    have bound := Fraction.le_iff_toRat.mp (of_decide_eq_true light)
    rwa [Fraction.toRat_ofNat, (toRat_total outcome).1] at bound

theorem mem_indicesWhere {solution : Solution} {condition : Fraction → Bool} {index : ℕ} :
    index ∈ solution.indicesWhere condition ↔
      ∃ taken, solution.selection[index]? = some taken ∧ condition taken = true := by
  simp only [indicesWhere, List.mem_filterMap, Prod.exists, List.mem_zipIdx_iff_getElem?]
  constructor
  · rintro ⟨taken, position, present, kept⟩
    split_ifs at kept with holds
    obtain rfl := Option.some.inj kept
    exact ⟨taken, present, holds⟩
  · rintro ⟨taken, present, holds⟩
    exact ⟨taken, index, present, by rw [if_pos holds]⟩

/-- The items that are packed entirely, as a set. -/
def packedSet (solution : Solution) : Finset ℕ := solution.packedIndices.toFinset

theorem mem_packedSet {solution : Solution} {index : ℕ} :
    index ∈ solution.packedSet ↔ solution.selection[index]? = some 1 := by
  rw [packedSet, List.mem_toFinset, packedIndices, mem_indicesWhere]
  simp

theorem packedSet_subset (solution : Solution) :
    solution.packedSet ⊆ Finset.range solution.inst.size := by
  intro index member
  obtain ⟨bound, -⟩ := List.getElem?_eq_some_iff.mp (mem_packedSet.mp member)
  exact Finset.mem_range.mpr (solution.covers ▸ bound)

/-- What the items that are cut contribute to a measure. -/
def cut (solution : Solution) (measure : Item → UInt32) : ℚ :=
  ∑ index ∈ solution.fractionalIndices.toFinset,
    solution.amounts index * solution.inst.measureAt measure index

theorem cut_nonneg (solution : Solution) (measure : Item → UInt32) : 0 ≤ solution.cut measure :=
  Finset.sum_nonneg fun _ _ => mul_nonneg (Fraction.toRat_nonneg _) (Nat.cast_nonneg _)

theorem fractionalIndices_subset (solution : Solution) :
    solution.fractionalIndices.toFinset ⊆ Finset.range solution.inst.size := by
  intro index member
  obtain ⟨taken, present, -⟩ := mem_indicesWhere.mp (List.mem_toFinset.mp member)
  obtain ⟨bound, -⟩ := List.getElem?_eq_some_iff.mp present
  exact Finset.mem_range.mpr (solution.covers ▸ bound)

/-- A solution that packs no item more than once packs items entirely, cuts them or leaves them
out. -/
theorem amounts_eq {solution : Solution} (single : ∀ taken ∈ solution.selection, taken ≤ 1)
    {index : ℕ} (bound : index < solution.inst.size) :
    solution.amounts index = Instance.whole solution.packedSet index +
      if index ∈ solution.fractionalIndices.toFinset then solution.amounts index else 0 := by
  obtain ⟨taken, present⟩ : ∃ taken, solution.selection[index]? = some taken :=
    ⟨_, List.getElem?_eq_getElem (solution.covers ▸ bound)⟩
  have small := single taken (List.mem_of_getElem? present)
  have cut : index ∈ solution.fractionalIndices.toFinset ↔ taken.isInteger = false := by
    rw [List.mem_toFinset, fractionalIndices, mem_indicesWhere, present]
    simp
  simp only [cut, amounts, amountsOf, Instance.whole, mem_packedSet, present, Option.getD_some,
    Option.some.injEq]
  cases integral : taken.isInteger with
  | false =>
    have notOne : taken ≠ 1 := by
      rintro rfl
      exact absurd integral (by decide)
    simp [notOne]
  | true =>
    rcases Fraction.eq_zero_or_one integral small with rfl | rfl
    · simp [show (0 : Fraction) ≠ 1 by decide]
    · simp

/-- Such a solution measures what its whole items and the items that it cuts measure. -/
theorem spread_amounts_eq {solution : Solution} (measure : Item → UInt32)
    (single : ∀ taken ∈ solution.selection, taken ≤ 1) :
    solution.inst.spread measure solution.amounts =
      solution.inst.measureOf measure solution.packedSet + solution.cut measure := by
  have parts := Instance.spread_congr measure fun index bound => amounts_eq single bound
  rw [parts, ← Instance.spread_whole measure solution.packedSet_subset, Instance.spread,
    Instance.spread, cut, ← Finset.inter_eq_right.mpr solution.fractionalIndices_subset,
    ← Finset.sum_ite_mem, ← Finset.sum_add_distrib]
  apply Finset.sum_congr rfl
  intro index _
  rw [add_mul, Finset.inter_eq_right.mpr solution.fractionalIndices_subset, ite_mul, zero_mul]

theorem fractionalIndices_eq_nil {solution : Solution} (integral : solution.isIntegral = true) :
    solution.fractionalIndices = [] := by
  apply List.eq_nil_iff_forall_not_mem.mpr
  intro index member
  obtain ⟨taken, present, cut⟩ := mem_indicesWhere.mp member
  have isInteger := List.all_eq_true.mp integral taken (List.mem_of_getElem? present)
  simp [isInteger] at cut

/-- An integral solution that packs no item more than once measures what its items measure. -/
theorem spread_amounts_eq_measureOf {solution : Solution} (measure : Item → UInt32)
    (integral : solution.isIntegral = true) (single : ∀ taken ∈ solution.selection, taken ≤ 1) :
    solution.inst.spread measure solution.amounts =
      solution.inst.measureOf measure solution.packedSet := by
  have none : solution.cut measure = 0 := by
    rw [cut, fractionalIndices_eq_nil integral]
    rfl
  rw [spread_amounts_eq measure single, none, add_zero]

/-- A total of such a solution comes out when it fits. -/
theorem total_eq_of_integral {solution : Solution} (measure : Item → UInt32)
    (integral : solution.isIntegral = true) (single : ∀ taken ∈ solution.selection, taken ≤ 1)
    (fits : solution.inst.measureOf measure solution.packedSet ≤ Fraction.widthLimit) :
    solution.total measure = .ok (.ofNat (solution.inst.measureOf measure solution.packedSet)) := by
  have parted : solution.Parted 1 := by
    intro taken member
    have isInteger := List.all_eq_true.mp integral taken member
    refine ⟨single taken member, ?_⟩
    rw [Fraction.isInteger_iff.mp isInteger]
    exact one_dvd _
  exact total_eq_ofNat one_pos (by decide) parted
    (spread_amounts_eq_measureOf measure integral single) (by omega)

/-- The items of a feasible integral solution are a load. -/
theorem packedSet_mem_loads {solution : Solution} (feasible : solution.isFeasible = .ok true)
    (integral : solution.isIntegral = true) : solution.packedSet ∈ solution.inst.loads := by
  obtain ⟨light, single⟩ := spread_weight_le_of_isFeasible feasible
  rw [spread_amounts_eq_measureOf _ integral single] at light
  exact Instance.mem_loads.mpr ⟨solution.packedSet_subset, by exact_mod_cast light⟩

/-- The value of a feasible integral solution is that of its load. -/
theorem toRat_value {solution : Solution} {value : Fraction}
    (feasible : solution.isFeasible = .ok true) (integral : solution.isIntegral = true)
    (outcome : solution.value = .ok value) :
    value.toRat = solution.inst.valueOf solution.packedSet := by
  rw [(toRat_total outcome).1, spread_amounts_eq_measureOf _ integral
    (spread_weight_le_of_isFeasible feasible).2]
  rfl

end Knapsack.Solution

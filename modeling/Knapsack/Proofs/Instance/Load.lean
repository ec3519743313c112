import Knapsack.Instance
import Knapsack.Proofs.Fraction.Rational

/-! # Loads: the sets of items that fit

A load is a set of positions whose items fit in the sack together. The optimum of an instance is the
greatest value of a load, over all of them. Amounts between zero and one generalize loads to what a
relaxation may pack.
-/

namespace Knapsack.Instance

variable (inst : Instance) (measure : Item → UInt32)

/-- A measure of the item at a position, and zero where there is no item. -/
def measureAt (index : ℕ) : ℕ := (inst.items[index]?.map fun item => (measure item).toNat).getD 0

/-- A measure of a set of items: the sum over its members. -/
def measureOf (chosen : Finset ℕ) : ℕ := ∑ index ∈ chosen, inst.measureAt measure index

/-- The weight of a set of items. -/
def weightOf (chosen : Finset ℕ) : ℕ := inst.measureOf (·.weight) chosen

/-- The value of a set of items. -/
def valueOf (chosen : Finset ℕ) : ℕ := inst.measureOf (·.value) chosen

/-- The sets of items that the sack can carry. -/
def loads : Finset (Finset ℕ) :=
  (Finset.range inst.size).powerset.filter fun chosen => inst.weightOf chosen ≤ inst.capacity.toNat

/-- The greatest value of a load. -/
def optimum : ℕ := inst.loads.sup inst.valueOf

variable {inst}

theorem mem_loads {chosen : Finset ℕ} : chosen ∈ inst.loads ↔
    chosen ⊆ Finset.range inst.size ∧ inst.weightOf chosen ≤ inst.capacity.toNat := by
  simp only [loads, Finset.mem_filter, Finset.mem_powerset]

/-- Nothing can always be carried. -/
theorem empty_mem_loads : ∅ ∈ inst.loads := by
  simp [mem_loads, weightOf, measureOf]

theorem valueOf_le_optimum {chosen : Finset ℕ} (load : chosen ∈ inst.loads) :
    inst.valueOf chosen ≤ inst.optimum := Finset.le_sup (f := inst.valueOf) load

/-- Some load has the greatest value. -/
theorem exists_optimal_load : ∃ chosen ∈ inst.loads, inst.valueOf chosen = inst.optimum := by
  obtain ⟨chosen, load, same⟩ :=
    Finset.exists_mem_eq_sup inst.loads ⟨∅, empty_mem_loads⟩ inst.valueOf
  exact ⟨chosen, load, same.symm⟩

theorem measureAt_eq {index : ℕ} {item : Item} (present : inst.items[index]? = some item) :
    inst.measureAt measure index = (measure item).toNat := by
  simp [measureAt, present]

/-- Weights and values have 32 bits. -/
theorem measureAt_lt (index : ℕ) : inst.measureAt measure index < 2 ^ 32 := by
  unfold measureAt
  cases inst.items[index]? with
  | none => simp
  | some item => exact (measure item).toNat_lt

/-- A set of items measures less than 32 bits for each item. -/
theorem measureOf_le {chosen : Finset ℕ} (items : chosen ⊆ Finset.range inst.size) :
    inst.measureOf measure chosen ≤ inst.size * 2 ^ 32 := by
  have count : chosen.card ≤ inst.size := by
    simpa only [Finset.card_range] using Finset.card_le_card items
  calc inst.measureOf measure chosen ≤ chosen.card * 2 ^ 32 :=
        Finset.sum_le_card_nsmul _ _ _ fun index _ => (inst.measureAt_lt measure index).le
    _ ≤ inst.size * 2 ^ 32 := Nat.mul_le_mul_right _ count

variable (inst)

/-- A measure of the given amounts of all items. -/
def spread (amounts : ℕ → ℚ) : ℚ :=
  ∑ index ∈ Finset.range inst.size, amounts index * inst.measureAt measure index

/-- All of the chosen items, and nothing of the others. -/
def whole (chosen : Finset ℕ) (index : ℕ) : ℚ := if index ∈ chosen then 1 else 0

variable {inst}

theorem spread_congr {amounts amounts' : ℕ → ℚ}
    (same : ∀ index < inst.size, amounts index = amounts' index) :
    inst.spread measure amounts = inst.spread measure amounts' := by
  apply Finset.sum_congr rfl
  intro index member
  rw [same index (Finset.mem_range.mp member)]

/-- A set of items measures what its full amounts measure. -/
theorem spread_whole {chosen : Finset ℕ} (items : chosen ⊆ Finset.range inst.size) :
    inst.spread measure (whole chosen) = inst.measureOf measure chosen := by
  simp only [spread, whole, measureOf, ite_mul, one_mul, zero_mul, Nat.cast_sum]
  rw [Finset.sum_ite_mem, Finset.inter_eq_right.mpr items]

theorem whole_nonneg (chosen : Finset ℕ) (index : ℕ) : 0 ≤ whole chosen index := by
  unfold whole
  split_ifs <;> norm_num

theorem whole_le_one (chosen : Finset ℕ) (index : ℕ) : whole chosen index ≤ 1 := by
  unfold whole
  split_ifs <;> norm_num

/-- Amounts of at most one measure less than 32 bits for each item. -/
theorem spread_le {amounts : ℕ → ℚ} (small : ∀ index < inst.size, amounts index ≤ 1) :
    inst.spread measure amounts ≤ inst.size * (2 ^ 32 - 1) := by
  have each : ∀ index ∈ Finset.range inst.size,
      amounts index * inst.measureAt measure index ≤ (2 ^ 32 - 1 : ℚ) := by
    intro index member
    have bound : (inst.measureAt measure index : ℚ) + 1 ≤ 2 ^ 32 := by
      exact_mod_cast inst.measureAt_lt measure index
    calc amounts index * inst.measureAt measure index
        ≤ 1 * inst.measureAt measure index :=
          mul_le_mul_of_nonneg_right (small index (Finset.mem_range.mp member)) (Nat.cast_nonneg _)
      _ ≤ 2 ^ 32 - 1 := by linarith
  have bound := Finset.sum_le_card_nsmul _ _ _ each
  rw [Finset.card_range, nsmul_eq_mul] at bound
  exact bound

/-- The positions that are marked. -/
def marked (marks : List Bool) : Finset ℕ :=
  (Finset.range marks.length).filter fun index => marks[index]? = some true

theorem mem_marked {marks : List Bool} {index : ℕ} :
    index ∈ marked marks ↔ marks[index]? = some true := by
  simp only [marked, Finset.mem_filter, Finset.mem_range, and_iff_right_iff_imp]
  exact fun present => (List.getElem?_eq_some_iff.mp present).1

theorem marked_subset {marks : List Bool} (covers : marks.length = inst.size) :
    marked marks ⊆ Finset.range inst.size := by
  rw [← covers]
  exact Finset.filter_subset _ _

private theorem foldl_marked (items : List Item) (marks : List Bool)
    (covers : marks.length = items.length) (start : ℕ) :
    (items.zip marks).foldl (fun weight (item, marked) =>
      if marked then weight + item.weight.toNat else weight) start =
      start + ∑ index ∈ Finset.range items.length, if marks[index]? = some true then
        (items[index]?.map fun item => item.weight.toNat).getD 0 else 0 := by
  induction items generalizing marks start with
  | nil => simp
  | cons item items ih =>
    cases marks with
    | nil => simp at covers
    | cons mark marks =>
      simp only [List.length_cons, Nat.add_right_cancel_iff] at covers
      rw [List.zip_cons_cons, List.foldl_cons, ih marks covers, List.length_cons,
        Finset.sum_range_succ']
      cases mark <;> simp [Nat.add_comm, Nat.add_assoc]

/-- The marked weight is the weight of the marked items. -/
theorem markedWeight_eq {marks : List Bool} (covers : marks.length = inst.size) :
    inst.markedWeight marks = inst.weightOf (marked marks) := by
  rw [markedWeight, foldl_marked _ _ covers, Nat.zero_add, weightOf, measureOf, marked,
    Finset.sum_filter, covers]
  rfl

/-- The marked weight fits in 128 bits unless there are too many items. -/
theorem markedWeight_le_widthLimit (few : inst.size < 2 ^ 64) {marks : List Bool}
    (covers : marks.length = inst.size) : inst.markedWeight marks ≤ Fraction.widthLimit := by
  have bound := measureOf_le (·.weight) (marked_subset covers)
  rw [markedWeight_eq covers, weightOf, Fraction.widthLimit_eq]
  omega

theorem marked_set_true {marks : List Bool} {index : ℕ} (bound : index < marks.length) :
    marked (marks.set index true) = insert index (marked marks) := by
  ext position
  rw [mem_marked, Finset.mem_insert, mem_marked]
  by_cases same : index = position
  · subst same
    simp [List.getElem?_set_self bound]
  · simp [List.getElem?_set_ne same, Ne.symm same]

theorem marked_set_false {marks : List Bool} (index : ℕ) :
    marked (marks.set index false) = (marked marks).erase index := by
  ext position
  rw [mem_marked, Finset.mem_erase, mem_marked]
  by_cases same : index = position
  · subst same
    simp [List.getElem?_set]
  · simp [List.getElem?_set_ne same, Ne.symm same]

end Knapsack.Instance

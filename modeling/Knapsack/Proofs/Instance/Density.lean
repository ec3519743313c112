import Mathlib
import Knapsack.Instance
import Knapsack.Proofs.Fraction.Rational

/-! # The order by density

Positions come by decreasing density and then by increasing position, which is a total order. All
positions of items can be ordered, and those that are listed keep their items. Of two listed items
the first has at least the value per weight of the second. The last statement is a
cross-multiplication, so it also covers items without weight.
-/

namespace Knapsack

namespace Density

/-- A density as a number, with infinity on top. -/
def toExtended : Density → WithTop ℚ
  | .finite ratio => ratio.toRat
  | .infinite => ⊤

theorem compare_eq_extended (a b : Density) :
    Ord.compare a b = Ord.compare a.toExtended b.toExtended := by
  cases a with
  | finite a =>
    cases b with
    | finite b =>
      change Ord.compare a b = Ord.compare (a.toRat : WithTop ℚ) (b.toRat : WithTop ℚ)
      rw [Fraction.compare_eq_toRat]
      rcases lt_trichotomy a.toRat b.toRat with less | same | greater
      · rw [compare_lt_iff_lt.mpr less, compare_lt_iff_lt.mpr (WithTop.coe_lt_coe.mpr less)]
      · rw [same, compare_eq_iff_eq.mpr rfl, compare_eq_iff_eq.mpr rfl]
      · rw [compare_gt_iff_gt.mpr greater, compare_gt_iff_gt.mpr (WithTop.coe_lt_coe.mpr greater)]
    | infinite => exact (compare_lt_iff_lt.mpr (WithTop.coe_lt_top a.toRat)).symm
  | infinite =>
    cases b with
    | finite b => exact (compare_gt_iff_gt.mpr (WithTop.coe_lt_top b.toRat)).symm
    | infinite => exact (compare_eq_iff_eq.mpr rfl).symm

end Density

namespace IndexedItem

theorem precedes_iff {a b : IndexedItem} : a.precedes b = true ↔
    b.density.toExtended < a.density.toExtended ∨
      (a.density.toExtended = b.density.toExtended ∧ a.index ≤ b.index) := by
  unfold precedes
  rw [Density.compare_eq_extended]
  rcases lt_trichotomy a.density.toExtended b.density.toExtended with less | same | greater
  · simp [compare_lt_iff_lt.mpr less, less.not_gt, less.ne]
  · simp [same]
  · simp [compare_gt_iff_gt.mpr greater, greater]

theorem precedes_trans (a b c : IndexedItem) (first : a.precedes b = true)
    (second : b.precedes c = true) : a.precedes c = true := by
  rw [precedes_iff] at *
  rcases first with denser | ⟨same, before⟩
  · rcases second with denser' | ⟨same', -⟩
    · exact Or.inl (denser'.trans denser)
    · exact Or.inl (same' ▸ denser)
  · rcases second with denser' | ⟨same', before'⟩
    · exact Or.inl (same ▸ denser')
    · exact Or.inr ⟨same.trans same', before.trans before'⟩

theorem precedes_total (a b : IndexedItem) : (a.precedes b || b.precedes a) = true := by
  rw [Bool.or_eq_true, precedes_iff, precedes_iff]
  rcases lt_trichotomy a.density.toExtended b.density.toExtended with less | same | greater
  · exact Or.inr (Or.inl less)
  · exact (Nat.le_total a.index b.index).imp (fun before => Or.inr ⟨same, before⟩)
      (fun before => Or.inr ⟨same.symm, before⟩)
  · exact Or.inl (Or.inl greater)

/-- An item that comes first has at least the value per weight of a later one. -/
theorem value_mul_weight_le {a b : IndexedItem} (ordered : a.precedes b = true) :
    b.item.value.toNat * a.item.weight.toNat ≤ a.item.value.toNat * b.item.weight.toNat := by
  have denser : b.density.toExtended ≤ a.density.toExtended :=
    (precedes_iff.mp ordered).elim le_of_lt fun same => same.1.ge
  rw [a.density_eq, b.density_eq] at denser
  unfold Item.density at denser
  split_ifs at denser with free free' free'
  · simp [free']
  · exact absurd denser (not_le_of_gt (WithTop.coe_lt_top _))
  · simp [free']
  · have ratios : (b.item.value.toNat : ℚ) / b.item.weight.toNat ≤
        (a.item.value.toNat : ℚ) / a.item.weight.toNat := by
      simpa [Density.toExtended] using denser
    rw [div_le_div_iff₀ (by positivity) (by positivity)] at ratios
    exact_mod_cast ratios

end IndexedItem

namespace Instance

variable {inst : Instance} {indices : List ℕ}

theorem mem_indexed {entry : IndexedItem} (member : entry ∈ inst.indexed indices) :
    entry.index ∈ indices ∧ inst.items[entry.index]? = some entry.item := by
  obtain ⟨index, listed, found⟩ := List.mem_filterMap.mp member
  obtain ⟨item, present, rfl⟩ := Option.map_eq_some_iff.mp found
  exact ⟨listed, present⟩

theorem valid_iff : inst.valid indices = true ↔ ∀ index ∈ indices, index < inst.size := by
  simp only [Instance.valid, List.all_eq_true, decide_eq_true_eq]

/-- Looking items up keeps their positions. -/
theorem map_index_indexed (valid : ∀ index ∈ indices, index < inst.size) :
    (inst.indexed indices).map (·.index) = indices := by
  induction indices with
  | nil => rfl
  | cons index rest ih =>
    obtain ⟨item, present⟩ : ∃ item, inst.items[index]? = some item :=
      ⟨_, List.getElem?_eq_getElem (valid index (List.mem_cons_self ..))⟩
    have others := ih fun other member => valid other (List.mem_cons_of_mem _ member)
    simp only [indexed, List.filterMap_cons, present, Option.map_some, List.map_cons] at others ⊢
    rw [others]
    rfl

theorem mem_byDensity {entry : IndexedItem} (member : entry ∈ inst.byDensity indices) :
    entry.index ∈ indices ∧ inst.items[entry.index]? = some entry.item :=
  mem_indexed (List.mem_mergeSort.mp member)

theorem map_index_byDensity_perm (valid : ∀ index ∈ indices, index < inst.size) :
    ((inst.byDensity indices).map (·.index)).Perm indices := by
  have perm := (List.mergeSort_perm (inst.indexed indices) IndexedItem.precedes).map (·.index)
  rwa [map_index_indexed valid] at perm

/-- Positions of items can be ordered by density, also when there are too few to be compared. -/
theorem densityOrder?_eq (valid : ∀ index ∈ indices, index < inst.size) :
    inst.densityOrder? indices = some ((inst.byDensity indices).map (·.index)) := by
  have perm := map_index_byDensity_perm valid
  simp only [densityOrder?, valid_iff.mpr valid, if_true]
  split_ifs with few
  · rcases indices with _ | ⟨index, _ | ⟨other, rest⟩⟩
    · rw [List.perm_nil.mp perm]
    · rw [List.perm_singleton.mp perm]
    · simp at few
  · rfl

theorem byDensity_ordered (inst : Instance) (indices : List ℕ) :
    (inst.byDensity indices).Pairwise fun a b => a.precedes b = true :=
  List.pairwise_mergeSort IndexedItem.precedes_trans IndexedItem.precedes_total _

/-- Items are listed by decreasing value per weight. -/
theorem byDensity_pairwise (inst : Instance) (indices : List ℕ) :
    (inst.byDensity indices).Pairwise fun a b =>
      b.item.value.toNat * a.item.weight.toNat ≤ a.item.value.toNat * b.item.weight.toNat :=
  (byDensity_ordered inst indices).imp IndexedItem.value_mul_weight_le

end Instance

end Knapsack

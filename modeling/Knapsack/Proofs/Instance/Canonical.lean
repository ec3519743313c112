import Knapsack.Proofs.Fixation.Split
import Knapsack.Proofs.Instance.Density
import Knapsack.Proofs.Instance.Load

/-! # The order by density is canonical

Of two positions the one of greater value per weight comes first, and of equal ones the smaller
position. On positions this order is antisymmetric, so a list of them has only one ordered
rearrangement, and ordering by density yields it. That rearrangement does not depend on how the
positions are listed, and leaving some of them out leaves the others in their order.
-/

namespace Knapsack.Instance

variable {inst : Instance} {indices order : List ℕ} {first second : ℕ}

/-- The value per weight of the item at a position. An item that weighs nothing exceeds all numbers,
whatever it is worth. -/
def ratioAt (inst : Instance) (index : ℕ) : WithTop ℚ :=
  if inst.measureAt (·.weight) index = 0 then ⊤
  else ((inst.measureAt (·.value) index / inst.measureAt (·.weight) index : ℚ) : WithTop ℚ)

/-- The item at the first position is denser, or both are equally dense and the first position is
not after the second. -/
def ComesFirst (inst : Instance) (first second : ℕ) : Prop :=
  inst.ratioAt second < inst.ratioAt first ∨
    inst.ratioAt first = inst.ratioAt second ∧ first ≤ second

/-- The open items in the order in which the greedy relaxation and the greedy completion go through
them. -/
def greedyOrder (inst : Instance) (fixation : Fixation) : List ℕ :=
  (inst.byDensity fixation.openIndices).map (·.index)

theorem toExtended_density {index : ℕ} {item : Item} (present : inst.items[index]? = some item) :
    item.density.toExtended = inst.ratioAt index := by
  rw [ratioAt, inst.measureAt_eq (·.weight) present, inst.measureAt_eq (·.value) present,
    Item.density]
  split_ifs with free
  · rfl
  · exact congrArg _ (Fraction.toRat_reduce _ _ free)

/-- Entries are compared as their positions are. -/
theorem precedes_iff_comesFirst {a b : IndexedItem} (present : inst.items[a.index]? = some a.item)
    (presentToo : inst.items[b.index]? = some b.item) :
    a.precedes b = true ↔ inst.ComesFirst a.index b.index := by
  rw [IndexedItem.precedes_iff, a.density_eq, b.density_eq, toExtended_density present,
    toExtended_density presentToo]
  rfl

/-- No two positions come before each other. -/
theorem ComesFirst.antisymm (forth : inst.ComesFirst first second)
    (back : inst.ComesFirst second first) : first = second := by
  rcases forth with denser | ⟨same, before⟩
  · rcases back with denser' | ⟨same', -⟩
    · exact absurd denser denser'.asymm
    · exact absurd same' denser.ne
  · rcases back with denser' | ⟨-, before'⟩
    · exact absurd same denser'.ne
    · exact before.antisymm before'

/-- An ordered list is determined by what it lists, and how often. -/
theorem eq_of_perm_of_comesFirst {order' : List ℕ} (ordered : order.Pairwise inst.ComesFirst)
    (ordered' : order'.Pairwise inst.ComesFirst) (perm : order.Perm order') : order = order' :=
  List.Perm.eq_of_pairwise (fun _ _ _ _ forth back => forth.antisymm back) ordered ordered' perm

/-- The named items come in the order of their positions. -/
theorem map_index_byDensity_pairwise (inst : Instance) (indices : List ℕ) :
    ((inst.byDensity indices).map (·.index)).Pairwise inst.ComesFirst := by
  apply List.pairwise_map.mpr
  apply (byDensity_ordered inst indices).imp_of_mem
  intro a b listed listedToo ordered
  exact (precedes_iff_comesFirst (mem_byDensity listed).2 (mem_byDensity listedToo).2).mp ordered

/-- The order by density is the only ordered rearrangement. -/
theorem densityOrder?_eq_some_iff (valid : ∀ index ∈ indices, index < inst.size) :
    inst.densityOrder? indices = some order ↔
      order.Perm indices ∧ order.Pairwise inst.ComesFirst := by
  have perm := map_index_byDensity_perm valid
  have ordered := map_index_byDensity_pairwise inst indices
  rw [densityOrder?_eq valid, Option.some.injEq]
  constructor
  · rintro rfl
    exact ⟨perm, ordered⟩
  · rintro ⟨perm', ordered'⟩
    exact eq_of_perm_of_comesFirst ordered ordered' (perm.trans perm'.symm)

/-- Positions that are left out are dropped from the order. -/
theorem densityOrder?_eq_diff (valid : ∀ index ∈ indices, index < inst.size)
    (ordering : inst.densityOrder? indices = some order) {part others : List ℕ}
    (parted : (part ++ others).Perm indices) :
    inst.densityOrder? part = some (order.diff others) := by
  obtain ⟨perm, ordered⟩ := (densityOrder?_eq_some_iff valid).mp ordering
  have validPart : ∀ index ∈ part, index < inst.size := fun index listed =>
    valid index (parted.subset (List.mem_append_left _ listed))
  have rest : ((part ++ others).diff others).Perm part := by
    rw [← Multiset.coe_eq_coe, ← Multiset.coe_sub, ← Multiset.coe_add, add_tsub_cancel_right]
  refine (densityOrder?_eq_some_iff validPart).mpr ⟨?_, ordered.sublist (List.diff_sublist _ _)⟩
  exact ((perm.trans parted.symm).diff_right others).trans rest

/-- Greedy procedures take the items that are open under both of two fixations in one order. -/
theorem filter_greedyOrder {fixation other : Fixation}
    (valid : ∀ index ∈ fixation.openIndices, index < inst.size)
    (validToo : ∀ index ∈ other.openIndices, index < inst.size) :
    (inst.greedyOrder fixation).filter (· ∈ other.openIndices) =
      (inst.greedyOrder other).filter (· ∈ fixation.openIndices) := by
  have common : (fixation.openIndices.filter (· ∈ other.openIndices)).Perm
      (other.openIndices.filter (· ∈ fixation.openIndices)) := by
    apply (List.perm_ext_iff_of_nodup (fixation.nodup_openIndices.filter _)
      (other.nodup_openIndices.filter _)).mpr
    intro index
    simp only [List.mem_filter, decide_eq_true_eq]
    exact and_comm
  have listed := (map_index_byDensity_perm valid).filter (· ∈ other.openIndices)
  have listedToo := (map_index_byDensity_perm validToo).filter (· ∈ fixation.openIndices)
  apply eq_of_perm_of_comesFirst
  · exact (map_index_byDensity_pairwise inst _).filter _
  · exact (map_index_byDensity_pairwise inst _).filter _
  · exact (listed.trans common).trans listedToo.symm

/-- Positions of items can be ordered by density. The outcome lists them as often as they are given,
the denser ones first and equally dense ones by increasing position. It is the same in whatever
order they are given, and for a part of them it is what is left when the others are dropped. Hence
the items that are open under two fixations are taken by greedy procedures in one order. -/
theorem density_order_is_canonical (valid : ∀ index ∈ indices, index < inst.size) :
    (∃ order, inst.densityOrder? indices = some order ∧ order.Perm indices ∧
      order.Pairwise inst.ComesFirst ∧
      (∀ again, again.Perm indices → inst.densityOrder? again = some order) ∧
      ∀ part others, (part ++ others).Perm indices → ∃ kept,
        inst.densityOrder? part = some kept ∧ kept.Sublist order ∧ kept = order.diff others) ∧
    ∀ fixation other : Fixation, (∀ index ∈ fixation.openIndices, index < inst.size) →
      (∀ index ∈ other.openIndices, index < inst.size) →
        inst.densityOrder? fixation.openIndices = some (inst.greedyOrder fixation) ∧
        (inst.greedyOrder fixation).filter (· ∈ other.openIndices) =
          (inst.greedyOrder other).filter (· ∈ fixation.openIndices) := by
  have ordering := densityOrder?_eq valid
  obtain ⟨perm, ordered⟩ := (densityOrder?_eq_some_iff valid).mp ordering
  refine ⟨⟨_, ordering, perm, ordered, fun again same => ?_, fun part others parted => ?_⟩, ?_⟩
  · have validAgain : ∀ index ∈ again, index < inst.size := fun index listed =>
      valid index (same.subset listed)
    exact (densityOrder?_eq_some_iff validAgain).mpr ⟨perm.trans same.symm, ordered⟩
  · exact ⟨_, densityOrder?_eq_diff valid ordering parted, List.diff_sublist _ _, rfl⟩
  · intro fixation other validOpen validOther
    exact ⟨densityOrder?_eq validOpen, filter_greedyOrder validOpen validOther⟩

/-- Items of equal and of infinite densities, of which the first and the second are equally dense
and the third and the last weigh nothing. -/
def mixed : Instance := ⟨[⟨2, 2⟩, ⟨3, 3⟩, ⟨0, 0⟩, ⟨1, 5⟩, ⟨0, 1⟩], 10⟩

/-- Equally dense items come by increasing position, and a position that is given twice is listed
twice. With the first item packed, the others keep the order that they have without it. -/
theorem density_order_is_canonical_mixed :
    mixed.densityOrder? [1, 3, 2, 0, 4, 1] = some [2, 4, 3, 0, 1, 1] ∧
      [2, 4, 3, 0, 1, 1].Pairwise mixed.ComesFirst ∧
      mixed.densityOrder? [1, 0, 3] = some [3, 0, 1] ∧
      (mixed.greedyOrder ⟨[some true, none, none, none, none]⟩).filter (· ∈ [0, 1, 3]) =
        (mixed.greedyOrder ⟨[none, none, some false, none, some false]⟩).filter
          (· ∈ [1, 2, 3, 4]) := by
  have valid : ∀ index ∈ [1, 3, 2, 0, 4, 1], index < mixed.size := by decide
  obtain ⟨⟨order, ordering, -, ordered, -, parts⟩, agree⟩ := density_order_is_canonical valid
  have evaluated : mixed.densityOrder? [1, 3, 2, 0, 4, 1] = some [2, 4, 3, 0, 1, 1] := by cbv
  obtain rfl := Option.some.inj (ordering.symm.trans evaluated)
  obtain ⟨kept, partly, -, rfl⟩ := parts [1, 0, 3] [2, 4, 1] (by decide)
  exact ⟨evaluated, ordered, partly, (agree ⟨[some true, none, none, none, none]⟩
    ⟨[none, none, some false, none, some false]⟩ (by decide) (by decide)).2⟩

end Knapsack.Instance

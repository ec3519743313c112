import Knapsack.Heuristic.Completion
import Knapsack.Proofs.Outcome
import Knapsack.Proofs.Relaxation.Pour

/-! # Local search on packings

The room of a packing is what its items leave of the capacity. Packing whatever fits and exchanging
two items keep that balance, so no subtraction in between can underflow, and neither touches an item
that is not free. Filling leaves no free item out that would fit. An exchange gains value, and so
does every round of local search, whatever is packed after the exchange.
-/

namespace Knapsack.Packing

variable {inst : Instance} {packing before after : Packing} {entry : IndexedItem}
  {free : List IndexedItem} {swap : Packing.Swap}

/-- A packing of the items of an instance whose room is what they leave of the capacity. -/
structure Balanced (inst : Instance) (packing : Packing) : Prop where
  covers : packing.packed.length = inst.size
  balance : inst.weightOf (Instance.marked packing.packed) + packing.room = inst.capacity.toNat

/-- A packing and an entry at its position in the instance. -/
theorem Balanced.index_lt (balanced : packing.Balanced inst)
    (listed : inst.items[entry.index]? = some entry.item) :
    entry.index < packing.packed.length := by
  obtain ⟨bound, -⟩ := List.getElem?_eq_some_iff.mp listed
  exact lt_of_lt_of_eq bound balanced.covers.symm

theorem mark_eq (balanced : packing.Balanced inst)
    (listed : inst.items[entry.index]? = some entry.item) :
    packing.mark entry = .ok (decide (entry.index ∈ Instance.marked packing.packed)) := by
  have present := List.getElem?_eq_getElem (balanced.index_lt listed)
  simp only [mark, present, Instance.mem_marked, Option.some.injEq, Bool.decide_eq_true]

/-- The positions of some entries. -/
def positions (free : List IndexedItem) : Finset ℕ := (free.map (·.index)).toFinset

theorem mem_positions {index : ℕ} :
    index ∈ positions free ↔ ∃ entry ∈ free, entry.index = index := by
  simp [positions]

/-- Two packings that differ in free items only. -/
def Agree (free : List IndexedItem) (before after : Packing) : Prop :=
  ∀ index ∉ positions free,
    index ∈ Instance.marked after.packed ↔ index ∈ Instance.marked before.packed

theorem Agree.trans {last : Packing} (first : Agree free before after)
    (second : Agree free after last) : Agree free before last :=
  fun index fixed => (second index fixed).trans (first index fixed)

section Fill

/-- An item that fits and is not packed yet takes its weight off the room. -/
theorem packIfFits_eq (balanced : packing.Balanced inst)
    (listed : inst.items[entry.index]? = some entry.item) :
    packing.packIfFits entry = .ok
      (if entry.index ∉ Instance.marked packing.packed ∧
          entry.item.weight.toNat ≤ packing.room then
        ⟨packing.packed.set entry.index true, packing.room - entry.item.weight.toNat⟩
      else packing) := by
  simp only [packIfFits, mark_eq balanced listed, bind, Except.bind, pure, Except.pure,
    Bool.and_eq_true, Bool.not_eq_true', decide_eq_false_iff_not, decide_eq_true_eq]
  split_ifs with packs
  · simp only [pack, difference, if_pos packs.2, bind, Except.bind, pure, Except.pure]
  · rfl

private theorem Balanced.pack (balanced : packing.Balanced inst)
    (listed : inst.items[entry.index]? = some entry.item)
    (absent : entry.index ∉ Instance.marked packing.packed)
    (fits : entry.item.weight.toNat ≤ packing.room) :
    Balanced inst
      ⟨packing.packed.set entry.index true, packing.room - entry.item.weight.toNat⟩ where
  covers := List.length_set.trans balanced.covers
  balance := by
    have balance := balanced.balance
    rw [Instance.marked_set_true (balanced.index_lt listed), Instance.weightOf, Instance.measureOf,
      Finset.sum_insert absent, inst.measureAt_eq (·.weight) listed]
    rw [Instance.weightOf, Instance.measureOf] at balance
    dsimp only
    omega

/-- A packing to which some free items were added. -/
structure Extends (free : List IndexedItem) (before after : Packing) : Prop where
  grows : Instance.marked before.packed ⊆ Instance.marked after.packed
  added : Instance.marked after.packed ⊆ Instance.marked before.packed ∪ positions free

theorem Extends.agree (extension : Extends free before after) : Agree free before after := by
  intro index fixed
  constructor
  · intro member
    exact (Finset.mem_union.mp (extension.added member)).resolve_right fixed
  · exact fun member => extension.grows member

/-- The more is packed, the less room is left. -/
theorem Extends.room_le (extension : Extends free before after) (balanced : before.Balanced inst)
    (balancedAfter : after.Balanced inst) : after.room ≤ before.room := by
  have heavier := Finset.sum_le_sum_of_subset (f := inst.measureAt (·.weight)) extension.grows
  have balance := balanced.balance
  have balanceAfter := balancedAfter.balance
  rw [Instance.weightOf, Instance.measureOf] at balance balanceAfter
  omega

theorem Extends.valueOf_le (extension : Extends free before after) (inst : Instance) :
    inst.valueOf (Instance.marked before.packed) ≤ inst.valueOf (Instance.marked after.packed) :=
  Finset.sum_le_sum_of_subset extension.grows

/-- No free item that is left out fits. -/
def Full (free : List IndexedItem) (packing : Packing) : Prop :=
  ∀ entry ∈ free, entry.index ∉ Instance.marked packing.packed →
    packing.room < entry.item.weight.toNat

private theorem exists_packIfFits (balanced : packing.Balanced inst)
    (listed : inst.items[entry.index]? = some entry.item) :
    ∃ next, packing.packIfFits entry = .ok next ∧ next.Balanced inst ∧
      Extends [entry] packing next ∧ Full [entry] next := by
  refine ⟨_, packIfFits_eq balanced listed, ?_⟩
  split_ifs with packs
  · have marks := Instance.marked_set_true (balanced.index_lt listed)
    refine ⟨balanced.pack listed packs.1 packs.2, ⟨?_, ?_⟩, ?_⟩
    · rw [marks]
      exact Finset.subset_insert _ _
    · rw [marks]
      intro index member
      simpa [positions, or_comm] using member
    · simp [Full, marks]
  · refine ⟨balanced, ⟨Finset.Subset.refl _, Finset.subset_union_left⟩, ?_⟩
    simpa [Full] using packs

/-- Filling a packing adds free items until no more of them fit. -/
theorem fill_isOk (balanced : packing.Balanced inst) (lists : Relaxation.Lists inst free) :
    ∃ after, packing.fill free = .ok after ∧ after.Balanced inst ∧ Extends free packing after ∧
      Full free after := by
  induction free generalizing packing with
  | nil =>
    refine ⟨packing, rfl, balanced, ⟨Finset.Subset.refl _, Finset.subset_union_left⟩, ?_⟩
    simp [Full]
  | cons entry rest ih =>
    obtain ⟨next, step, balancedNext, first, tried⟩ :=
      exists_packIfFits balanced (lists entry (List.mem_cons_self ..))
    obtain ⟨after, filled, balancedAfter, others, full⟩ := ih balancedNext lists.tail
    refine ⟨after, ?_, balancedAfter, ⟨first.grows.trans others.grows, ?_⟩, ?_⟩
    · simp only [fill, List.foldlM_cons, step, bind, Except.bind]
      exact filled
    · intro index member
      have either := others.added member
      have before := @first.added index
      simp only [Finset.mem_union, mem_positions, List.mem_cons, List.not_mem_nil, or_false,
        exists_eq_or_imp, exists_eq_left] at either before ⊢
      tauto
    · -- What did not fit when it was tried does not fit later, when there is less room.
      unfold Full at full ⊢
      refine List.forall_mem_cons.mpr ⟨fun absent => ?_, full⟩
      have less := others.room_le balancedNext balancedAfter
      have heavy := tried entry (List.mem_singleton_self _) fun packed =>
        absent (others.grows packed)
      omega

end Fill

section Exchange

/-- An exchange of a packed free item for an unpacked one that is worth more and fits in its
place. -/
structure Swap.Proper (packing : Packing) (free : List IndexedItem) (swap : Swap) : Prop where
  leaves : swap.out ∈ free
  enters : swap.inn ∈ free
  packed : swap.out.index ∈ Instance.marked packing.packed
  absent : swap.inn.index ∉ Instance.marked packing.packed
  fits : swap.inn.item.weight.toNat ≤ packing.room + swap.out.item.weight.toNat
  improves : swap.out.item.value.toNat < swap.inn.item.value.toNat
  gains : swap.inn.item.value.toNat = swap.out.item.value.toNat + swap.gain

/-- The exchanges of one item for another of greater value that fits in its place, by the item that
leaves and then by the one that enters. -/
def properSwaps (free : List IndexedItem) (packing : Packing) : List Swap :=
  (free.filter (·.index ∈ Instance.marked packing.packed)).flatMap fun out =>
    ((free.filter (·.index ∉ Instance.marked packing.packed)).filter fun inn =>
      out.item.value < inn.item.value &&
        inn.item.weight.toNat ≤ packing.room + out.item.weight.toNat).map
      fun inn => ⟨out, inn, inn.item.value.toNat - out.item.value.toNat⟩

theorem mem_properSwaps : swap ∈ packing.properSwaps free ↔ swap.Proper packing free := by
  simp only [properSwaps, List.mem_flatMap, List.mem_map, List.mem_filter, decide_eq_true_eq,
    Bool.and_eq_true, UInt32.lt_iff_toNat_lt]
  constructor
  · rintro ⟨out, ⟨leaves, packed⟩, inn, ⟨⟨enters, absent⟩, improves, fits⟩, rfl⟩
    exact ⟨leaves, enters, packed, absent, fits, improves, (Nat.add_sub_cancel' improves.le).symm⟩
  · intro proper
    refine ⟨swap.out, ⟨proper.leaves, proper.packed⟩, swap.inn,
      ⟨⟨proper.enters, proper.absent⟩, proper.improves, proper.fits⟩, ?_⟩
    rw [Nat.sub_eq_of_eq_add' proper.gains]

/-- Earlier items leave first, and enter first in exchange for the same item. -/
theorem pairwise_properSwaps {earlier : IndexedItem → IndexedItem → Prop}
    (ordered : free.Pairwise earlier) (packing : Packing) :
    (packing.properSwaps free).Pairwise fun first second =>
      earlier first.out second.out ∨
        first.out = second.out ∧ earlier first.inn second.inn := by
  unfold properSwaps
  refine List.pairwise_flatMap.mpr ⟨fun out _ => ?_, (ordered.filter _).imp fun before => ?_⟩
  · exact List.pairwise_map.mpr
      (((ordered.filter _).filter _).imp fun before => Or.inr ⟨rfl, before⟩)
  · intro first listed second listedToo
    obtain ⟨_, -, rfl⟩ := List.mem_map.mp listed
    obtain ⟨_, -, rfl⟩ := List.mem_map.mp listedToo
    exact Or.inl before

private theorem freed_isOk (balanced : packing.Balanced inst) (item : Item) :
    word (packing.room + item.weight.toNat) = .ok (packing.room + item.weight.toNat) := by
  have capacity : inst.capacity.toNat < 2 ^ 64 := inst.capacity.toNat_lt
  have weight : item.weight.toNat < 2 ^ 32 := item.weight.toNat_lt
  have balance := balanced.balance
  exact if_pos (by rw [Fraction.widthLimit_eq]; omega)

/-- The exchanges that are looked at are the proper ones. No gain underflows, because only items of
greater value enter. -/
theorem swaps_eq (balanced : packing.Balanced inst) (lists : Relaxation.Lists inst free) :
    packing.swaps free = .ok (packing.properSwaps free) := by
  have marked : free.mapM (fun item => do return (item, ← packing.mark item)) = .ok
      (free.map fun item => (item, decide (item.index ∈ Instance.marked packing.packed))) :=
    mapM_eq_ok fun item member => by
      simp only [mark_eq balanced (lists item member), bind, Except.bind, pure, Except.pure]
  have gained : ∀ out outside, packing.swapsOf out outside = .ok ((outside.filter fun inn =>
      out.item.value < inn.item.value &&
        inn.item.weight.toNat ≤ packing.room + out.item.weight.toNat).map
      fun inn => ⟨out, inn, inn.item.value.toNat - out.item.value.toNat⟩) := by
    intro out outside
    simp only [swapsOf, freed_isOk balanced, bind, Except.bind]
    refine mapM_eq_ok fun inn member => ?_
    have kept := (List.mem_filter.mp member).2
    simp only [Bool.and_eq_true, decide_eq_true_eq, UInt32.lt_iff_toNat_lt] at kept
    simp only [difference, if_pos kept.1.le, pure, Except.pure]
  rw [swaps, marked]
  change Except.bind (List.mapM _ _) _ = _
  rw [mapM_eq_ok fun out _ => gained out _]
  simp only [List.filter_map, List.map_map, Function.comp_def, List.map_id', ← decide_not]
  rw [properSwaps, List.flatMap_def]
  rfl

theorem bestSwap?_eq_none_iff {swaps : List Swap} : bestSwap? swaps = none ↔ swaps = [] := by
  cases swaps with
  | nil => exact iff_of_true rfl rfl
  | cons first rest =>
    unfold bestSwap?
    split
    · simp
    · split_ifs <;> simp

/-- The best exchange gains more than every one before it, and no less than any after it. -/
theorem bestSwap?_eq_some {swaps : List Swap} {swap : Swap}
    (best : bestSwap? swaps = some swap) : ∃ before after, swaps = before ++ swap :: after ∧
      (∀ other ∈ before, other.gain < swap.gain) ∧ ∀ other ∈ after, other.gain ≤ swap.gain := by
  induction swaps generalizing swap with
  | nil => exact nomatch best
  | cons first rest ih =>
    unfold bestSwap? at best
    split at best
    · rename_i alone
      obtain rfl := Option.some.inj best
      obtain rfl := bestSwap?_eq_none_iff.mp alone
      exact ⟨[], [], rfl, by simp, by simp⟩
    · rename_i other found
      obtain ⟨before, after, rfl, below, above⟩ := ih found
      split_ifs at best with less
      · obtain rfl := Option.some.inj best
        exact ⟨first :: before, after, rfl, List.forall_mem_cons.mpr ⟨less, below⟩, above⟩
      · obtain rfl := Option.some.inj best
        refine ⟨[], _, rfl, by simp, fun later listed => ?_⟩
        have bound : later.gain ≤ other.gain := by
          rcases List.mem_append.mp listed with earlier | member
          · exact (below later earlier).le
          · rcases List.mem_cons.mp member with rfl | following
            · exact le_rfl
            · exact above later following
        exact bound.trans (not_lt.mp less)

private theorem marked_swap (balanced : packing.Balanced inst) (lists : Relaxation.Lists inst free)
    (proper : swap.Proper packing free) :
    Instance.marked ((packing.packed.set swap.out.index false).set swap.inn.index true) =
      insert swap.inn.index ((Instance.marked packing.packed).erase swap.out.index) := by
  have within := balanced.index_lt (lists _ proper.enters)
  rw [Instance.marked_set_true (by rw [List.length_set]; exact within), Instance.marked_set_false]

private theorem measureOf_swap (measure : Item → UInt32) (lists : Relaxation.Lists inst free)
    (proper : swap.Proper packing free) :
    inst.measureOf measure
        (insert swap.inn.index ((Instance.marked packing.packed).erase swap.out.index)) +
        (measure swap.out.item).toNat =
      inst.measureOf measure (Instance.marked packing.packed) +
        (measure swap.inn.item).toNat := by
  have absent : swap.inn.index ∉ (Instance.marked packing.packed).erase swap.out.index :=
    fun member => proper.absent (Finset.mem_of_mem_erase member)
  have removed := Finset.add_sum_erase _ (inst.measureAt measure) proper.packed
  rw [inst.measureAt_eq measure (lists _ proper.leaves)] at removed
  rw [Instance.measureOf, Instance.measureOf, Finset.sum_insert absent, ← removed,
    inst.measureAt_eq measure (lists _ proper.enters)]
  omega

/-- The packing after an exchange. -/
def exchanged (packing : Packing) (swap : Swap) : Packing where
  packed := (packing.packed.set swap.out.index false).set swap.inn.index true
  room := packing.room + swap.out.item.weight.toNat - swap.inn.item.weight.toNat

/-- A proper exchange can be made. -/
theorem apply_eq (balanced : packing.Balanced inst) (proper : swap.Proper packing free) :
    packing.apply swap = .ok (packing.exchanged swap) := by
  simp only [apply, freed_isOk balanced, difference, if_pos proper.fits, bind, Except.bind, pure,
    Except.pure, exchanged]

/-- A proper exchange keeps the balance. -/
theorem Balanced.exchanged (balanced : packing.Balanced inst)
    (lists : Relaxation.Lists inst free) (proper : swap.Proper packing free) :
    (packing.exchanged swap).Balanced inst where
  covers := (List.length_set.trans List.length_set).trans balanced.covers
  balance := by
    have balance := balanced.balance
    have fits := proper.fits
    have weights := measureOf_swap (·.weight) lists proper
    rw [Instance.weightOf] at balance ⊢
    dsimp only [Packing.exchanged]
    rw [marked_swap balanced lists proper]
    omega

/-- A proper exchange touches free items only. -/
theorem agree_exchanged (balanced : packing.Balanced inst) (lists : Relaxation.Lists inst free)
    (proper : swap.Proper packing free) : Agree free packing (packing.exchanged swap) := by
  intro index fixed
  have notOut : index ≠ swap.out.index := by
    rintro rfl
    exact fixed (mem_positions.mpr ⟨_, proper.leaves, rfl⟩)
  have notInn : index ≠ swap.inn.index := by
    rintro rfl
    exact fixed (mem_positions.mpr ⟨_, proper.enters, rfl⟩)
  simp [exchanged, marked_swap balanced lists proper, notOut, notInn]

/-- A proper exchange gains what it promises. -/
theorem valueOf_exchanged (balanced : packing.Balanced inst) (lists : Relaxation.Lists inst free)
    (proper : swap.Proper packing free) :
    inst.valueOf (Instance.marked (packing.exchanged swap).packed) =
      inst.valueOf (Instance.marked packing.packed) + swap.gain := by
  have values := measureOf_swap (·.value) lists proper
  have gains := proper.gains
  rw [Instance.valueOf, Instance.valueOf, exchanged, marked_swap balanced lists proper]
  omega

/-- The best of the proper exchanges is made. -/
theorem exchange?_eq (balanced : packing.Balanced inst) (lists : Relaxation.Lists inst free) :
    packing.exchange? free =
      .ok ((bestSwap? (packing.properSwaps free)).map packing.exchanged) := by
  simp only [exchange?, swaps_eq balanced lists, bind, Except.bind]
  cases best : bestSwap? (packing.properSwaps free) with
  | none => rfl
  | some swap =>
    obtain ⟨before, after, split, -⟩ := bestSwap?_eq_some best
    have proper : swap.Proper packing free := mem_properSwaps.mp (by simp [split])
    simp only [apply_eq balanced proper, pure, Except.pure, Option.map_some]

/-- An exchange that is made gains value and touches free items only. -/
theorem exchange?_isOk (balanced : packing.Balanced inst) (lists : Relaxation.Lists inst free) :
    ∃ after?, packing.exchange? free = .ok after? ∧ ∀ after ∈ after?, after.Balanced inst ∧
      Agree free packing after ∧
      inst.valueOf (Instance.marked packing.packed) <
        inst.valueOf (Instance.marked after.packed) := by
  refine ⟨_, exchange?_eq balanced lists, fun after made => ?_⟩
  obtain ⟨swap, best, rfl⟩ := Option.map_eq_some_iff.mp made
  obtain ⟨earlier, later, split, -⟩ := bestSwap?_eq_some best
  have proper : swap.Proper packing free := mem_properSwaps.mp (by simp [split])
  have worth := valueOf_exchanged balanced lists proper
  have improves := proper.improves
  have gains := proper.gains
  exact ⟨balanced.exchanged lists proper, agree_exchanged balanced lists proper, by omega⟩

end Exchange

/-- What local search makes of a packing: either nothing, or one that is worth more. -/
structure Improves (inst : Instance) (free : List IndexedItem) (before after : Packing) :
    Prop where
  balanced : after.Balanced inst
  agree : Agree free before after
  full : Full free after
  gains : after = before ∨ inst.valueOf (Instance.marked before.packed) <
    inst.valueOf (Instance.marked after.packed)

/-- Any number of rounds leaves a full packing as it is or gains value. -/
theorem improve_isOk (balanced : packing.Balanced inst) (full : Full free packing)
    (lists : Relaxation.Lists inst free) (rounds : ℕ) :
    ∃ result, packing.improve free rounds = .ok result ∧
      Improves inst free packing result.1 := by
  induction rounds generalizing packing with
  | zero => exact ⟨(packing, 0), rfl, balanced, fun _ _ => Iff.rfl, full, Or.inl rfl⟩
  | succ rounds ih =>
    obtain ⟨after?, outcome, better⟩ := exchange?_isOk balanced lists
    simp only [improve, outcome, bind, Except.bind]
    cases after? with
    | none => exact ⟨(packing, 0), rfl, balanced, fun _ _ => Iff.rfl, full, Or.inl rfl⟩
    | some exchanged =>
      obtain ⟨still, agree, gain⟩ := better exchanged rfl
      obtain ⟨filled, refilled, kept, extension, fullAgain⟩ := fill_isOk still lists
      obtain ⟨result, improved, final⟩ := ih kept fullAgain
      have more := extension.valueOf_le inst
      simp only [refilled, improved]
      refine ⟨(result.1, result.2 + 1), rfl, final.balanced, ?_, final.full, Or.inr ?_⟩
      · exact (agree.trans extension.agree).trans final.agree
      · rcases final.gains with same | gainsMore
        · rw [same]
          omega
        · exact gain.trans (more.trans_lt gainsMore)

end Knapsack.Packing

import Knapsack.Proofs.Heuristic.Completion

/-! # One round of local search

Of all exchanges that fit and gain value, a round of local search makes the first one of greatest
gain, and it makes none exactly when there is none. The items are scanned twice, for the one that
leaves and for the one that enters, so the exchanges are met in lexicographic order. The exchange
that is kept is better than all that were met before it, and those that come later are not better.
-/

namespace Knapsack.Packing

variable {inst : Instance} {packing before after : Packing} {free : List ℕ} {out inn : ℕ}
  {swap : Packing.Swap}

/-- A packed item and one that is left out, both free, of which the second one is worth more and
fits in the place of the first. -/
structure Exchanges (inst : Instance) (packing : Packing) (free : List ℕ) (out inn : ℕ) :
    Prop where
  leaves : out ∈ free
  enters : inn ∈ free
  packed : out ∈ Instance.marked packing.packed
  absent : inn ∉ Instance.marked packing.packed
  improves : inst.measureAt (·.value) out < inst.measureAt (·.value) inn
  fits : inst.measureAt (·.weight) inn ≤ packing.room + inst.measureAt (·.weight) out

/-- What an exchange adds to the value. -/
def gain (inst : Instance) (out inn : ℕ) : ℕ :=
  inst.measureAt (·.value) inn - inst.measureAt (·.value) out

/-- The first exchange of greatest gain, by the item that leaves and then by the one that enters,
each in the order of the free items. -/
structure Best (inst : Instance) (packing : Packing) (free : List ℕ) (out inn : ℕ) : Prop
    extends Exchanges inst packing free out inn where
  greatest : ∀ other entrant, Exchanges inst packing free other entrant →
    gain inst other entrant ≤ gain inst out inn
  first : ∀ other entrant, Exchanges inst packing free other entrant →
    gain inst other entrant = gain inst out inn →
      free.idxOf out < free.idxOf other ∨ out = other ∧ free.idxOf inn ≤ free.idxOf entrant

/-- No two exchanges are the first one of greatest gain. -/
theorem Best.unique {out' inn' : ℕ} (best : Best inst packing free out inn)
    (best' : Best inst packing free out' inn') : out = out' ∧ inn = inn' := by
  have same : gain inst out' inn' = gain inst out inn :=
    (best.greatest _ _ best'.toExchanges).antisymm (best'.greatest _ _ best.toExchanges)
  rcases best.first _ _ best'.toExchanges same with before | ⟨rfl, sooner⟩ <;>
    rcases best'.first _ _ best.toExchanges same.symm with before' | ⟨outs, sooner'⟩
  · exact absurd before (not_lt.mpr before'.le)
  · exact absurd before (outs ▸ lt_irrefl _)
  · exact absurd before' (lt_irrefl _)
  · exact ⟨rfl, (List.idxOf_inj best.enters).mp (sooner.antisymm sooner')⟩

section Positions

/-- Entries for given positions list items at their positions. -/
theorem lists_indexed (inst : Instance) (free : List ℕ) :
    Relaxation.Lists inst (inst.indexed free) := fun _ member => (Instance.mem_indexed member).2

/-- The exchanges of entries are the exchanges of their positions. -/
theorem exchanges_of_proper (proper : swap.Proper packing (inst.indexed free)) :
    Exchanges inst packing free swap.out.index swap.inn.index ∧
      gain inst swap.out.index swap.inn.index = swap.gain := by
  obtain ⟨leaves, out⟩ := Instance.mem_indexed proper.leaves
  obtain ⟨enters, inn⟩ := Instance.mem_indexed proper.enters
  have gains := proper.gains
  refine ⟨⟨leaves, enters, proper.packed, proper.absent, ?_, ?_⟩, ?_⟩
  · rw [inst.measureAt_eq (·.value) out, inst.measureAt_eq (·.value) inn]
    exact proper.improves
  · rw [inst.measureAt_eq (·.weight) out, inst.measureAt_eq (·.weight) inn]
    exact proper.fits
  · rw [gain, inst.measureAt_eq (·.value) out, inst.measureAt_eq (·.value) inn]
    omega

variable (valid : ∀ index ∈ free, index < inst.size)

include valid

theorem positions_indexed : positions (inst.indexed free) = free.toFinset := by
  rw [positions, Instance.map_index_indexed valid]

theorem exists_mem_indexed {index : ℕ} (listed : index ∈ free) :
    ∃ entry ∈ inst.indexed free, entry.index = index := by
  rw [← Instance.map_index_indexed valid] at listed
  exact List.mem_map.mp listed

/-- Positions without duplicates are met in the order in which they are listed. -/
theorem pairwise_indexed (distinct : free.Nodup) :
    (inst.indexed free).Pairwise fun first second =>
      free.idxOf first.index < free.idxOf second.index := by
  rw [← List.pairwise_map (R := fun first second => free.idxOf first < free.idxOf second),
    Instance.map_index_indexed valid]
  refine List.pairwise_iff_getElem.mpr fun i j low high less => ?_
  rw [distinct.idxOf_getElem i low, distinct.idxOf_getElem j high]
  exact less

theorem Exchanges.exists_proper (exchange : Exchanges inst packing free out inn) :
    ∃ swap : Swap, swap.Proper packing (inst.indexed free) ∧ swap.out.index = out ∧
      swap.inn.index = inn := by
  obtain ⟨leaving, leaves, rfl⟩ := exists_mem_indexed valid exchange.leaves
  obtain ⟨entering, enters, rfl⟩ := exists_mem_indexed valid exchange.enters
  have improves := exchange.improves
  have fits := exchange.fits
  rw [inst.measureAt_eq (·.value) (lists_indexed inst free _ leaves),
    inst.measureAt_eq (·.value) (lists_indexed inst free _ enters)] at improves
  rw [inst.measureAt_eq (·.weight) (lists_indexed inst free _ leaves),
    inst.measureAt_eq (·.weight) (lists_indexed inst free _ enters)] at fits
  refine ⟨⟨leaving, entering, entering.item.value.toNat - leaving.item.value.toNat⟩, ?_, rfl, rfl⟩
  exact ⟨leaves, enters, exchange.packed, exchange.absent, fits, improves,
    (Nat.add_sub_cancel' improves.le).symm⟩

/-- The exchange that is kept in the end is the first one of greatest gain. -/
theorem best_of_bestSwap? (distinct : free.Nodup)
    (best : bestSwap? (packing.properSwaps (inst.indexed free)) = some swap) :
    swap.Proper packing (inst.indexed free) ∧
      Best inst packing free swap.out.index swap.inn.index := by
  obtain ⟨before, after, split, below, above⟩ := bestSwap?_eq_some best
  have ordered := pairwise_properSwaps (pairwise_indexed valid distinct) packing
  rw [split] at ordered
  have later := (List.pairwise_cons.mp (List.pairwise_append.mp ordered).2.1).1
  have proper : swap.Proper packing (inst.indexed free) := mem_properSwaps.mp (by simp [split])
  obtain ⟨exchange, gains⟩ := exchanges_of_proper proper
  -- Every other exchange was met before this one, and gains less, or is met after it.
  have compared : ∀ other entrant, Exchanges inst packing free other entrant →
      gain inst other entrant < swap.gain ∨ gain inst other entrant ≤ swap.gain ∧
        (free.idxOf swap.out.index < free.idxOf other ∨
          swap.out.index = other ∧ free.idxOf swap.inn.index ≤ free.idxOf entrant) := by
    intro other entrant possible
    obtain ⟨rival, suitable, rfl, rfl⟩ := possible.exists_proper valid
    rw [(exchanges_of_proper suitable).2]
    have met := mem_properSwaps.mpr suitable
    rw [split, List.mem_append, List.mem_cons] at met
    rcases met with earlier | rfl | following
    · exact Or.inl (below rival earlier)
    · exact Or.inr ⟨le_rfl, Or.inr ⟨rfl, le_rfl⟩⟩
    · refine Or.inr ⟨above rival following, (later rival following).imp_right ?_⟩
      exact fun ⟨same, sooner⟩ => ⟨congrArg (·.index) same, sooner.le⟩
  refine ⟨proper, exchange, fun other entrant possible => ?_, fun other entrant possible same => ?_⟩
  · rw [gains]
    exact (compared other entrant possible).elim le_of_lt And.left
  · rw [gains] at same
    exact ((compared other entrant possible).resolve_left same.not_lt).2

end Positions

/-- Packings of the same items agree at the positions that are not free. -/
theorem Agree.getElem?_eq (valid : ∀ index ∈ free, index < inst.size)
    (agree : Agree (inst.indexed free) before after) (covers : before.Balanced inst)
    (coversToo : after.Balanced inst) :
    ∀ index ∉ free, after.packed[index]? = before.packed[index]? := by
  intro index fixed
  have same := agree index (by rwa [positions_indexed valid, List.mem_toFinset])
  rw [Instance.mem_marked, Instance.mem_marked] at same
  by_cases bound : index < inst.size
  · have low : index < after.packed.length := coversToo.covers ▸ bound
    have lowToo : index < before.packed.length := covers.covers ▸ bound
    rw [List.getElem?_eq_getElem low, List.getElem?_eq_getElem lowToo] at same ⊢
    simp only [Option.some.injEq] at same ⊢
    exact Bool.eq_iff_iff.mpr same
  · rw [List.getElem?_eq_none (coversToo.covers.trans_le (not_lt.mp bound)),
      List.getElem?_eq_none (covers.covers.trans_le (not_lt.mp bound))]

/-- What becomes of a packing when two items are exchanged. -/
structure Exchanged (inst : Instance) (free : List ℕ) (before after : Packing) (out inn : ℕ) :
    Prop where
  packed : after.packed = (before.packed.set out false).set inn true
  gains : inst.valueOf (Instance.marked after.packed) =
    inst.valueOf (Instance.marked before.packed) + gain inst out inn
  balanced : after.Balanced inst
  untouched : ∀ index ∉ free, after.packed[index]? = before.packed[index]?

/-- What becomes of a packing when every free item that fits is packed. -/
structure Filled (inst : Instance) (free : List ℕ) (before after : Packing) : Prop where
  grows : Instance.marked before.packed ⊆ Instance.marked after.packed
  added : Instance.marked after.packed ⊆ Instance.marked before.packed ∪ free.toFinset
  full : ∀ index ∈ free, index ∉ Instance.marked after.packed →
    after.room < inst.measureAt (·.weight) index
  balanced : after.Balanced inst
  untouched : ∀ index ∉ free, after.packed[index]? = before.packed[index]?

section Round

variable (valid : ∀ index ∈ free, index < inst.size) (balanced : packing.Balanced inst)

include valid balanced

/-- No exchange is made exactly when there is none, and else the best one is made. -/
theorem exchange?_indexed (distinct : free.Nodup) :
    ∃ after?, packing.exchange? (inst.indexed free) = .ok after? ∧
      (after? = none ↔ ∀ out inn, ¬Exchanges inst packing free out inn) ∧
      ∀ after ∈ after?, ∃ out inn, Best inst packing free out inn ∧
        Exchanged inst free packing after out inn := by
  have lists := lists_indexed inst free
  refine ⟨_, exchange?_eq balanced lists, ?_, fun after made => ?_⟩
  · rw [Option.map_eq_none_iff, bestSwap?_eq_none_iff, List.eq_nil_iff_forall_not_mem]
    constructor
    · intro none out inn exchange
      obtain ⟨swap, proper, -⟩ := exchange.exists_proper valid
      exact none swap (mem_properSwaps.mpr proper)
    · exact fun none swap listed =>
        none _ _ (exchanges_of_proper (mem_properSwaps.mp listed)).1
  · obtain ⟨swap, found, rfl⟩ := Option.map_eq_some_iff.mp made
    obtain ⟨proper, best⟩ := best_of_bestSwap? valid distinct found
    have still := balanced.exchanged lists proper
    refine ⟨_, _, best, rfl, ?_, still, ?_⟩
    · rw [valueOf_exchanged balanced lists proper, (exchanges_of_proper proper).2]
    · exact (agree_exchanged balanced lists proper).getElem?_eq valid balanced still

/-- Packing whatever fits comes out, and leaves no free item out that would fit. -/
theorem fill_indexed : ∃ after, packing.fill (inst.indexed free) = .ok after ∧
    Filled inst free packing after := by
  have lists := lists_indexed inst free
  obtain ⟨after, outcome, still, extension, full⟩ := fill_isOk balanced lists
  refine ⟨after, outcome, extension.grows, ?_, fun index listed left => ?_, still, ?_⟩
  · rw [← positions_indexed valid]
    exact extension.added
  · obtain ⟨entry, member, rfl⟩ := exists_mem_indexed valid listed
    rw [inst.measureAt_eq (·.weight) (lists entry member)]
    exact full entry member left
  · exact extension.agree.getElem?_eq valid balanced still

/-- For free items without duplicates and a packing that keeps the balance of room and weight, an
exchange fails to be made exactly when no free item that is left out is worth more than a packed one
and fits in its place. Otherwise the first exchange of greatest gain is made: it adds exactly its
gain to the value and keeps the balance. Packing whatever fits keeps the balance too, only adds free
items, and leaves none of them out that would fit. Neither underflows or touches another item. -/
theorem round_makes_best_exchange (distinct : free.Nodup) :
    (∃ after?, packing.exchange? (inst.indexed free) = .ok after? ∧
      (after? = none ↔ ∀ out inn, ¬Exchanges inst packing free out inn) ∧
      ∀ after ∈ after?, ∃ out inn, Best inst packing free out inn ∧
        Exchanged inst free packing after out inn) ∧
    ∃ after, packing.fill (inst.indexed free) = .ok after ∧ Filled inst free packing after :=
  ⟨exchange?_indexed valid balanced distinct, fill_indexed valid balanced⟩

end Round

/-- The first two of three items are exchanged, which is worth 2 and leaves no room. Before that,
nothing else fits. -/
theorem round_makes_best_exchange_uneven : ∃ after filled,
    exchange? (Heuristic.uneven.indexed [0, 1, 2]) ⟨[true, false, true], 2⟩ = .ok (some after) ∧
      after = ⟨[false, true, true], 0⟩ ∧
      (∃ out inn, Best Heuristic.uneven ⟨[true, false, true], 2⟩ [0, 1, 2] out inn ∧
        Exchanged Heuristic.uneven [0, 1, 2] ⟨[true, false, true], 2⟩ after out inn) ∧
      fill (Heuristic.uneven.indexed [0, 1, 2]) ⟨[true, false, true], 2⟩ = .ok filled ∧
      Filled Heuristic.uneven [0, 1, 2] ⟨[true, false, true], 2⟩ filled := by
  have valid : ∀ index ∈ [0, 1, 2], index < Heuristic.uneven.size := by decide
  have balanced : Balanced Heuristic.uneven ⟨[true, false, true], 2⟩ := ⟨rfl, by decide⟩
  obtain ⟨⟨after?, made, -, best⟩, filled, outcome, full⟩ :=
    round_makes_best_exchange valid balanced (by decide)
  have evaluated : exchange? (Heuristic.uneven.indexed [0, 1, 2]) ⟨[true, false, true], 2⟩ =
      .ok (some ⟨[false, true, true], 0⟩) := rfl
  obtain rfl := Except.ok.inj (made.symm.trans evaluated)
  exact ⟨_, filled, made, rfl, best _ rfl, outcome, full⟩

end Knapsack.Packing

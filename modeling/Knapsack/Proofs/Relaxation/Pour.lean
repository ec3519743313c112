import Knapsack.Relaxation
import Knapsack.Proofs.Instance.Density
import Knapsack.Proofs.Solution.Total

/-! # Pouring items by density

Pouring fills the room exactly, or takes everything. It is optimal by duality: there is a price per
unit of weight at which what is poured is worth the price of the room plus the surplus of every
item, and no amounts that fit can be worth more than that at any price.
-/

namespace Knapsack.Relaxation

variable {inst : Instance} {entries : List IndexedItem} {room : ℕ}

/-- Entries that list items of an instance at their positions. -/
def Lists (inst : Instance) (entries : List IndexedItem) : Prop :=
  ∀ entry ∈ entries, inst.items[entry.index]? = some entry.item

theorem Lists.tail {entry : IndexedItem} (lists : Lists inst (entry :: entries)) :
    Lists inst entries := fun other member => lists other (List.mem_cons_of_mem _ member)

theorem Lists.measureAt_head {entry : IndexedItem} (lists : Lists inst (entry :: entries))
    (measure : Item → UInt32) : inst.measureAt measure entry.index = (measure entry.item).toNat :=
  inst.measureAt_eq measure (lists entry (List.mem_cons_self ..))

/-- A measure of amounts that are given with their positions. -/
def poured (inst : Instance) (measure : Item → UInt32) (amounts : List (ℕ × Fraction)) : ℚ :=
  (amounts.map fun (index, amount) => amount.toRat * inst.measureAt measure index).sum

/-- A measure of some amounts of the listed entries. -/
def listed (inst : Instance) (measure : Item → UInt32) (entries : List IndexedItem)
    (amounts : ℕ → ℚ) : ℚ :=
  (entries.map fun entry => amounts entry.index * inst.measureAt measure entry.index).sum

private theorem pour_of_fits {entry : IndexedItem} (fits : entry.item.weight.toNat ≤ room) :
    pour room (entry :: entries) =
      (entry.index, 1) :: pour (room - entry.item.weight.toNat) entries := by
  rw [pour, dif_pos fits]

private theorem pour_of_not_fits {entry : IndexedItem} (cut : ¬ entry.item.weight.toNat ≤ room) :
    pour room (entry :: entries) =
      [(entry.index, .reduce room entry.item.weight.toNat
        (Nat.ne_zero_of_lt (Nat.lt_of_not_le cut)))] := by
  rw [pour, dif_neg cut]

/-- Items are poured in their order, and each of them once. -/
theorem pour_sublist (room : ℕ) (entries : List IndexedItem) :
    ((pour room entries).map (·.1)).Sublist (entries.map (·.index)) := by
  induction entries generalizing room with
  | nil => exact List.Sublist.slnil
  | cons entry rest ih =>
    by_cases fits : entry.item.weight.toNat ≤ room
    · rw [pour_of_fits fits]
      exact (ih _).cons_cons _
    · rw [pour_of_not_fits fits]
      exact (List.nil_sublist _).cons_cons _

/-- The parts of the weight of the item that is cut measure all amounts. -/
theorem pour_parted (room : ℕ) (entries : List IndexedItem) :
    ∃ parts : ℕ, 0 < parts ∧ parts < 2 ^ 32 ∧
      ∀ amount ∈ pour room entries, amount.2 ≤ 1 ∧ amount.2.den ∣ parts := by
  induction entries generalizing room with
  | nil => exact ⟨1, by decide, by decide, by simp [pour]⟩
  | cons entry rest ih =>
    by_cases fits : entry.item.weight.toNat ≤ room
    · obtain ⟨parts, positive, narrow, parted⟩ := ih (room - entry.item.weight.toNat)
      refine ⟨parts, positive, narrow, fun amount member => ?_⟩
      rw [pour_of_fits fits] at member
      rcases List.mem_cons.mp member with rfl | member
      · exact ⟨show (1 : Fraction) ≤ 1 by decide, one_dvd _⟩
      · exact parted amount member
    · refine ⟨entry.item.weight.toNat, by omega, entry.item.weight.toNat_lt, ?_⟩
      intro amount member
      rw [pour_of_not_fits fits] at member
      obtain rfl := List.mem_singleton.mp member
      refine ⟨?_, Fraction.reduce_den_dvd _ _ (by omega)⟩
      rw [Fraction.le_iff_toRat, Fraction.toRat_reduce, Fraction.toRat_one]
      exact div_le_one_of_le₀ (by exact_mod_cast (not_le.mp fits).le) (Nat.cast_nonneg _)

/-- At most one item is cut. -/
theorem pour_cut_unique (room : ℕ) (entries : List IndexedItem) {a b : ℕ × Fraction}
    (first : a ∈ pour room entries) (second : b ∈ pour room entries)
    (cut : a.2.isInteger = false) (cutToo : b.2.isInteger = false) : a = b := by
  induction entries generalizing room with
  | nil => simp [pour] at first
  | cons entry rest ih =>
    by_cases fits : entry.item.weight.toNat ≤ room
    · have whole : (1 : Fraction).isInteger ≠ false := by decide
      rw [pour_of_fits fits] at first second
      rcases List.mem_cons.mp first with rfl | first
      · exact absurd cut whole
      rcases List.mem_cons.mp second with rfl | second
      · exact absurd cutToo whole
      exact ih _ first second
    · rw [pour_of_not_fits fits, List.mem_singleton] at first second
      exact first.trans second.symm

/-- The room is filled entirely unless everything fits. -/
theorem poured_weight (room : ℕ) (lists : Lists inst entries) :
    poured inst (·.weight) (pour room entries) =
      min (room : ℚ) (listed inst (·.weight) entries fun _ => 1) := by
  induction entries generalizing room with
  | nil => simp [pour, poured, listed]
  | cons entry rest ih =>
    have mass := lists.measureAt_head (·.weight)
    have others : 0 ≤ listed inst (·.weight) rest fun _ => 1 :=
      List.sum_nonneg (by simp)
    by_cases fits : entry.item.weight.toNat ≤ room
    · have step := ih (room - entry.item.weight.toNat) lists.tail
      simp only [poured, listed, pour_of_fits fits, List.map_cons, List.sum_cons, mass,
        Fraction.toRat_one, one_mul] at step ⊢
      rw [step, Nat.cast_sub fits, ← min_add_add_left, add_sub_cancel]
    · have light : (room : ℚ) ≤ entry.item.weight.toNat := by
        exact_mod_cast (not_le.mp fits).le
      have heavy : ((entry.item.weight.toNat : ℕ) : ℚ) ≠ 0 := by
        have : entry.item.weight.toNat ≠ 0 := by omega
        exact_mod_cast this
      simp only [poured, listed, pour_of_not_fits fits, List.map_cons, List.map_nil, List.sum_cons,
        List.sum_nil, add_zero, mass, Fraction.toRat_reduce, one_mul] at others ⊢
      rw [div_mul_cancel₀ _ heavy, min_eq_left (by linarith)]

/-- What an entry is worth beyond a price per unit of its weight. -/
private def surplus (price : ℚ) (entry : IndexedItem) : ℚ :=
  max 0 (entry.item.value.toNat - price * entry.item.weight.toNat)

private theorem surplus_eq_zero {entry other : IndexedItem} (heavy : 0 < entry.item.weight.toNat)
    (denser : other.item.value.toNat * entry.item.weight.toNat ≤
      entry.item.value.toNat * other.item.weight.toNat) :
    surplus (entry.item.value.toNat / entry.item.weight.toNat) other = 0 := by
  have positive : (0 : ℚ) < entry.item.weight.toNat := by exact_mod_cast heavy
  refine max_eq_left (sub_nonpos.mpr ?_)
  rw [div_mul_eq_mul_div, le_div_iff₀ positive]
  exact_mod_cast denser

/-- Zero, or the density of a listed entry that weighs something. -/
private def IsDensity (entries : List IndexedItem) (price : ℚ) : Prop :=
  price = 0 ∨ ∃ entry ∈ entries, 0 < entry.item.weight.toNat ∧
    price * entry.item.weight.toNat = entry.item.value.toNat

private theorem IsDensity.mul_weight_le {price : ℚ} (source : IsDensity entries price)
    {entry : IndexedItem} (first : ∀ later ∈ entries,
      later.item.value.toNat * entry.item.weight.toNat ≤
        entry.item.value.toNat * later.item.weight.toNat) :
    price * entry.item.weight.toNat ≤ entry.item.value.toNat := by
  rcases source with rfl | ⟨later, member, heavy, density⟩
  · rw [zero_mul]
    exact Nat.cast_nonneg _
  · have ordered : (later.item.value.toNat * entry.item.weight.toNat : ℚ) ≤
        entry.item.value.toNat * later.item.weight.toNat := by
      exact_mod_cast first later member
    have positive : (0 : ℚ) < later.item.weight.toNat := by exact_mod_cast heavy
    rw [← density] at ordered
    nlinarith

private theorem exists_price (room : ℕ) (lists : Lists inst entries)
    (sorted : entries.Pairwise fun a b =>
      b.item.value.toNat * a.item.weight.toNat ≤ a.item.value.toNat * b.item.weight.toNat) :
    ∃ price : ℚ, 0 ≤ price ∧ IsDensity entries price ∧
      poured inst (·.value) (pour room entries) =
        price * room + (entries.map (surplus price)).sum := by
  induction entries generalizing room with
  | nil => exact ⟨0, le_rfl, Or.inl rfl, by simp [pour, poured]⟩
  | cons entry rest ih =>
    obtain ⟨first, sortedRest⟩ := List.pairwise_cons.mp sorted
    have worth := lists.measureAt_head (·.value)
    by_cases fits : entry.item.weight.toNat ≤ room
    · obtain ⟨price, nonneg, source, even⟩ :=
        ih (room - entry.item.weight.toNat) lists.tail sortedRest
      have covered := source.mul_weight_le first
      refine ⟨price, nonneg, source.imp_right fun ⟨later, member, rest⟩ =>
        ⟨later, List.mem_cons_of_mem _ member, rest⟩, ?_⟩
      simp only [poured, pour_of_fits fits, List.map_cons, List.sum_cons, worth,
        Fraction.toRat_one, one_mul] at even ⊢
      rw [even, Nat.cast_sub fits, surplus, max_eq_right (by linarith)]
      ring
    · -- The entry that is cut sets the price, and what follows it is no denser.
      have heavy : 0 < entry.item.weight.toNat := by omega
      have positive : (0 : ℚ) < entry.item.weight.toNat := by exact_mod_cast heavy
      have none : ∀ other ∈ entry :: rest,
          surplus (entry.item.value.toNat / entry.item.weight.toNat) other = 0 :=
        List.forall_mem_cons.mpr ⟨surplus_eq_zero heavy le_rfl, fun other member =>
          surplus_eq_zero heavy (first other member)⟩
      refine ⟨entry.item.value.toNat / entry.item.weight.toNat, by positivity,
        Or.inr ⟨entry, List.mem_cons_self .., heavy, div_mul_cancel₀ _ positive.ne'⟩, ?_⟩
      rw [List.map_congr_left none]
      simp only [poured, pour_of_not_fits fits, List.map_cons, List.map_nil, List.sum_cons,
        List.sum_nil, add_zero, worth, Fraction.toRat_reduce, List.map_const', List.sum_replicate,
        smul_zero]
      ring

private theorem listed_value_le (lists : Lists inst entries) (price : ℚ) {amounts : ℕ → ℚ}
    (bounded : ∀ entry ∈ entries, 0 ≤ amounts entry.index ∧ amounts entry.index ≤ 1) :
    listed inst (·.value) entries amounts ≤
      price * listed inst (·.weight) entries amounts + (entries.map (surplus price)).sum := by
  induction entries with
  | nil => simp [listed]
  | cons entry rest ih =>
    have others := ih lists.tail fun other member => bounded other (List.mem_cons_of_mem _ member)
    obtain ⟨nonneg, small⟩ := bounded entry (List.mem_cons_self ..)
    have single : amounts entry.index *
        (entry.item.value.toNat - price * entry.item.weight.toNat) ≤ surplus price entry := by
      unfold surplus
      rcases le_total 0 ((entry.item.value.toNat : ℚ) - price * entry.item.weight.toNat) with
        gain | loss
      · rw [max_eq_right gain]
        exact mul_le_of_le_one_left gain small
      · rw [max_eq_left loss]
        exact mul_nonpos_of_nonneg_of_nonpos nonneg loss
    simp only [listed, List.map_cons, List.sum_cons, lists.measureAt_head] at others ⊢
    linarith

/-- No amounts of the listed items that fit in the room are worth more than what is poured. -/
theorem listed_value_le_poured (lists : Lists inst entries)
    (sorted : entries.Pairwise fun a b =>
      b.item.value.toNat * a.item.weight.toNat ≤ a.item.value.toNat * b.item.weight.toNat)
    {amounts : ℕ → ℚ}
    (bounded : ∀ entry ∈ entries, 0 ≤ amounts entry.index ∧ amounts entry.index ≤ 1)
    (fits : listed inst (·.weight) entries amounts ≤ room) :
    listed inst (·.value) entries amounts ≤ poured inst (·.value) (pour room entries) := by
  obtain ⟨price, nonneg, -, even⟩ := exists_price room lists sorted
  calc listed inst (·.value) entries amounts
      ≤ price * listed inst (·.weight) entries amounts + (entries.map (surplus price)).sum :=
        listed_value_le lists price bounded
    _ ≤ price * room + (entries.map (surplus price)).sum := by
        have := mul_le_mul_of_nonneg_left fits nonneg
        linarith
    _ = poured inst (·.value) (pour room entries) := even.symm

end Knapsack.Relaxation

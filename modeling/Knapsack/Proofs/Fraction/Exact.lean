import Knapsack.Proofs.Fraction.Words
import Knapsack.Proofs.Outcome

/-! # Exact or not at all

Every operation on fractions denotes one on rational numbers. It gives exactly that number, or it is
refused, and it is refused just when a certain number is too wide for a word of 128 bits. So what is
built from words stays in words, and nothing is ever wrapped around or rounded.
-/

namespace Knapsack.Fraction

variable {a b c : Fraction}

/-- An outcome that is exactly one number, and that is refused just under some condition. -/
structure Yields (outcome : Except ArithmeticFault Fraction) (value : ℚ) (refused : Prop) :
    Prop where
  exact : ∀ result, outcome = .ok result → result.toRat = value
  refuses : (∃ fault, outcome = .error fault) ↔ refused

section Operations

/-- An outcome under a condition is refused when the condition fails. -/
theorem isError_ite {fits : Prop} [Decidable fits] {result : Fraction} {fault : ArithmeticFault} :
    (∃ other, (if fits then .ok result else .error fault : Except ArithmeticFault Fraction) =
      .error other) ↔ ¬ fits := by
  split_ifs with narrow <;> simp [narrow]

theorem yields_ofRatio (num den : ℕ) : Yields (ofRatio num den) (num / den) (den = 0) := by
  unfold ofRatio
  split_ifs with zero
  · refine ⟨fun _ outcome => ?_, by simp [zero]⟩
    cases outcome
  · refine ⟨fun result outcome => ?_, by simp [zero]⟩
    obtain rfl := Except.ok.inj outcome
    exact toRat_reduce num den zero

theorem yields_add (a b : Fraction) : Yields (a.add b) (a.toRat + b.toRat)
    (widthLimit < Nat.lcm a.den b.den ∨ widthLimit <
      a.num * (Nat.lcm a.den b.den / a.den) + b.num * (Nat.lcm a.den b.den / b.den)) where
  exact _ sum := (toRat_add sum).1
  refuses := by rw [add, isError_ite, not_and_or, not_le, not_le]

theorem yields_sub (a b : Fraction) : Yields (a.sub b) (a.toRat - b.toRat)
    (a.toRat < b.toRat ∨ widthLimit < Nat.lcm a.den b.den ∨
      widthLimit < a.num * (Nat.lcm a.den b.den / a.den)) where
  exact _ difference := (toRat_sub difference).1
  refuses := by
    rw [sub, ← lt_iff_toRat]
    by_cases negative : a < b
    · simp [negative]
    · rw [if_neg negative, isError_ite, not_and_or, not_le, not_le, or_iff_right negative]

/-- The product in lowest terms is the rational number in lowest terms. -/
theorem yields_mul (a b : Fraction) : Yields (a.mul b) (a.toRat * b.toRat)
    (widthLimit < (a.toRat * b.toRat).num ∨ widthLimit < (a.toRat * b.toRat).den) where
  exact _ product := (toRat_mul product).1
  refuses := by
    have same : a.toRat * b.toRat = (reduce (a.num * b.num) (a.den * b.den)
        (Nat.mul_ne_zero a.den_ne_zero b.den_ne_zero)).toRat := by
      rw [toRat_reduce, toRat_eq_div, toRat_eq_div, Nat.cast_mul, Nat.cast_mul, mul_div_mul_comm]
    rw [mul, isError_ite, not_and_or, not_le, not_le, same]
    exact or_congr_left Nat.cast_lt.symm

theorem toRat_mono : Monotone toRat := fun _ _ => le_iff_toRat.mp

theorem distance_comm (a b : Fraction) : a.distance b = b.distance a := by
  unfold distance
  by_cases left : b ≤ a <;> by_cases right : a ≤ b
  · rw [le_antisymm left right]
  · rw [if_pos left, if_neg right]
  · rw [if_neg left, if_pos right]
  · exact absurd (le_total a b) (not_or.mpr ⟨right, left⟩)

private theorem yields_distance_of_le (ordered : b ≤ a) :
    Yields (a.distance b) |a.toRat - b.toRat| (widthLimit < Nat.lcm a.den b.den ∨
      widthLimit < a.num * (Nat.lcm a.den b.den / a.den)) := by
  have notNegative : ¬ a.toRat < b.toRat := not_lt.mpr (le_iff_toRat.mp ordered)
  obtain ⟨exact, refuses⟩ := yields_sub a b
  rw [distance, if_pos ordered, abs_of_nonneg (sub_nonneg.mpr (le_iff_toRat.mp ordered))]
  exact ⟨exact, refuses.trans (or_iff_right notNegative)⟩

/-- A distance is refused when the greater fraction is too wide over the common denominator. -/
theorem yields_distance (a b : Fraction) : Yields (a.distance b) |a.toRat - b.toRat|
    (widthLimit < Nat.lcm a.den b.den ∨
      widthLimit < (max a b).num * (Nat.lcm a.den b.den / (max a b).den)) := by
  rcases le_total b a with ordered | ordered
  · rw [max_eq_left ordered]
    exact yields_distance_of_le ordered
  · rw [max_eq_right ordered, distance_comm, abs_sub_comm, Nat.lcm_comm]
    exact yields_distance_of_le ordered

theorem ceil?_eq (a : Fraction) :
    a.ceil? = if a.num + a.den ≤ widthLimit then some ⌈a.toRat⌉₊ else none := by
  suffices same : (a.num + a.den - 1) / a.den = ⌈a.toRat⌉₊ by rw [ceil?, same]
  have positive : 0 < a.den := Nat.pos_of_ne_zero a.den_ne_zero
  refine eq_of_forall_ge_iff fun n => ?_
  calc (a.num + a.den - 1) / a.den ≤ n
    _ ↔ a.num ≤ n * a.den := by
      rw [Nat.div_le_iff_le_mul_add_pred positive, mul_comm]
      omega
    _ ↔ a.toRat ≤ n := by
      rw [toRat_eq_div, div_le_iff₀ a.den_pos]
      exact_mod_cast Iff.rfl
    _ ↔ ⌈a.toRat⌉₊ ≤ n := Nat.ceil_le.symm

theorem floor_eq (a : Fraction) : a.floor = ⌊a.toRat⌋₊ := by
  rw [toRat_eq_div, Nat.floor_div_eq_div]
  rfl

private theorem toRat_foldlM_add {terms : List Fraction} {start total : Fraction}
    (outcome : terms.foldlM add start = .ok total) :
    total.toRat = start.toRat + (terms.map toRat).sum ∧
      (start.Representable → total.Representable) := by
  induction terms generalizing start with
  | nil =>
    cases outcome
    exact ⟨by simp, id⟩
  | cons term rest ih =>
    rw [List.foldlM_cons] at outcome
    obtain ⟨next, step, later⟩ := bind_eq_ok.mp outcome
    obtain ⟨exact, narrow⟩ := toRat_add step
    obtain ⟨value, fits⟩ := ih later
    refine ⟨?_, fun _ => fits narrow⟩
    rw [value, exact, List.map_cons, List.sum_cons, add_assoc]

/-- A list is summed up exactly, or some partial sum and the next term are refused. -/
theorem yields_sum (terms : List Fraction) : Yields (sum terms) (terms.map toRat).sum
    (∃ before term after partialSum, terms = before ++ term :: after ∧
      sum before = .ok partialSum ∧ ∃ fault, partialSum.add term = .error fault) where
  exact _ outcome := by rw [(toRat_foldlM_add outcome).1, toRat_zero, zero_add]
  refuses := by
    constructor
    · rintro ⟨fault, outcome⟩
      obtain ⟨before, term, after, middle, whole, passed, failed⟩ := foldlM_eq_error_iff.mp outcome
      exact ⟨before, term, after, middle, whole, passed, fault, failed⟩
    · rintro ⟨before, term, after, middle, whole, passed, fault, failed⟩
      exact ⟨fault, foldlM_eq_error_iff.mpr ⟨before, term, after, middle, whole, passed, failed⟩⟩

end Operations

/-- The fractions that the operations make of words. -/
inductive Built : Fraction → Prop
  | ratio {num den : ℕ} {result : Fraction} (numFits : num ≤ widthLimit)
      (denFits : den ≤ widthLimit) (outcome : ofRatio num den = .ok result) : Built result
  | integer {n : ℕ} (fits : n ≤ widthLimit) : Built (ofNat n)
  | sum {a b result : Fraction} (left : Built a) (right : Built b)
      (outcome : a.add b = .ok result) : Built result
  | difference {a b result : Fraction} (left : Built a) (right : Built b)
      (outcome : a.sub b = .ok result) : Built result
  | product {a b result : Fraction} (left : Built a) (right : Built b)
      (outcome : a.mul b = .ok result) : Built result
  | distance {a b result : Fraction} (left : Built a) (right : Built b)
      (outcome : a.distance b = .ok result) : Built result
  | total {terms : List Fraction} {result : Fraction} (each : ∀ term ∈ terms, Built term)
      (outcome : Fraction.sum terms = .ok result) : Built result
  | max {a b : Fraction} (left : Built a) (right : Built b) : Built (max a b)
  | min {a b : Fraction} (left : Built a) (right : Built b) : Built (min a b)

/-- What is built from words stays in words. -/
theorem Built.representable (built : Built a) : a.Representable := by
  induction built with
  | ratio numFits denFits outcome =>
    unfold ofRatio at outcome
    split_ifs at outcome with zero
    obtain rfl := Except.ok.inj outcome
    exact reduce_representable zero numFits denFits
  | integer fits => exact ⟨fits, show 1 ≤ widthLimit by decide⟩
  | sum _ _ outcome => exact (toRat_add outcome).2
  | difference _ _ outcome => exact (toRat_sub outcome).2
  | product _ _ outcome => exact (toRat_mul outcome).2
  | distance _ _ outcome =>
    unfold Fraction.distance at outcome
    split_ifs at outcome <;> exact (toRat_sub outcome).2
  | total _ outcome => exact (toRat_foldlM_add outcome).2 ⟨by decide, by decide⟩
  | @max a b _ _ left right =>
    change (if a ≤ b then b else a).Representable
    split_ifs <;> assumption
  | @min a b _ _ left right =>
    change (if a ≤ b then a else b).Representable
    split_ifs <;> assumption

/-- What two fractions have to do with the numbers that they denote. -/
structure Exact (a b : Fraction) : Prop where
  eq_iff : a = b ↔ a.toRat = b.toRat
  compare_eq : compare a b = compare a.toRat b.toRat
  le_iff : a ≤ b ↔ a.toRat ≤ b.toRat
  lt_iff : a < b ↔ a.toRat < b.toRat
  sum : Yields (a.add b) (a.toRat + b.toRat) (widthLimit < Nat.lcm a.den b.den ∨
    widthLimit < a.num * (Nat.lcm a.den b.den / a.den) + b.num * (Nat.lcm a.den b.den / b.den))
  difference : Yields (a.sub b) (a.toRat - b.toRat) (a.toRat < b.toRat ∨
    widthLimit < Nat.lcm a.den b.den ∨ widthLimit < a.num * (Nat.lcm a.den b.den / a.den))
  product : Yields (a.mul b) (a.toRat * b.toRat)
    (widthLimit < (a.toRat * b.toRat).num ∨ widthLimit < (a.toRat * b.toRat).den)
  distance : Yields (a.distance b) |a.toRat - b.toRat| (widthLimit < Nat.lcm a.den b.den ∨
    widthLimit < (max a b).num * (Nat.lcm a.den b.den / (max a b).den))
  symmetric : a.distance b = b.distance a
  greater : (max a b).toRat = max a.toRat b.toRat
  smaller : (min a b).toRat = min a.toRat b.toRat
  inWords : addInWords a b = (a.add b).toOption ∧ subInWords a b = (a.sub b).toOption ∧
    mulInWords a b = (a.mul b).toOption

/-- Fractions that are built from words are words in lowest terms. Each operation on any fractions
gives exactly the number that it stands for, or it is refused, and it is said when; no wider words
would help to compute it. -/
theorem arithmetic_is_exact :
    (∀ a, Built a → a.Representable ∧ a.den ≠ 0 ∧ Nat.Coprime a.num a.den) ∧
    (∀ num den : ℕ, Yields (ofRatio num den) (num / den) (den = 0)) ∧
    (∀ n : ℕ, (ofNat n).toRat = n) ∧
    (∀ a : Fraction, a.floor = ⌊a.toRat⌋₊) ∧
    (∀ terms, Yields (sum terms) (terms.map toRat).sum
      (∃ before term after partialSum, terms = before ++ term :: after ∧
        sum before = .ok partialSum ∧ ∃ fault, partialSum.add term = .error fault)) ∧
    ∀ a b, Exact a b := by
  refine ⟨fun a built => ⟨built.representable, a.den_ne_zero, a.reduced⟩, yields_ofRatio,
    toRat_ofNat, floor_eq, yields_sum, fun a b => ?_⟩
  exact {
    eq_iff := toRat_inj.symm
    compare_eq := compare_eq_toRat a b
    le_iff := le_iff_toRat
    lt_iff := lt_iff_toRat
    sum := yields_add a b
    difference := yields_sub a b
    product := yields_mul a b
    distance := yields_distance a b
    symmetric := distance_comm a b
    greater := toRat_mono.map_max
    smaller := toRat_mono.map_min
    inWords := ⟨addInWords_eq a b, subInWords_eq a b, mulInWords_eq a b⟩ }

end Knapsack.Fraction

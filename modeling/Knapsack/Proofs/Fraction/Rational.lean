import Mathlib
import Knapsack.Fraction

/-! # Fractions denote rational numbers

A fraction in lowest terms is a rational number, and its order is the numeric one. Every sum,
difference and product that comes out is exact. Over a common denominator `d` a sum is refused only
when its numerator over `d` is too wide, which is how the totals of a solution stay representable.
-/

namespace Knapsack.Fraction

/-- The rational number that a fraction denotes. -/
def toRat (a : Fraction) : ℚ where
  num := a.num
  den := a.den
  den_nz := a.den_ne_zero
  reduced := by simpa only [Int.natAbs_natCast] using a.reduced

theorem toRat_eq_div (a : Fraction) : a.toRat = a.num / a.den := (Rat.num_div_den a.toRat).symm

theorem toRat_injective : Function.Injective toRat := by
  rintro ⟨n, d, _, _⟩ ⟨n', d', _, _⟩ same
  have nums : (n : ℤ) = n' := congrArg Rat.num same
  obtain rfl : d = d' := congrArg Rat.den same
  obtain rfl : n = n' := by exact_mod_cast nums
  rfl

theorem toRat_inj {a b : Fraction} : a.toRat = b.toRat ↔ a = b := toRat_injective.eq_iff

theorem den_pos (a : Fraction) : (0 : ℚ) < a.den := by
  exact_mod_cast Nat.pos_of_ne_zero a.den_ne_zero

theorem toRat_nonneg (a : Fraction) : 0 ≤ a.toRat := by
  rw [toRat_eq_div]
  positivity

/-- Comparison by cross-multiplication is the comparison of the numbers. -/
theorem le_iff_toRat {a b : Fraction} : a ≤ b ↔ a.toRat ≤ b.toRat := by
  rw [toRat_eq_div, toRat_eq_div, div_le_div_iff₀ a.den_pos b.den_pos]
  change a.num * b.den ≤ b.num * a.den ↔ _
  exact_mod_cast Iff.rfl

theorem lt_iff_toRat {a b : Fraction} : a < b ↔ a.toRat < b.toRat := by
  rw [toRat_eq_div, toRat_eq_div, div_lt_div_iff₀ a.den_pos b.den_pos]
  change a.num * b.den < b.num * a.den ↔ _
  exact_mod_cast Iff.rfl

theorem compare_eq_toRat (a b : Fraction) : compare a b = compare a.toRat b.toRat := by
  change compare (a.num * b.den) (b.num * a.den) = _
  rcases lt_trichotomy a.toRat b.toRat with less | same | greater
  · rw [compare_lt_iff_lt.mpr less, compare_lt_iff_lt]
    exact lt_iff_toRat.mpr less
  · obtain rfl := toRat_injective same
    rw [compare_eq_iff_eq.mpr rfl, compare_eq_iff_eq.mpr rfl]
  · rw [compare_gt_iff_gt.mpr greater, compare_gt_iff_gt]
    exact lt_iff_toRat.mpr greater

instance : LinearOrder Fraction where
  le_refl _ := le_iff_toRat.mpr le_rfl
  le_trans _ _ _ first second :=
    le_iff_toRat.mpr ((le_iff_toRat.mp first).trans (le_iff_toRat.mp second))
  lt_iff_le_not_ge _ _ := by rw [lt_iff_toRat, le_iff_toRat, le_iff_toRat, lt_iff_le_not_ge]
  le_antisymm _ _ first second :=
    toRat_injective ((le_iff_toRat.mp first).antisymm (le_iff_toRat.mp second))
  le_total a b := (le_total a.toRat b.toRat).imp le_iff_toRat.mpr le_iff_toRat.mpr
  toDecidableLE := inferInstance
  toDecidableEq := inferInstance
  toDecidableLT := inferInstance
  compare_eq_compareOfLessAndEq a b := by
    rw [compare_eq_toRat, LinearOrder.compare_eq_compareOfLessAndEq]
    exact if_congr lt_iff_toRat.symm rfl (if_congr toRat_inj rfl rfl)

@[simp]
theorem toRat_reduce (num den : ℕ) (h : den ≠ 0) : (reduce num den h).toRat = num / den := by
  have positive : 0 < Nat.gcd num den := Nat.gcd_pos_of_pos_right num (Nat.pos_of_ne_zero h)
  have cast : (Nat.gcd num den : ℚ) ≠ 0 := by exact_mod_cast positive.ne'
  rw [toRat_eq_div]
  simp only [reduce]
  rw [Nat.cast_div (Nat.gcd_dvd_left num den) cast, Nat.cast_div (Nat.gcd_dvd_right num den) cast,
    div_div_div_cancel_right₀ cast]

@[simp]
theorem toRat_ofNat (n : ℕ) : (ofNat n).toRat = n := by
  rw [toRat_eq_div]
  simp [ofNat]

@[simp]
theorem toRat_zero : (0 : Fraction).toRat = 0 := (toRat_ofNat 0).trans Nat.cast_zero

@[simp]
theorem toRat_one : (1 : Fraction).toRat = 1 := (toRat_ofNat 1).trans Nat.cast_one

theorem reduce_den_dvd (num den : ℕ) (h : den ≠ 0) : (reduce num den h).den ∣ den :=
  Nat.div_dvd_of_dvd (Nat.gcd_dvd_right num den)

/-- An integer is a fraction of denominator one, and its numerator is the number. -/
theorem isInteger_iff {a : Fraction} : a.isInteger = true ↔ a = ofNat a.num := by
  constructor
  · intro integral
    obtain ⟨n, d, _, _⟩ := a
    obtain rfl : d = 1 := by simpa [isInteger] using integral
    rfl
  · intro same
    rw [same]
    rfl

/-- Between zero and one there are no other integers. -/
theorem eq_zero_or_one {a : Fraction} (integral : a.isInteger = true) (small : a ≤ 1) :
    a = 0 ∨ a = 1 := by
  have value := isInteger_iff.mp integral
  rw [le_iff_toRat, value, toRat_ofNat, toRat_one] at small
  have : a.num ≤ 1 := by exact_mod_cast small
  rw [value]
  interval_cases a.num
  · exact Or.inl rfl
  · exact Or.inr rfl

theorem widthLimit_eq : widthLimit = 2 ^ 128 - 1 := rfl

/-- A fraction whose two parts fit in 128 bits. -/
def Representable (a : Fraction) : Prop := a.num ≤ widthLimit ∧ a.den ≤ widthLimit

/-- What a representable fraction is not less than fits in 128 bits. -/
theorem Representable.le_widthLimit {a : Fraction} (narrow : a.Representable) {n : ℕ}
    (below : (n : ℚ) ≤ a.toRat) : n ≤ widthLimit := by
  have single : (1 : ℚ) ≤ a.den := by exact_mod_cast Nat.pos_of_ne_zero a.den_ne_zero
  have least : a.toRat ≤ a.num := by
    rw [toRat_eq_div]
    exact div_le_self (Nat.cast_nonneg _) single
  have bound : n ≤ a.num := by exact_mod_cast below.trans least
  exact bound.trans narrow.1

theorem reduce_representable {num den : ℕ} (h : den ≠ 0) (narrow : num ≤ widthLimit)
    (common : den ≤ widthLimit) : (reduce num den h).Representable :=
  ⟨(Nat.div_le_self _ _).trans narrow, (Nat.div_le_self _ _).trans common⟩

private theorem scaled_eq (a : Fraction) {common : ℕ} (divides : a.den ∣ common) :
    ((a.num * (common / a.den) : ℕ) : ℚ) = a.toRat * common := by
  rw [toRat_eq_div, Nat.cast_mul, Nat.cast_div divides a.den_pos.ne']
  ring

private theorem lcm_pos (a b : Fraction) : (0 : ℚ) < (Nat.lcm a.den b.den : ℕ) := by
  exact_mod_cast Nat.pos_of_ne_zero (Nat.lcm_ne_zero a.den_ne_zero b.den_ne_zero)

private theorem scaled_add (a b : Fraction) :
    ((a.num * (Nat.lcm a.den b.den / a.den) + b.num * (Nat.lcm a.den b.den / b.den) : ℕ) : ℚ) =
      (a.toRat + b.toRat) * (Nat.lcm a.den b.den : ℕ) := by
  rw [Nat.cast_add, scaled_eq a (Nat.dvd_lcm_left _ _), scaled_eq b (Nat.dvd_lcm_right _ _)]
  ring

/-- A sum that comes out is exact, and it is representable. -/
theorem toRat_add {a b c : Fraction} (sum : a.add b = .ok c) :
    c.toRat = a.toRat + b.toRat ∧ c.Representable := by
  simp only [add] at sum
  split_ifs at sum with fits
  obtain rfl := Except.ok.inj sum
  refine ⟨?_, reduce_representable _ fits.2 fits.1⟩
  rw [toRat_reduce, scaled_add, mul_div_cancel_right₀ _ (lcm_pos a b).ne']

theorem den_add_dvd {a b c : Fraction} {common : ℕ} (sum : a.add b = .ok c)
    (left : a.den ∣ common) (right : b.den ∣ common) : c.den ∣ common := by
  simp only [add] at sum
  split_ifs at sum
  obtain rfl := Except.ok.inj sum
  exact (reduce_den_dvd _ _ _).trans (Nat.lcm_dvd left right)

/-- Over a common denominator, a sum comes out when its numerator fits. -/
theorem add_isOk {a b : Fraction} {common : ℕ} (positive : 0 < common)
    (narrow : common ≤ widthLimit) (left : a.den ∣ common) (right : b.den ∣ common)
    (fits : (a.toRat + b.toRat) * common ≤ widthLimit) : ∃ c, a.add b = .ok c := by
  -- Over the least common denominator, the numerator can only be smaller.
  have least : Nat.lcm a.den b.den ≤ common := Nat.le_of_dvd positive (Nat.lcm_dvd left right)
  have scaled : a.num * (Nat.lcm a.den b.den / a.den) + b.num * (Nat.lcm a.den b.den / b.den) ≤
      widthLimit := by
    have bound : (a.toRat + b.toRat) * (Nat.lcm a.den b.den : ℕ) ≤
        (a.toRat + b.toRat) * common :=
      mul_le_mul_of_nonneg_left (by exact_mod_cast least)
        (add_nonneg a.toRat_nonneg b.toRat_nonneg)
    rw [← scaled_add] at bound
    exact_mod_cast bound.trans fits
  exact ⟨_, if_pos ⟨least.trans narrow, scaled⟩⟩

/-- Over the least common denominator, fractions compare by their numerators. -/
theorem scaled_le_scaled {a b : Fraction} (ordered : b ≤ a) :
    b.num * (Nat.lcm a.den b.den / b.den) ≤ a.num * (Nat.lcm a.den b.den / a.den) := by
  have : b.toRat * (Nat.lcm a.den b.den : ℕ) ≤ a.toRat * (Nat.lcm a.den b.den : ℕ) :=
    mul_le_mul_of_nonneg_right (le_iff_toRat.mp ordered) (lcm_pos a b).le
  rw [← scaled_eq a (Nat.dvd_lcm_left a.den b.den),
    ← scaled_eq b (Nat.dvd_lcm_right a.den b.den)] at this
  exact_mod_cast this

/-- A difference that comes out is exact, and it is representable. -/
theorem toRat_sub {a b c : Fraction} (difference : a.sub b = .ok c) :
    c.toRat = a.toRat - b.toRat ∧ c.Representable := by
  simp only [sub] at difference
  split_ifs at difference with negative fits
  obtain rfl := Except.ok.inj difference
  refine ⟨?_, reduce_representable _ ((Nat.sub_le _ _).trans fits.2) fits.1⟩
  rw [toRat_reduce, Nat.cast_sub (scaled_le_scaled (not_lt.mp negative)),
    scaled_eq a (Nat.dvd_lcm_left a.den b.den), scaled_eq b (Nat.dvd_lcm_right a.den b.den),
    ← sub_mul, mul_div_cancel_right₀ _ (lcm_pos a b).ne']

/-- A difference that is not negative comes out when the greater operand over the common
denominator fits. -/
theorem sub_isOk {a b : Fraction} (ordered : b ≤ a) {common : ℕ} (positive : 0 < common)
    (narrow : common ≤ widthLimit) (left : a.den ∣ common) (right : b.den ∣ common)
    (fits : a.toRat * common ≤ widthLimit) : ∃ c, a.sub b = .ok c := by
  have least : Nat.lcm a.den b.den ≤ common := Nat.le_of_dvd positive (Nat.lcm_dvd left right)
  have scaled : a.num * (Nat.lcm a.den b.den / a.den) ≤ widthLimit := by
    have bound : a.toRat * (Nat.lcm a.den b.den : ℕ) ≤ a.toRat * common :=
      mul_le_mul_of_nonneg_left (by exact_mod_cast least) a.toRat_nonneg
    rw [← scaled_eq a (Nat.dvd_lcm_left _ _)] at bound
    exact_mod_cast bound.trans fits
  exact ⟨_, (if_neg (not_lt.mpr ordered)).trans (if_pos ⟨least.trans narrow, scaled⟩)⟩

/-- A product that comes out is exact, and it is representable. -/
theorem toRat_mul {a b c : Fraction} (product : a.mul b = .ok c) :
    c.toRat = a.toRat * b.toRat ∧ c.Representable := by
  simp only [mul] at product
  split_ifs at product with fits
  obtain rfl := Except.ok.inj product
  refine ⟨?_, fits⟩
  rw [toRat_reduce, toRat_eq_div, toRat_eq_div, Nat.cast_mul, Nat.cast_mul, mul_div_mul_comm]

theorem den_mul_ofNat_dvd {a c : Fraction} {n : ℕ} (product : a.mul (ofNat n) = .ok c) :
    c.den ∣ a.den := by
  simp only [mul] at product
  split_ifs at product
  obtain rfl := Except.ok.inj product
  simpa only [ofNat, mul_one] using
    reduce_den_dvd (a.num * n) (a.den * 1) (Nat.mul_ne_zero a.den_ne_zero Nat.one_ne_zero)

/-- Scaling by an integer comes out when the numerator over the old denominator fits. -/
theorem mul_ofNat_isOk {a : Fraction} {n : ℕ} (narrow : a.den ≤ widthLimit)
    (fits : a.num * n ≤ widthLimit) : ∃ c, a.mul (ofNat n) = .ok c := by
  have common : a.den * (ofNat n).den ≤ widthLimit := by simpa only [ofNat, mul_one] using narrow
  exact ⟨_, if_pos ⟨(Nat.div_le_self _ _).trans fits, (Nat.div_le_self _ _).trans common⟩⟩

end Knapsack.Fraction

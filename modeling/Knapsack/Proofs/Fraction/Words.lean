import Knapsack.Fraction.Words
import Knapsack.Proofs.Fraction.Rational

/-! # Words are enough

Computing in words of 128 bits gives the sum, the difference and the product whenever these come
out, and nothing otherwise. Over the least common denominator no step is wider than what the sum
tests for. A product that was cancelled across is in lowest terms already, so no other way to
compute it gets along with smaller words.
-/

namespace Knapsack.Fraction

theorem inWord?_eq_some {n : ℕ} (fits : n ≤ widthLimit) : inWord? n = some n := if_pos fits

theorem inWord?_eq_none {n : ℕ} (wide : ¬ n ≤ widthLimit) : inWord? n = none := if_neg wide

/-- The least common denominator is tested first, and then each numerator over it. -/
theorem commonScale?_eq (a b : Fraction) : commonScale? a b =
    if Nat.lcm a.den b.den ≤ widthLimit ∧
        a.num * (Nat.lcm a.den b.den / a.den) ≤ widthLimit ∧
          b.num * (Nat.lcm a.den b.den / b.den) ≤ widthLimit then
      some (a.num * (Nat.lcm a.den b.den / a.den), b.num * (Nat.lcm a.den b.den / b.den),
        Nat.lcm a.den b.den)
    else none := by
  have common : a.den / Nat.gcd a.den b.den * b.den = Nat.lcm a.den b.den :=
    Nat.div_mul_right_comm (Nat.gcd_dvd_left _ _) _
  simp only [commonScale?, common, mul_comm _ a.num, mul_comm _ b.num, inWord?]
  split_ifs <;> simp_all

/-- A sum that fits has parts that fit. -/
theorem addInWords_eq (a b : Fraction) : addInWords a b = (a.add b).toOption := by
  have nonzero := Nat.lcm_ne_zero a.den_ne_zero b.den_ne_zero
  simp only [addInWords, commonScale?_eq, add]
  generalize a.num * (Nat.lcm a.den b.den / a.den) = left
  generalize b.num * (Nat.lcm a.den b.den / b.den) = right
  by_cases fits : Nat.lcm a.den b.den ≤ widthLimit ∧ left + right ≤ widthLimit
  · have parts : left ≤ widthLimit ∧ right ≤ widthLimit := by omega
    rw [if_pos fits, if_pos ⟨fits.1, parts⟩]
    simp [inWord?_eq_some fits.2, ofRatio, nonzero]
  · rw [if_neg fits]
    split_ifs with narrow
    · have wide : ¬ left + right ≤ widthLimit := fun fit => fits ⟨narrow.1, fit⟩
      simp [inWord?_eq_none wide, Except.toOption]
    · rfl

/-- Of two ordered fractions the smaller one fits when the greater one does. -/
theorem subInWords_eq (a b : Fraction) : subInWords a b = (a.sub b).toOption := by
  have nonzero := Nat.lcm_ne_zero a.den_ne_zero b.den_ne_zero
  simp only [subInWords, sub]
  by_cases negative : a < b
  · rw [if_pos negative, if_pos negative]
    rfl
  · rw [if_neg negative, if_neg negative, commonScale?_eq]
    have ordered := scaled_le_scaled (not_lt.mp negative)
    generalize a.num * (Nat.lcm a.den b.den / a.den) = left at ordered ⊢
    generalize b.num * (Nat.lcm a.den b.den / b.den) = right at ordered ⊢
    by_cases fits : Nat.lcm a.den b.den ≤ widthLimit ∧ left ≤ widthLimit
    · rw [if_pos fits, if_pos ⟨fits.1, fits.2, ordered.trans fits.2⟩]
      simp [ordered, ofRatio, nonzero]
    · rw [if_neg fits, if_neg fun narrow => fits ⟨narrow.1, narrow.2.1⟩]
      rfl

section Product

/-- The product, with each numerator cancelled against the denominator across. -/
def crossed (a b : Fraction) : Fraction where
  num := a.num / Nat.gcd a.num b.den * (b.num / Nat.gcd a.den b.num)
  den := a.den / Nat.gcd a.den b.num * (b.den / Nat.gcd a.num b.den)
  den_ne_zero := by
    have falling := Nat.gcd_pos_of_pos_right a.num (Nat.pos_of_ne_zero b.den_ne_zero)
    have rising := Nat.gcd_pos_of_pos_left b.num (Nat.pos_of_ne_zero a.den_ne_zero)
    have left := Nat.div_pos (Nat.gcd_le_left b.num (Nat.pos_of_ne_zero a.den_ne_zero)) rising
    have right := Nat.div_pos (Nat.gcd_le_right a.num (Nat.pos_of_ne_zero b.den_ne_zero)) falling
    exact (Nat.mul_pos left right).ne'
  reduced := by
    have falling := Nat.gcd_pos_of_pos_right a.num (Nat.pos_of_ne_zero b.den_ne_zero)
    have rising := Nat.gcd_pos_of_pos_left b.num (Nat.pos_of_ne_zero a.den_ne_zero)
    -- Each fraction is in lowest terms, and across the common factors are gone.
    have left : (a.num / Nat.gcd a.num b.den).Coprime (a.den / Nat.gcd a.den b.num) :=
      a.reduced.of_dvd (Nat.div_dvd_of_dvd (Nat.gcd_dvd_left _ _))
        (Nat.div_dvd_of_dvd (Nat.gcd_dvd_left _ _))
    have right : (b.num / Nat.gcd a.den b.num).Coprime (b.den / Nat.gcd a.num b.den) :=
      b.reduced.of_dvd (Nat.div_dvd_of_dvd (Nat.gcd_dvd_right _ _))
        (Nat.div_dvd_of_dvd (Nat.gcd_dvd_right _ _))
    have across : (a.num / Nat.gcd a.num b.den).Coprime (b.den / Nat.gcd a.num b.den) :=
      Nat.coprime_div_gcd_div_gcd falling
    have back : (b.num / Nat.gcd a.den b.num).Coprime (a.den / Nat.gcd a.den b.num) :=
      (Nat.coprime_div_gcd_div_gcd rising).symm
    exact .mul_left (.mul_right left across) (.mul_right back right)

/-- Cancelling across brings a product to lowest terms. -/
theorem crossed_eq (a b : Fraction) : crossed a b =
    reduce (a.num * b.num) (a.den * b.den) (Nat.mul_ne_zero a.den_ne_zero b.den_ne_zero) := by
  have falling : ((Nat.gcd a.num b.den : ℕ) : ℚ) ≠ 0 := by
    exact_mod_cast (Nat.gcd_pos_of_pos_right a.num (Nat.pos_of_ne_zero b.den_ne_zero)).ne'
  have rising : ((Nat.gcd a.den b.num : ℕ) : ℚ) ≠ 0 := by
    exact_mod_cast (Nat.gcd_pos_of_pos_left b.num (Nat.pos_of_ne_zero a.den_ne_zero)).ne'
  apply toRat_injective
  rw [toRat_reduce, toRat_eq_div]
  simp only [crossed, Nat.cast_mul]
  rw [Nat.cast_div (Nat.gcd_dvd_left a.num b.den) falling,
    Nat.cast_div (Nat.gcd_dvd_right a.num b.den) falling,
    Nat.cast_div (Nat.gcd_dvd_left a.den b.num) rising,
    Nat.cast_div (Nat.gcd_dvd_right a.den b.num) rising]
  have left := a.den_pos.ne'
  have right := b.den_pos.ne'
  field_simp

/-- In lowest terms there is nothing to reduce. -/
theorem reduce_self (a : Fraction) : reduce a.num a.den a.den_ne_zero = a := by
  apply toRat_injective
  rw [toRat_reduce, toRat_eq_div]

theorem mulInWords_eq (a b : Fraction) : mulInWords a b = (a.mul b).toOption := by
  simp only [mulInWords, mul, ← crossed_eq]
  by_cases zero : a.num = 0 ∨ b.num = 0
  · have nothing : crossed a b = 0 := by
      apply toRat_injective
      rw [crossed_eq, toRat_reduce, toRat_zero]
      rcases zero with left | right
      · simp [left]
      · simp [right]
    rw [if_pos zero, nothing]
    rfl
  · rw [if_neg zero]
    change ((inWord? (crossed a b).num).bind fun num => (inWord? (crossed a b).den).bind fun den =>
      (ofRatio num den).toOption) = _
    generalize crossed a b = product
    by_cases fits : product.num ≤ widthLimit ∧ product.den ≤ widthLimit
    · rw [if_pos fits, inWord?_eq_some fits.1, inWord?_eq_some fits.2]
      simp [ofRatio, product.den_ne_zero, reduce_self]
    · rw [if_neg fits]
      rcases not_and_or.mp fits with wide | wide
      · rw [inWord?_eq_none wide]
        rfl
      · rw [inWord?_eq_none wide]
        cases inWord? product.num <;> rfl

end Product

end Knapsack.Fraction

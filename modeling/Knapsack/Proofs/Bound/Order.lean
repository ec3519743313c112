import Knapsack.Bound
import Knapsack.Proofs.Fraction.Rational

/-! # The order of bounds

Bounds are linearly ordered: minus infinity, then the fractions, then plus infinity.
-/

namespace Knapsack.Bound

theorem negInfinity_le (b : Bound) : negInfinity ≤ b := trivial

@[simp]
theorem finite_le_finite {a b : Fraction} : finite a ≤ finite b ↔ a ≤ b := Iff.rfl

theorem finite_lt_finite {a b : Fraction} : finite a < finite b ↔ a < b := by
  rw [lt_iff_le_not_ge]
  exact Iff.rfl

instance : LinearOrder Bound where
  le_refl
    | .negInfinity => trivial
    | .finite value => le_refl value
    | .posInfinity => trivial
  le_trans a b c first second := by
    cases a <;> cases b <;> cases c <;> first
      | trivial
      | exact first.elim
      | exact second.elim
      | exact finite_le_finite.mpr
          ((finite_le_finite.mp first).trans (finite_le_finite.mp second))
  le_total a b := by
    cases a <;> cases b <;> first
      | exact Or.inl trivial
      | exact Or.inr trivial
      | exact le_total (α := Fraction) _ _
  le_antisymm a b first second := by
    cases a <;> cases b <;> first
      | rfl
      | exact first.elim
      | exact second.elim
      | exact congrArg finite
          ((finite_le_finite.mp first).antisymm (finite_le_finite.mp second))
  toDecidableLE := inferInstance
  toDecidableEq := inferInstance
  toDecidableLT := inferInstance
  compare_eq_compareOfLessAndEq a b := by
    cases a <;> cases b <;> try rfl
    rename_i a b
    change (if finite a < finite b then _ else if finite b < finite a then _ else _) =
      if finite a < finite b then _ else if finite a = finite b then _ else _
    simp only [finite_lt_finite, finite.injEq]
    rcases lt_trichotomy a b with less | rfl | greater
    · rw [if_pos less, if_pos less]
    · simp
    · rw [if_neg greater.not_gt, if_neg greater.not_gt, if_pos greater, if_neg greater.ne']

/-- A value that may be missing is below a bound when the value is, if there is one. -/
theorem ofValue?_le_iff {value? : Option Fraction} {b : Bound} :
    ofValue? value? ≤ b ↔ ∀ value, value? = some value → finite value ≤ b := by
  cases value? with
  | none =>
    constructor
    · intro _ value absent
      cases absent
    · intro _
      trivial
  | some value =>
    constructor
    · intro bound other same
      obtain rfl := Option.some.inj same
      exact bound
    · intro all
      exact all value rfl

end Knapsack.Bound

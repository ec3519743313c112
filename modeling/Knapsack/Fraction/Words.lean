import Knapsack.Fraction

/-! # Arithmetic in words

Fractions whose parts are words of 128 bits are added, subtracted and multiplied step by step. Every
intermediate result has to fit in a word; where one does not, there is no result.
-/

namespace Knapsack.Fraction

/-- A number that fits in a word. -/
def inWord? (n : Nat) : Option Nat := if n ≤ widthLimit then some n else none

/-- The numerators of two fractions over their least common denominator, and that denominator. -/
def commonScale? (a b : Fraction) : Option (Nat × Nat × Nat) := do
  let common ← inWord? (a.den / Nat.gcd a.den b.den * b.den)
  let left ← inWord? (common / a.den * a.num)
  let right ← inWord? (common / b.den * b.num)
  return (left, right, common)

/-- The sum over the least common denominator, brought to lowest terms in the end. -/
def addInWords (a b : Fraction) : Option Fraction := do
  let (left, right, common) ← commonScale? a b
  let total ← inWord? (left + right)
  (ofRatio total common).toOption

/-- The difference over the least common denominator; what would be negative is refused first. -/
def subInWords (a b : Fraction) : Option Fraction := do
  if a < b then none
  else
    let (left, right, common) ← commonScale? a b
    let rest ← if right ≤ left then some (left - right) else none
    (ofRatio rest common).toOption

/-- The product: each numerator is cancelled against the denominator across, and then the parts are
multiplied. -/
def mulInWords (a b : Fraction) : Option Fraction := do
  if a.num = 0 ∨ b.num = 0 then some 0
  else
    let falling := Nat.gcd a.num b.den
    let rising := Nat.gcd a.den b.num
    let num ← inWord? (a.num / falling * (b.num / rising))
    let den ← inWord? (a.den / rising * (b.den / falling))
    (ofRatio num den).toOption

end Knapsack.Fraction

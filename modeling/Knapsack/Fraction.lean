/-! # Non-negative fractions of bounded width

A fraction is stored in lowest terms, so that structural equality is numeric equality. Comparisons
are exact for all operands. Sums, differences and products are exact as well, but they are refused
when an intermediate result does not fit in 128 bits: a wrapped or rounded value never comes out.
-/

namespace Knapsack

/-- A non-negative rational number in lowest terms. -/
structure Fraction where
  num : Nat
  den : Nat
  den_ne_zero : den ≠ 0
  reduced : Nat.Coprime num den
deriving DecidableEq

/-- The operations that may fail to have a representable result. -/
inductive Operation where
  | sum
  | difference
  | product
deriving DecidableEq

/-- Why an operation on fractions has no result. -/
inductive ArithmeticFault where
  | zeroDenominator
  | tooWide (operation : Operation)
  | negative (minuend subtrahend : Fraction)
deriving DecidableEq

namespace Fraction

/-- The largest integer that fits in 128 bits. -/
def widthLimit : Nat := Nat.pow 2 128 - 1

/-- The fraction `num / den` brought to lowest terms. -/
def reduce (num den : Nat) (den_ne_zero : den ≠ 0) : Fraction where
  num := num / Nat.gcd num den
  den := den / Nat.gcd num den
  den_ne_zero := by
    have positive : 0 < den := Nat.pos_of_ne_zero den_ne_zero
    have divides : Nat.gcd num den ∣ den := Nat.gcd_dvd_right num den
    exact Nat.ne_of_gt (Nat.div_pos (Nat.le_of_dvd positive divides)
      (Nat.gcd_pos_of_pos_right num positive))
  reduced := Nat.coprime_div_gcd_div_gcd
    (Nat.gcd_pos_of_pos_right num (Nat.pos_of_ne_zero den_ne_zero))

/-- The fraction `num / den`, refused when the denominator is zero. -/
def ofRatio (num den : Nat) : Except ArithmeticFault Fraction :=
  if h : den = 0 then .error .zeroDenominator else .ok (reduce num den h)

/-- An integer is a fraction of denominator one. -/
def ofNat (n : Nat) : Fraction where
  num := n
  den := 1
  den_ne_zero := Nat.one_ne_zero
  reduced := Nat.coprime_one_right n

instance (n : Nat) : OfNat Fraction n := ⟨ofNat n⟩

instance : Inhabited Fraction := ⟨0⟩

/-- One half. -/
def half : Fraction where
  num := 1
  den := 2
  den_ne_zero := by decide
  reduced := by decide

def isInteger (a : Fraction) : Bool := a.den == 1

/-- The largest integer that is not greater than the fraction. -/
def floor (a : Fraction) : Nat := a.num / a.den

/-- The smallest integer that is not less than the fraction. It is found by adding up both parts,
and there is none when their sum does not fit. -/
def ceil? (a : Fraction) : Option Nat :=
  if a.num + a.den ≤ widthLimit then some ((a.num + a.den - 1) / a.den) else none

/-- Fractions are compared by cross-multiplication, which is exact for all operands. -/
instance : LE Fraction := ⟨fun a b => a.num * b.den ≤ b.num * a.den⟩

instance : LT Fraction := ⟨fun a b => a.num * b.den < b.num * a.den⟩

instance (a b : Fraction) : Decidable (a ≤ b) :=
  inferInstanceAs (Decidable (a.num * b.den ≤ b.num * a.den))

instance (a b : Fraction) : Decidable (a < b) :=
  inferInstanceAs (Decidable (a.num * b.den < b.num * a.den))

instance : Ord Fraction := ⟨fun a b => compare (a.num * b.den) (b.num * a.den)⟩

instance : Max Fraction := ⟨fun a b => if a ≤ b then b else a⟩

instance : Min Fraction := ⟨fun a b => if a ≤ b then a else b⟩

/-- The sum, computed over the least common denominator; both that denominator and the scaled
numerator have to fit, even when the sum in lowest terms is smaller. -/
def add (a b : Fraction) : Except ArithmeticFault Fraction :=
  let common := Nat.lcm a.den b.den
  let scaled := a.num * (common / a.den) + b.num * (common / b.den)
  if common ≤ widthLimit ∧ scaled ≤ widthLimit then
    .ok (reduce scaled common (Nat.lcm_ne_zero a.den_ne_zero b.den_ne_zero))
  else .error (.tooWide .sum)

/-- The difference of a fraction and one that is not greater, over the least common denominator. -/
def sub (a b : Fraction) : Except ArithmeticFault Fraction :=
  let common := Nat.lcm a.den b.den
  let minuend := a.num * (common / a.den)
  let subtrahend := b.num * (common / b.den)
  if a < b then .error (.negative a b)
  else if common ≤ widthLimit ∧ minuend ≤ widthLimit then
    .ok (reduce (minuend - subtrahend) common (Nat.lcm_ne_zero a.den_ne_zero b.den_ne_zero))
  else .error (.tooWide .difference)

/-- The product; only its value in lowest terms has to fit, because common factors are cancelled
before the numerators and the denominators are multiplied. -/
def mul (a b : Fraction) : Except ArithmeticFault Fraction :=
  let product := reduce (a.num * b.num) (a.den * b.den)
    (Nat.mul_ne_zero a.den_ne_zero b.den_ne_zero)
  if product.num ≤ widthLimit ∧ product.den ≤ widthLimit then .ok product
  else .error (.tooWide .product)

/-- The absolute difference of two fractions. -/
def distance (a b : Fraction) : Except ArithmeticFault Fraction :=
  if b ≤ a then a.sub b else b.sub a

/-- The sum of a list, accumulated from the left. -/
def sum (xs : List Fraction) : Except ArithmeticFault Fraction := xs.foldlM add 0

/-- Integers are written without a denominator. -/
def text (a : Fraction) : String :=
  if a.isInteger then toString a.num else s!"{a.num}/{a.den}"

instance : ToString Fraction := ⟨text⟩

end Fraction

/-- The noun that names the result of an operation. -/
def Operation.name : Operation → String
  | .sum => "sum"
  | .difference => "difference"
  | .product => "product"

def ArithmeticFault.message : ArithmeticFault → String
  | .zeroDenominator => "a fraction cannot have a zero denominator"
  | .tooWide operation => s!"the {operation.name} of two fractions cannot be represented exactly"
  | .negative minuend subtrahend =>
    s!"fractions are non-negative: {minuend} - {subtrahend} underflows"

end Knapsack

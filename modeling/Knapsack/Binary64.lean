import Knapsack.Bound

/-! # Double precision numbers, for reports

Exact values are only rounded when they are shown. A finite double is the product of a 53-bit
mantissa and a power of two, so its value is a ratio of natural numbers and every operation is one
rounding of an exact quotient. Negative numbers other than minus infinity never arise, because
fractions are not negative.
-/

namespace Knapsack

/-- A non-negative double, or an infinity; `finite m e` stands for `m * 2 ^ e`. -/
inductive Binary64 where
  | negInfinity
  | finite (mantissa : Nat) (exponent : Int)
  | posInfinity
deriving DecidableEq

namespace Binary64

/-- A double has 53 bits of precision. -/
def precision : Nat := 53

/-- The least exponent, which is that of the subnormal numbers. -/
def leastExponent : Int := -1074

/-- The greatest exponent of a finite double. -/
def greatestExponent : Int := 971

/-- The quotient rounded to the nearest integer; a tie goes to the even neighbour. -/
def roundDiv (num den : Nat) : Nat :=
  let quotient := num / den
  let remainder := num % den
  if den < 2 * remainder ∨ (den = 2 * remainder ∧ quotient % 2 = 1) then quotient + 1
  else quotient

/-- The ratio `num / den` times a power of two. -/
def scale (num den : Nat) (power : Int) : Nat × Nat :=
  (num * Nat.pow 2 power.toNat, den * Nat.pow 2 (-power).toNat)

/-- The double that represents `m * 2 ^ e` when `m` has at most 53 bits, or is `2 ^ 53`. -/
def normalize (mantissa : Nat) (exponent : Int) : Binary64 :=
  let (m, e) :=
    if mantissa = Nat.pow 2 precision then (Nat.pow 2 (precision - 1), exponent + 1)
    else (mantissa, exponent)
  if greatestExponent < e then .posInfinity else .finite m e

/-- The double that is nearest to `num / den`; a tie goes to the even mantissa. -/
def nearest (num den : Nat) : Binary64 :=
  if num = 0 then .finite 0 0
  else
    let guess : Int := (Nat.log2 num : Int) - Nat.log2 den - precision
    let (n, d) := scale num den (-guess)
    let tight : Int := if Nat.pow 2 precision ≤ n / d then guess + 1 else guess
    let exponent := max tight leastExponent
    let (n, d) := scale num den (-exponent)
    normalize (roundDiv n d) exponent

/-- The exact value of a finite double as a ratio of natural numbers. -/
def ratio? : Binary64 → Option (Nat × Nat)
  | .finite mantissa exponent => some (scale mantissa 1 exponent)
  | _ => none

def ofNat (n : Nat) : Binary64 := nearest n 1

/-- The nearest double to the exact product; infinities absorb. -/
def mul (x y : Binary64) : Binary64 :=
  match x.ratio?, y.ratio? with
  | some (a, b), some (c, d) => nearest (a * c) (b * d)
  | none, _ => x
  | _, none => y

/-- The nearest double to the exact quotient by a finite double. -/
def div (x y : Binary64) : Binary64 :=
  match x.ratio?, y.ratio? with
  | some (a, b), some (c, d) => if c = 0 then .posInfinity else nearest (a * d) (b * c)
  | none, _ => x
  | some _, none => .finite 0 0

/-- The nearest integer; a half goes up. -/
def round (x : Binary64) : Binary64 :=
  match x.ratio? with
  | some (a, b) => ofNat ((2 * a + b) / (2 * b))
  | none => x

/-- The value rounded to three decimals. -/
def toThousandths (x : Binary64) : Binary64 := ((x.mul (ofNat 1000)).round).div (ofNat 1000)

/-- The encoding of the double as a 64-bit word. -/
def bits : Binary64 → Nat
  | .negInfinity => 0xfff0000000000000
  | .posInfinity => 0x7ff0000000000000
  | .finite mantissa exponent =>
    let implicit := Nat.pow 2 (precision - 1)
    if mantissa < implicit then mantissa
    else (exponent - leastExponent + 1).toNat * implicit + (mantissa - implicit)

end Binary64

/-- The numerator and the denominator are rounded first, and then their quotient. -/
def Fraction.toBinary64 (a : Fraction) : Binary64 :=
  (Binary64.ofNat a.num).div (Binary64.ofNat a.den)

def Bound.toBinary64 : Bound → Binary64
  | .negInfinity => .negInfinity
  | .finite value => value.toBinary64
  | .posInfinity => .posInfinity

end Knapsack

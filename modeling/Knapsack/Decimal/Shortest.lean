import Knapsack.Binary64

/-! # The shortest decimal that reads back

Among the decimals that round to a given double, the ones with the fewest significant digits are
considered, and of these the one nearest to the double is chosen. The choice is made in exact
arithmetic on the interval of reals that round to the double.
-/

namespace Knapsack.Decimal

/-- The reals that round to a double, as multiples of a quarter of its last place: the interval
runs from `lower` to `upper`, with both ends when the mantissa is even. -/
structure Interval where
  lower : Nat
  value : Nat
  upper : Nat
  closed : Bool
deriving DecidableEq

/-- The interval of the double `m * 2 ^ e`, in units of `2 ^ (e - 2)`; below a power of two the
neighbour is only half as far away. -/
def Interval.ofMantissa (mantissa : Nat) (exponent : Int) : Interval :=
  let atPower := mantissa = Nat.pow 2 (Binary64.precision - 1) ∧ Binary64.leastExponent < exponent
  { lower := 4 * mantissa - (if atPower then 1 else 2)
    value := 4 * mantissa
    upper := 4 * mantissa + 2
    closed := mantissa % 2 = 0 }

/-- Whether `n / d`, in the units of the interval, lies in it. -/
def Interval.holds (interval : Interval) (n d : Nat) : Bool :=
  if interval.closed then interval.lower * d ≤ n ∧ n ≤ interval.upper * d
  else interval.lower * d < n ∧ n < interval.upper * d

/-- Significant digits and the power of ten of the last one. -/
structure Scientific where
  digits : Nat
  power : Int
deriving DecidableEq

/-- The multiple of a power of ten next to the value that reads back, the nearer one when both do;
a tie goes to the even multiple. -/
def onGrid? (interval : Interval) (exponent power : Int) : Option Scientific :=
  let unit : Int := exponent - 2
  -- One unit of the interval is `n / d` multiples of the power of ten.
  let n := Nat.pow 2 unit.toNat * Nat.pow 10 (-power).toNat
  let d := Nat.pow 2 (-unit).toNat * Nat.pow 10 power.toNat
  let below := interval.value * n / d
  let above := below + 1
  let fits (k : Nat) : Bool := interval.holds (k * d) n
  let twice := 2 * (interval.value * n)
  let middle := (below + above) * d
  if fits below ∧ fits above then
    if twice < middle ∨ (twice = middle ∧ below % 2 = 0) then some ⟨below, power⟩
    else some ⟨above, power⟩
  else if fits below then some ⟨below, power⟩
  else if fits above then some ⟨above, power⟩
  else none

/-- The decimal exponent of a positive ratio: the greatest `k` with `10 ^ k ≤ num / den`. Below one,
this asks for the least power of ten that `den / num` does not exceed. -/
def magnitude (num den : Nat) : Int :=
  if den ≤ num then ((toString (num / den)).length : Int) - 1
  else
    let inverse := (den + num - 1) / num
    Int.neg (toString (inverse - 1)).length

/-- The shortest decimal of a positive double: seventeen digits always suffice. -/
def shortest (mantissa : Nat) (exponent : Int) : Scientific :=
  let interval := Interval.ofMantissa mantissa exponent
  let (num, den) := Binary64.scale mantissa 1 exponent
  let leading := magnitude num den
  let candidates := (List.range 17).filterMap fun places : Nat =>
    onGrid? interval exponent (leading - places)
  candidates.headD ⟨0, 0⟩

/-- Trailing zeros carried by the digits move into the power of ten. -/
def Scientific.trim : Nat → Scientific → Scientific
  | 0, s => s
  | fuel + 1, s =>
    if s.digits ≠ 0 ∧ s.digits % 10 = 0 then Scientific.trim fuel ⟨s.digits / 10, s.power + 1⟩
    else s

/-- How a number is laid out: positional between two powers of ten, and scientific outside. -/
structure Layout where
  leastPositional : Int
  leastScientific : Int
deriving DecidableEq

/-- Numbers from `1e-5` up to `1e16` are positional and always show a decimal point. -/
def Layout.report : Layout := ⟨-5, 16⟩

/-- The text of a decimal; the exponent of the scientific form always has its sign. -/
def Scientific.text (layout : Layout) (s : Scientific) : String :=
  let digits := (toString s.digits).toList
  let exponent : Int := s.power + digits.length - 1
  if exponent < layout.leastPositional ∨ layout.leastScientific ≤ exponent then
    let fraction := digits.drop 1
    let mantissa := if fraction.isEmpty then digits else digits.take 1 ++ '.' :: fraction
    let sign := if exponent < 0 then "-" else "+"
    String.ofList mantissa ++ "e" ++ sign ++ toString exponent.natAbs
  else if 0 ≤ s.power then
    String.ofList (digits ++ List.replicate s.power.toNat '0') ++ ".0"
  else if 0 ≤ exponent then
    let whole := exponent.toNat + 1
    String.ofList (digits.take whole ++ '.' :: digits.drop whole)
  else "0." ++ String.ofList (List.replicate (-exponent - 1).toNat '0' ++ digits)

/-- The shortest text of a finite double, and nothing for an infinity. -/
def shortestText? : Binary64 → Option String
  | .finite mantissa exponent =>
    if mantissa = 0 then some "0.0"
    else some (((shortest mantissa exponent).trim 20).text .report)
  | _ => none

end Knapsack.Decimal

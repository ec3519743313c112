import Knapsack.Binary64

/-! # Decimals with a fixed number of places

A value is rounded to the given number of places once, on its exact binary value, and a tie goes to
the even neighbour.
-/

namespace Knapsack.Decimal

/-- Spaces are put in front of a text that is shorter than the given width. -/
def padLeft (width : Nat) (text : String) : String :=
  String.ofList (List.replicate (width - text.length) ' ') ++ text

/-- A count of units of the last place, written with a decimal point. -/
def placePoint (places units : Nat) : String :=
  let digits := (toString units).toList
  let padded := List.replicate (places + 1 - digits.length) '0' ++ digits
  let whole := padded.take (padded.length - places)
  let rest := padded.drop (padded.length - places)
  if places = 0 then String.ofList whole else String.ofList (whole ++ '.' :: rest)

/-- The nearest decimal with the given number of places. -/
def fixed (places : Nat) (x : Binary64) : String :=
  match x.ratio? with
  | some (num, den) => placePoint places (Binary64.roundDiv (num * Nat.pow 10 places) den)
  | none => if x = .negInfinity then "-inf" else "inf"

end Knapsack.Decimal

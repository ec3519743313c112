import Knapsack.Fraction

/-! # Bounds on the objective value

A bound is a fraction or one of two infinities: nothing has been found yet, or nothing is known yet.
-/

namespace Knapsack

/-- A bound on an objective value; every finite bound lies between the two infinities. -/
inductive Bound where
  | negInfinity
  | finite (value : Fraction)
  | posInfinity
deriving DecidableEq

namespace Bound

/-- The value of a finite bound. -/
def value? : Bound → Option Fraction
  | .finite value => some value
  | _ => none

def isFinite (b : Bound) : Bool := b.value?.isSome

/-- Finite bounds compare by their values. -/
protected def le : Bound → Bound → Prop
  | .negInfinity, _ => True
  | _, .posInfinity => True
  | .finite a, .finite b => a ≤ b
  | .finite _, .negInfinity => False
  | .posInfinity, .negInfinity => False
  | .posInfinity, .finite _ => False

/-- The strict order of `Bound.le`. -/
protected def lt (a b : Bound) : Prop := a.le b ∧ ¬ b.le a

instance : LE Bound := ⟨Bound.le⟩

instance : LT Bound := ⟨Bound.lt⟩

instance decidableLe : (a b : Bound) → Decidable (a ≤ b)
  | .negInfinity, _ => isTrue trivial
  | .finite _, .posInfinity => isTrue trivial
  | .posInfinity, .posInfinity => isTrue trivial
  | .finite a, .finite b => inferInstanceAs (Decidable (a ≤ b))
  | .finite _, .negInfinity => isFalse id
  | .posInfinity, .negInfinity => isFalse id
  | .posInfinity, .finite _ => isFalse id

instance (a b : Bound) : Decidable (a < b) := inferInstanceAs (Decidable (a ≤ b ∧ ¬ b ≤ a))

instance : Ord Bound := ⟨fun a b => if a < b then .lt else if b < a then .gt else .eq⟩

instance : Max Bound := ⟨fun a b => if a ≤ b then b else a⟩

instance : Min Bound := ⟨fun a b => if a ≤ b then a else b⟩

/-- A value that may be missing, as a lower bound: minus infinity when it is. -/
def ofValue? (value? : Option Fraction) : Bound := value?.elim .negInfinity .finite

def text : Bound → String
  | .negInfinity => "-inf"
  | .finite value => value.text
  | .posInfinity => "+inf"

instance : ToString Bound := ⟨text⟩

end Bound

end Knapsack

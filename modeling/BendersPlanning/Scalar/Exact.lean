import BendersPlanning.Scalar

/-!
# Exact numbers

Rational numbers with two infinities and a value that is not a number, which follow the rules of
doubles but never round. Zero has no sign; where the rules for doubles ask for one it counts as
positive. Statements about optima, cuts and bounds are read over these numbers.
-/

namespace BendersPlanning

/-- A rational number, an infinity, or no number. -/
inductive Exact where
  | number (q : Rat)
  | infinity
  | negInfinity
  | undefined
  deriving DecidableEq, Repr

namespace Exact

def neg : Exact → Exact
  | number q => number (-q)
  | infinity => negInfinity
  | negInfinity => infinity
  | undefined => undefined

/-- Opposite infinities have no sum. -/
def add : Exact → Exact → Exact
  | number a, number b => number (a + b)
  | undefined, _ | _, undefined => undefined
  | infinity, negInfinity | negInfinity, infinity => undefined
  | infinity, _ | _, infinity => infinity
  | negInfinity, _ | _, negInfinity => negInfinity

/-- An infinite value with the sign that a factor gives it; a factor of zero leaves no number. -/
def signed (factor : Rat) (infinite : Exact) : Exact :=
  if factor = 0 then undefined else if factor < 0 then infinite.neg else infinite

def mul : Exact → Exact → Exact
  | number a, number b => number (a * b)
  | undefined, _ | _, undefined => undefined
  | number a, x | x, number a => signed a x
  | infinity, x => x
  | negInfinity, x => x.neg

/-- A quotient by zero is infinite, except that of zero. -/
def div : Exact → Exact → Exact
  | number a, number b => if b = 0 then signed a infinity else number (a / b)
  | number _, infinity | number _, negInfinity => number 0
  | infinity, number b => if b < 0 then negInfinity else infinity
  | negInfinity, number b => if b < 0 then infinity else negInfinity
  | _, _ => undefined

/-- Whether one value is below another; no number is comparable with nothing. -/
def isBelow : Exact → Exact → Bool
  | number a, number b => decide (a < b)
  | number _, infinity | negInfinity, number _ | negInfinity, infinity => true
  | _, _ => false

/-- Equality of numbers; no number equals nothing, not even itself. -/
def isSame (x y : Exact) : Bool := x ≠ undefined && x = y

/-- Applies a rounding to a number and leaves the other values. -/
def rounded (f : Rat → Int) : Exact → Exact
  | number q => number (f q)
  | x => x

/-- The nearest whole number, halves away from zero. -/
def nearest (q : Rat) : Int := if q < 0 then (q - 1 / 2).ceil else (q + 1 / 2).floor

instance : Scalar Exact where
  add := add
  sub x y := add x y.neg
  mul := mul
  div := div
  neg := neg
  lt x y := isBelow x y = true
  le x y := isBelow x y = true ∨ isSame x y = true
  beq := isSame
  ofScientific m negative e := number (Rat.ofScientific m negative e)
  decidableLT _ _ := inferInstanceAs (Decidable (_ = true))
  decidableLE _ _ := inferInstanceAs (Decidable (_ ∨ _))
  infinity := infinity
  undefined := undefined
  floor := rounded Rat.floor
  ceil := rounded Rat.ceil
  round := rounded nearest
  ofInt i := number i

end Exact

end BendersPlanning

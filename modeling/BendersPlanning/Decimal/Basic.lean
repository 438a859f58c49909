/-!
# Decimals that stand for doubles

A finite double is a whole number times a power of two, so its decimal expansion and the set of
numbers that round to it are exact. `Decimal.shortest` picks, among the decimals that read back to
the same double, the one with the fewest digits and of those the nearest; `roundDiv` rounds a
quotient to the nearest whole number.
-/

namespace BendersPlanning

/-- The number `digits · 10 ^ exponent`. -/
structure Decimal where
  digits : Nat
  exponent : Int
  deriving DecidableEq, Repr

/-- The magnitude `significand · 2 ^ exponent` of a finite double. -/
structure BinaryMagnitude where
  significand : Nat
  exponent : Int
  deriving DecidableEq, Repr

/-- The leading bit of a significand, which is not stored. -/
def hiddenBit : Nat := 0x10000000000000

/-- The magnitude encoded by the bits of a double; infinities and undefined values have none. -/
def BinaryMagnitude.ofBits? (bits : UInt64) : Option BinaryMagnitude :=
  let fraction : Nat := bits.toNat % hiddenBit
  let scale : Nat := bits.toNat / hiddenBit % 2048
  if scale = 2047 then none
  else if scale = 0 then some ⟨fraction, -1074⟩
  else some ⟨hiddenBit + fraction, (scale : Int) - 1075⟩

/-- `numerator / denominator` to the nearest whole number, a half to the even neighbour. -/
def roundDiv (numerator denominator : Nat) : Nat :=
  let below := numerator / denominator
  let rest := 2 * (numerator % denominator)
  if rest < denominator then below
  else if denominator < rest then below + 1
  else below + below % 2

/-- Numerator and denominator of `n · base ^ e`. -/
def powerFraction (base n : Nat) (e : Int) : Nat × Nat :=
  if 0 ≤ e then (n * Nat.pow base e.toNat, 1) else (n, Nat.pow base (-e).toNat)

/-- The power of ten of the leading digit of a positive fraction. -/
def leadingExponent (numerator denominator : Nat) : Int :=
  if denominator ≤ numerator then ((toString (numerator / denominator)).length : Int) - 1
  else
    let places := (toString (denominator / numerator)).length
    if numerator * Nat.pow 10 (places - 1) = denominator then 1 - (places : Int) else -places

namespace Decimal

/-- The same number without zeros at its end; `fuel` bounds their count. -/
def strip : Nat → Decimal → Decimal
  | 0, d => d
  | fuel + 1, d =>
    if d.digits ≠ 0 ∧ d.digits % 10 = 0 then strip fuel ⟨d.digits / 10, d.exponent + 1⟩ else d

def leading (d : Decimal) : Int := d.exponent + ((toString d.digits).length : Int) - 1

/-- The point nearest to a magnitude on the grid of multiples of `10 ^ place`, if one of its two
neighbours there rounds to the magnitude. The numbers that do so reach half a step of the double
grid to each side, below the least significand of a scale only a quarter, and include their ends
for an even significand. -/
def nearestOnGrid? (x : BinaryMagnitude) (place : Int) : Option Decimal :=
  let narrow := x.significand = hiddenBit ∧ -1074 < x.exponent
  let (value, unit) := powerFraction 2 (4 * x.significand) (x.exponent - 2)
  let (low, _) := powerFraction 2 (4 * x.significand - if narrow then 1 else 2) (x.exponent - 2)
  let (high, _) := powerFraction 2 (4 * x.significand + 2) (x.exponent - 2)
  let (step, part) := powerFraction 10 1 place
  let inside (k : Nat) : Bool :=
    let point := k * step * unit
    if x.significand % 2 = 0 then low * part ≤ point && point ≤ high * part
    else low * part < point && point < high * part
  let below := value * part / (step * unit)
  let rest := 2 * (value * part - below * step * unit)
  let nearer := if rest < step * unit then below else if step * unit < rest then below + 1
    else below + below % 2
  let other := if nearer = below then below + 1 else below
  if inside nearer then some ⟨nearer, place⟩
  else if inside other then some ⟨other, place⟩
  else none

/-- The first of the grids with `count`, `count + 1`, … digits that holds a number reading back to
`x`. -/
def shortestFrom (x : BinaryMagnitude) (leading : Int) : Nat → Nat → Decimal
  | 0, _ => ⟨0, 0⟩
  | fuel + 1, count =>
    match nearestOnGrid? x (leading - count + 1) with
    | some d => d
    | none => shortestFrom x leading fuel (count + 1)

/-- The decimal with the fewest digits that reads back to `x`, the nearest of those. Seventeen
digits always suffice. -/
def shortest (x : BinaryMagnitude) : Decimal :=
  if x.significand = 0 then ⟨0, 0⟩
  else
    let (n, d) := powerFraction 2 x.significand x.exponent
    strip 20 (shortestFrom x (leadingExponent n d) 18 1)

/-- The double nearest to a decimal. Exponents beyond the range of doubles are answered without
computing their power. -/
def toFloat (negative : Bool) (d : Decimal) : Float :=
  let magnitude : Float :=
    if d.digits = 0 || d.leading < -400 then 0.0
    else if 400 < d.leading then 1.0 / 0.0
    else if 0 ≤ d.exponent then Float.ofScientific d.digits false d.exponent.toNat
    else Float.ofScientific d.digits true (-d.exponent).toNat
  if negative then -magnitude else magnitude

end Decimal

end BendersPlanning

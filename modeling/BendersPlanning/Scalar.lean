/-!
# Numbers of a planning model

Every definition of the library is written over a type of numbers `K` that has the four operations,
comparisons, roundings, an infinity and a value that is not a number. The program runs in double
precision; statements about optima and cuts are read over numbers without rounding. The same
definition serves both, so nothing is modelled twice.

A value that is not a number differs from itself and is neither below nor above anything.
-/

namespace BendersPlanning

/-- The arithmetic that models, cuts and solvers compute in. -/
class Scalar (K : Type) extends Add K, Sub K, Mul K, Div K, Neg K, LT K, LE K, BEq K,
    OfScientific K where
  decidableLT : DecidableLT K
  decidableLE : DecidableLE K
  infinity : K
  /-- The value that is not a number. -/
  undefined : K
  floor : K → K
  ceil : K → K
  /-- The nearest whole number, halves away from zero. -/
  round : K → K
  /-- The number nearest to a whole number. -/
  ofInt : Int → K

namespace Scalar

attribute [reducible, instance] decidableLT decidableLE

variable {K : Type} [Scalar K]

def abs (x : K) : K := if x < 0.0 then -x else x

/-- Whether a value is not a number: only such a value differs from itself. -/
def isUndefined (x : K) : Bool := !(x == x)

/-- Whether a value is a number of finite magnitude. -/
def isFinite (x : K) : Bool := decide (abs x < infinity)

/-- The larger of two values; one that is not a number gives way to the other. -/
def larger (x y : K) : K :=
  if isUndefined x then y else if isUndefined y then x else if x < y then y else x

/-- The smaller of two values; one that is not a number gives way to the other. -/
def smaller (x y : K) : K :=
  if isUndefined x then y else if isUndefined y then x else if y < x then y else x

/-- The sum of a list, added from the left. -/
def sum (xs : List K) : K := xs.foldl (· + ·) 0.0

/-- The entry of a point, and no number where the point has none: a point that is too short cannot
pass for a solution. -/
def entry (point : Array K) (index : Nat) : K := point[index]?.getD undefined

end Scalar

instance : Scalar Float where
  decidableLT := inferInstance
  decidableLE := inferInstance
  infinity := 1.0 / 0.0
  undefined := 0.0 / 0.0
  floor := Float.floor
  ceil := Float.ceil
  round := Float.round
  ofInt := Float.ofInt

end BendersPlanning

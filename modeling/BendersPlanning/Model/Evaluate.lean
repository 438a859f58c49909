import BendersPlanning.Model.Basic

/-!
# Models at a point

The objective value of a point and the amounts by which it leaves rows and bounds.
-/

namespace BendersPlanning

variable {K : Type} [Scalar K]

open Scalar (larger entry)

/-- The amount by which a point violates a row; zero where it holds. -/
def Constraint.violation (c : Constraint K) (point : Array K) : K :=
  let activity := c.expression.evaluate point
  match c.sense with
  | .atMost => larger (activity - c.rhs) 0.0
  | .atLeast => larger (c.rhs - activity) 0.0
  | .equal => Scalar.abs (activity - c.rhs)

/-- The amount by which a value leaves the bounds of a variable. -/
def Variable.violation (v : Variable K) (x : K) : K :=
  larger (larger (v.lowerBound - x) (x - v.upperBound)) 0.0

namespace Model

def quadraticValue (m : Model K) (point : Array K) : K :=
  m.quadratic.foldl (fun acc (v, w) => acc + w * entry point v * entry point v) 0.0

/-- The objective at a point, linear and constant parts first. -/
def objectiveValue (m : Model K) (point : Array K) : K :=
  m.objective.evaluate point + m.quadraticValue point

/-- The largest violation of a row, or of a bound by the entries that the point has. -/
def maxViolation (m : Model K) (point : Array K) : K :=
  let rows := m.constraints.foldl (fun acc c => larger acc (c.violation point)) 0.0
  let bounds := (m.vars.zip point).foldl (fun acc (v, x) => larger acc (v.violation x)) 0.0
  larger rows bounds

end Model

end BendersPlanning

import BendersPlanning.Conic.Program
import BendersPlanning.Model.Evaluate

/-!
# Continuous relaxations

A relaxation is a model without integrality under its own box of bounds and with some rows switched
off. It is turned into a conic program, one row per active constraint and per finite bound:

* `a·x = r` becomes `a·x + s = r` with `s = 0`, and `a·x ≤ r` the same with `s ≥ 0`;
* `a·x ≥ r` becomes `−a·x + s = −r`, a finite lower bound `−x + s = −l`, an upper bound `x + s = u`;
* a variable whose bounds agree becomes one equation.

With `σ = −1` for the reversed rows and `σ = 1` for the others, the shadow price of a constraint is
`−σ` times the multiplier of its row, and so is its part in a certificate of infeasibility.
-/

namespace BendersPlanning

/-- A model under a box, some of its rows switched off. -/
structure Relaxation (K : Type) where
  model : Model K
  lower : Array K
  upper : Array K
  active : Array Bool
  /-- Whether the objective is dropped. -/
  feasibilityOnly : Bool

structure ConicRow (K : Type) where
  /-- The constraint that the row stands for; none for a bound. -/
  constraint : Option Nat
  sign : K
  coefficients : List (Nat × K)
  b : K
  equality : Bool

namespace ConicRow

variable {K : Type} [Scalar K]

/-- The row of a constraint: coefficients merged, zeros left out, the constant moved to the right. -/
def ofConstraint (index : Nat) (c : Constraint K) : ConicRow K :=
  let sign : K := if c.sense = .atLeast then -1.0 else 1.0
  { constraint := some index
    sign := sign
    coefficients := (c.expression.coefficients.entries.filter fun e => !(e.2 == 0.0)).map
      fun e => (e.1, sign * e.2)
    b := sign * (c.rhs - c.expression.constant)
    equality := c.sense = .equal }

def ofBounds (index : Nat) (lower upper : K) : List (ConicRow K) :=
  if Scalar.isFinite lower && lower == upper then [⟨none, 1.0, [(index, 1.0)], lower, true⟩]
  else
    (if Scalar.isFinite lower then [⟨none, 1.0, [(index, -1.0)], -lower, false⟩] else []) ++
    (if Scalar.isFinite upper then [⟨none, 1.0, [(index, 1.0)], upper, false⟩] else [])

end ConicRow

namespace Relaxation

variable {K : Type} [Scalar K]

/-- The relaxation with the bounds of the model and all rows active. -/
def ofModel (m : Model K) : Relaxation K where
  model := m
  lower := m.vars.map (·.lowerBound)
  upper := m.vars.map (·.upperBound)
  active := Array.replicate m.constraints.size true
  feasibilityOnly := false

def box (r : Relaxation K) : List (K × K) := r.lower.toList.zip r.upper.toList

def isCrossed (r : Relaxation K) : Bool := r.box.any fun (l, u) => decide (u < l)

/-- The rows of the conic form: active constraints, then bounds by variable. -/
def rows (r : Relaxation K) : List (ConicRow K) :=
  (r.model.constraints.toList.zipIdx.filter fun (_, i) => r.active[i]?.getD false).map
      (fun (c, i) => .ofConstraint i c) ++
    r.box.zipIdx.flatMap fun ((l, u), j) => ConicRow.ofBounds j l u

/-- The linear part of the objective, one number per variable. -/
def linearCosts (r : Relaxation K) : Array K :=
  let zero := Array.replicate r.model.vars.size 0.0
  if r.feasibilityOnly then zero
  else r.model.objective.coefficients.entries.foldl (fun q (v, c) => q.modify v (· + c)) zero

/-- The weights of the squares, one number per variable. -/
def squareWeights (r : Relaxation K) : Array K :=
  let zero := Array.replicate r.model.vars.size 0.0
  if r.feasibilityOnly then zero
  else r.model.quadratic.foldl (fun q (v, w) => q.modify v (· + w)) zero

/-- The conic program of a relaxation. The diagonal of `P` carries a factor two, for the form halves
it. -/
def program (r : Relaxation K) : ConicProgram K :=
  let rows := r.rows
  { P := .ofColumns r.model.vars.size <|
      r.squareWeights.toList.zipIdx.map fun (w, j) => if 0.0 < w then [(j, 2.0 * w)] else []
    q := r.linearCosts
    A := .ofColumns rows.length <|
      (List.range r.model.vars.size).map fun j =>
        rows.zipIdx.flatMap fun (row, i) =>
          row.coefficients.filterMap fun (v, c) => if v = j then some (i, c) else none
    b := (rows.map (·.b)).toArray
    cones := rows.foldl (fun cones row => Cone.push cones row.equality) [] }

/-- The objective of a point, zero when the objective is dropped. -/
def objectiveAt (r : Relaxation K) (point : Array K) : K :=
  if r.feasibilityOnly then 0.0 else r.model.objectiveValue point

def optimum (r : Relaxation K) (point duals : Array K) (iterations : Nat) : Solution K where
  status := .optimal
  objective := r.objectiveAt point
  primal := point
  duals := duals
  certificate := none
  iterations := iterations

/-- One number per constraint, read from its row and the multiplier of the row; zero without a row. -/
def perConstraint (r : Relaxation K) (read : ConicRow K → K → K) (z : Array K) : Array K :=
  (r.rows.zip z.toList).foldl (fun out (row, x) =>
    match row.constraint with
    | some c => out.setIfInBounds c (read row x)
    | none => out) (Array.replicate r.model.constraints.size 0.0)

def prices (r : Relaxation K) (z : Array K) : Array K :=
  r.perConstraint (fun row x => -row.sign * x) z

/-- The certificate of multipliers `z` that no slack can balance, scaled so that the largest of them
is one. There is none unless the margin `−bᵀz` is positive. -/
def certificate? (r : Relaxation K) (z : Array K) : Option (Certificate K) :=
  let scale := z.foldl (fun acc x => Scalar.larger acc (Scalar.abs x)) 0.0
  if !(Scalar.isFinite scale && 0.0 < scale) then none
  else
    let margin := -Scalar.sum ((r.rows.zip z.toList).map fun (row, x) => row.b * x) / scale
    if !(Scalar.isFinite margin && 0.0 < margin) then none
    else some { ray := r.perConstraint (fun row x => -row.sign * x / scale) z, infeasibility := margin }

/-- A model without variables is feasible when its constants satisfy its rows, up to `1e-9`. -/
def solveWithoutVariables (r : Relaxation K) : Solution K :=
  let holds (row : ConicRow K) : Bool :=
    if row.equality then Scalar.abs row.b ≤ 1e-9 else -1e-9 ≤ row.b
  if r.rows.all holds then
    { status := .optimal
      objective := if r.feasibilityOnly then 0.0 else r.model.objective.constant
      primal := #[]
      duals := Array.replicate r.model.constraints.size 0.0
      certificate := none
      iterations := 0 }
  else .without .infeasible 0

/-- The minimum of a separable objective without any rows: each variable minimises its own part. -/
def solveWithoutRows (r : Relaxation K) : Solution K :=
  let best : K × K → Option K := fun (q, w) =>
    if 0.0 < w then some (-q / (2.0 * w)) else if q == 0.0 then some 0.0 else none
  match (r.linearCosts.toList.zip r.squareWeights.toList).mapM best with
  | some point => r.optimum point.toArray (Array.replicate r.model.constraints.size 0.0) 0
  | none => .without .unbounded 0

/-- Solves a relaxation. Crossed bounds, models without variables and models without rows have closed
forms; all else goes to the conic solver. -/
def solve (conic : ConicSolver K) (r : Relaxation K) (settings : SolverSettings K) : Solution K :=
  if r.isCrossed then .without .infeasible 0
  else if r.model.vars.isEmpty then r.solveWithoutVariables
  else if r.rows.isEmpty then r.solveWithoutRows
  else
    match conic r.program settings with
    | (.optimal x z, iterations) => r.optimum x (r.prices z) iterations
    | (.infeasible z, iterations) =>
      match r.certificate? z with
      | some certificate =>
        { Solution.without .infeasible iterations with certificate := some certificate }
      | none => .without .numericalFailure iterations
    | (.unbounded, iterations) => .without .unbounded iterations
    | (.limit, iterations) => .without .iterationLimit iterations
    | (.failed, iterations) => .without .numericalFailure iterations

end Relaxation

end BendersPlanning

import BendersPlanning.Model.Build

/-!
# Elastic models

Charging a penalty per unit of violation makes every row satisfiable: a row `≤` gets a slack column
that is subtracted, a row `≥` one that is added, an equation one of each. Rows and earlier variables
keep their positions.
-/

namespace BendersPlanning

variable {K : Type} [Scalar K]

/-- Kind and sign of the slack columns of a row. -/
def Sense.slackColumns : Sense → List (String × K)
  | .atMost => [("slack", -1.0)]
  | .atLeast => [("slack", 1.0)]
  | .equal => [("slack_pos", 1.0), ("slack_neg", -1.0)]

namespace Model

/-- Adds one slack column to a row and charges for it. -/
def addSlack (m : Model K) (penalty : K) (row : Nat) (name : String) (sign : K) :
    Except (ModelError K) (Model K × Nat) := do
  let (m, slack) ← m.addVariable (.continuous name (some 0.0) none)
  let addColumn (c : Constraint K) : Constraint K :=
    { c with expression := c.expression.addTerm slack sign }
  return ({ m with
    constraints := m.constraints.modify row addColumn
    objective := m.objective.addTerm slack penalty }, slack)

/-- The slack columns that all rows ask for: row, name, sign. -/
def slackPlan (m : Model K) : List (Nat × String × K) :=
  m.constraints.toList.zipIdx.flatMap fun (c, row) =>
    c.sense.slackColumns.map fun (kind, sign) => (row, s!"{kind}[{c.name}]", sign)

/-- Adds slack columns in order; at the first that is refused the earlier ones stay. -/
def addSlacks (penalty : K) : List (Nat × String × K) → Model K → Array Nat →
    Model K × Except (ModelError K) (Array Nat)
  | [], m, slacks => (m, .ok slacks)
  | (row, name, sign) :: rest, m, slacks =>
    match m.addSlack penalty row name sign with
    | .error e => (m, .error e)
    | .ok (m, slack) => addSlacks penalty rest m (slacks.push slack)

/-- Makes every row elastic at `penalty` per unit; answers the slack variables. When a slack cannot
be added, for its name is taken, those before it stay in the model. -/
def relaxWithPenalty (m : Model K) (penalty : K) :
    Model K × Except (ModelError K) (Array Nat) :=
  if Scalar.isFinite penalty && 0.0 < penalty then addSlacks penalty m.slackPlan m #[]
  else (m, .error (.invalid (.unusablePenalty penalty)))

end Model

end BendersPlanning

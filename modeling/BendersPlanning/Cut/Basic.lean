import BendersPlanning.Planning.Problem

/-!
# Cuts

An optimality cut bounds a cost proxy from below, `θ − Σ c·x ≥ rhs`; a feasibility cut excludes
investments that no operation can serve, `Σ c·x ≤ rhs`. Both speak of linking variables by name and
become rows of the planning model.
-/

namespace BendersPlanning

inductive CutKind where
  | optimality
  | feasibility
  deriving DecidableEq, Repr

/-- A linear condition on linking variables and, for optimality, on a cost proxy. -/
structure Cut (K : Type) where
  name : String
  kind : CutKind
  /-- The subproblem it came from; none for a cut on the cost of all. -/
  subproblem : Option Nat
  theta : Option Nat
  coefficients : SortedMap String K
  rhs : K
  deriving DecidableEq

variable {K : Type} [Scalar K]

/-- The sum of coefficients times values, in the order of the names; every name needs a value. -/
def weightedSum (coefficients values : SortedMap String K) : Except (RunError K) K :=
  coefficients.entries.foldlM (fun acc (name, c) =>
    match values.find? name with
    | some x => .ok (acc + c * x)
    | none => .error (.problem (.noValue name))) 0.0

namespace Cut

def linkingTerm (c : Cut K) (values : SortedMap String K) : Except (RunError K) K :=
  weightedSum c.coefficients values

/-- The amount by which linking values and a proxy value violate a cut. -/
def violation (c : Cut K) (values : SortedMap String K) (theta : K) : Except (RunError K) K := do
  let term ← c.linkingTerm values
  return match c.kind with
    | .optimality => Scalar.larger (c.rhs - (theta - term)) 0.0
    | .feasibility => Scalar.larger (term - c.rhs) 0.0

/-- The terms of a cut in the variables of the planning model; zero coefficients are left out. -/
def expression (c : Cut K) (p : PlanningProblem K) : Except (RunError K) (Expression K) :=
  let sign : K := match c.kind with
    | .optimality => -1.0
    | .feasibility => 1.0
  let start : Expression K := match c.theta with
    | some theta => .ofVariable theta
    | none => .zero
  c.coefficients.entries.foldlM (fun e (name, coefficient) =>
    if coefficient == 0.0 then .ok e
    else match p.model.variableNamed? name with
      | some v => .ok (e.addTerm v (sign * coefficient))
      | none => .error (.problem (.unknownInCut name))) start

def constraint (c : Cut K) (p : PlanningProblem K) : Except (RunError K) (Constraint K) := do
  let sense : Sense := match c.kind with
    | .optimality => .atLeast
    | .feasibility => .atMost
  return ⟨c.name, ← c.expression p, sense, c.rhs⟩

end Cut

namespace PlanningProblem

def addCut (p : PlanningProblem K) (c : Cut K) : Except (RunError K) (PlanningProblem K) := do
  let (model, _) ← (p.model.addConstraint (← c.constraint p)).mapError RunError.model
  return { p with model := model }

/-- Adds cuts in order; at the first that is refused the earlier ones stay. -/
def addCuts (p : PlanningProblem K) : List (Cut K) → PlanningProblem K × Except (RunError K) Unit
  | [] => (p, .ok ())
  | c :: rest =>
    match p.addCut c with
    | .ok p => p.addCuts rest
    | .error e => (p, .error e)

end PlanningProblem

end BendersPlanning

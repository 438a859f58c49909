import BendersPlanning.Backend
import BendersPlanning.Planning.Problem

/-!
# Solving the planning problem

A numerical failure, an iteration limit or a clearly negative capacity gets one second attempt with
more careful settings. A planning problem that stays unsolved is explained by conflicting rows where
the backend knows some.
-/

namespace BendersPlanning

variable {K : Type} [Scalar K] {m : Type → Type} [Monad m]

/-- A solve whose failure to run at all ends the decomposition. -/
def Backend.attempt (backend : Backend m K) (model : Model K) (settings : SolverSettings K) :
    ExceptT (RunError K) m (Solution K) :=
  ExceptT.mk do return (← backend.solve model settings).mapError RunError.model

/-- Whether a solve with such an ending is worth a second attempt. -/
def Status.isRetried : Status → Bool
  | .numericalFailure | .iterationLimit => true
  | _ => false

namespace PlanningProblem

/-- The first linking variable that may not be negative and clearly is. -/
def negativeCapacity? (p : PlanningProblem K) (linking : List String) (s : Solution K) :
    Option (String × K) :=
  linking.findSome? fun name => do
    let id ← p.model.variableNamed? name
    let v ← p.model.vars[id]?
    let x ← s.value? id
    if 0.0 ≤ v.lowerBound ∧ x < -1e-6 then some (name, x) else none

def isRetried (p : PlanningProblem K) (linking : List String) (s : Solution K) : Bool :=
  s.status.isRetried || (s.isOptimal && (p.negativeCapacity? linking s).isSome)

/-- Solves the planning problem and reads off the candidate. -/
def solve (backend : Backend m K) (p : PlanningProblem K) (linking : List String)
    (settings : SolverSettings K) : ExceptT (RunError K) m (Candidate K) := do
  let first ← backend.attempt p.model settings
  let s ← if p.isRetried linking first then
      backend.attempt p.model settings.numericallyFocused
    else pure first
  match s.status with
  | .optimal =>
    match p.negativeCapacity? linking s with
    | some (name, x) => throw (.planningFailed (.negative name x))
    | none => ExceptT.mk (pure (Candidate.ofPoint p linking s.primal s.objective))
  | .unbounded => throw (.planningFailed .unbounded)
  | status =>
    let conflicts ← backend.conflicts p.model settings
    throw (.planningInfeasible status (match conflicts with | .ok names => names | .error _ => none))

end PlanningProblem

end BendersPlanning

import BendersPlanning.Planning.Solve

/-!
# Projection onto a level set

The point that is evaluated next may be the one nearest to a centre among those whose planning
objective is at most `LB + γ · (UB − LB)`. That damps the swings of plain iterates. The parameter `γ`
may follow the progress of the bounds.
-/

namespace BendersPlanning

variable {K : Type} [Scalar K] {m : Type → Type} [Monad m]

namespace PlanningProblem

def levelName : String := "level_set"

def level (lowerBound upperBound gamma : K) : K :=
  lowerBound + gamma * Scalar.larger (upperBound - lowerBound) 0.0

/-- The objective `Σ (x_j − c_j)²` over the linking variables: linear part and weights. -/
def distanceTo (model : Model K) (linking : List String) (centre : SortedMap String K) :
    Except (RunError K) (Expression K × Array (Nat × K)) :=
  linking.foldlM (fun (e, weights) name =>
    match model.variableNamed? name with
    | none => .error (.problem (.unknownLink name))
    | some v =>
      match centre.find? name with
      | none => .error (.problem (.noCentre name))
      | some c =>
        .ok ((e.addTerm v (-2.0 * c)).addConstant (c * c), weights.push (v, 1.0)))
    (.zero, #[])

def projection (p : PlanningProblem K) (linking : List String) (centre : SortedMap String K)
    (level : K) : Except (RunError K) (Model K) := do
  let row : Constraint K := ⟨levelName, p.model.objective, .atMost, level⟩
  let (model, _) ← (p.model.addConstraint row).mapError RunError.model
  let (objective, weights) ← distanceTo model linking centre
  let model ← (model.setObjective objective).mapError RunError.model
  (model.setQuadratic weights).mapError RunError.model

/-- Projects a centre onto a level set; with `γ = 0` the planning problem itself is solved. -/
def project (backend : Backend m K) (p : PlanningProblem K) (linking : List String)
    (centre : Candidate K) (lowerBound upperBound gamma : K) (settings : SolverSettings K) :
    ExceptT (RunError K) m (Candidate K) := do
  if !(decide (0.0 ≤ gamma) && decide (gamma ≤ 1.0)) then
    throw (.configuration (.levelParameter gamma))
  else if gamma == 0.0 then
    p.solve backend linking settings
  else if !(Scalar.isFinite lowerBound && Scalar.isFinite upperBound) then
    throw (.problem (.levelBounds lowerBound upperBound))
  else
    let model ← ExceptT.mk (pure
      (p.projection linking centre.values (level lowerBound upperBound gamma)))
    let s ← backend.attempt model settings
    if s.isOptimal then ExceptT.mk (pure (Candidate.ofPoint p linking s.primal lowerBound))
    else throw (.stabilizationFailed s.status)

end PlanningProblem

/-- The least parameter that is used when it adapts. -/
def leastGamma : K := 1e-3

/-- The next parameter: doubled up to the configured one after an improvement, otherwise halved, and
zero below the least one. -/
def nextGamma (current configured : K) (improved : Bool) : K :=
  if configured ≤ 0.0 then 0.0
  else if improved then Scalar.smaller (Scalar.larger current leastGamma * 2.0) configured
  else
    let halved := current / 2.0
    if halved < leastGamma then 0.0 else halved

end BendersPlanning

import BendersPlanning.BranchAndBound
import BendersPlanning.ConflictSet

/-!
# The built-in solver

Continuous models are solved as conic programs, integer models by branch and bound over their
relaxations, and conflicts are found by deletion on feasibility problems.
-/

namespace BendersPlanning

variable {K : Type} [Scalar K]

namespace Model

def solve (conic : ConicSolver K) (m : Model K) (settings : SolverSettings K) : Solution K :=
  if m.hasInteger then
    m.branchAndBound settings fun node =>
      Relaxation.solve conic
        { Relaxation.ofModel m with lower := node.lower, upper := node.upper } settings
  else Relaxation.solve conic (.ofModel m) settings

/-- A set of rows that is infeasible on its own, if the continuous relaxation is infeasible. -/
def conflicts (conic : ConicSolver K) (m : Model K) (settings : SolverSettings K) :
    Option (List String) :=
  m.conflictSet? fun active =>
    (Relaxation.solve conic
      { Relaxation.ofModel m with active := active, feasibilityOnly := true } settings).status =
      .infeasible

end Model

def ConicSolver.backend {m : Type → Type} [Pure m] (conic : ConicSolver K) : Backend m K where
  solve model settings := pure (.ok (model.solve conic settings))
  conflicts model settings := pure (.ok (model.conflicts conic settings))

end BendersPlanning

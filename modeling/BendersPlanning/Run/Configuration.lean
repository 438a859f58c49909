import BendersPlanning.Backend
import BendersPlanning.Run.Error

/-!
# Run configurations

The limits, tolerances and switches of a decomposition run, and the ranges of their values.
-/

namespace BendersPlanning

structure Configuration (K : Type) where
  maxIter : Nat
  /-- Seconds, checked between iterations. -/
  maxCpuTime : K
  /-- Relative gap at which a run has converged. -/
  convTol : K
  /-- The level-set parameter between zero and one; zero switches the projection off. -/
  stabParam : K
  /-- Whether the level-set parameter follows the progress of the bounds. -/
  stabDynamic : Bool
  /-- Whether the planning variables keep their integrality. -/
  integerInvestment : Bool
  /-- Whether subproblems may be evaluated concurrently, which changes no result. -/
  distributed : Bool
  /-- Whether subproblems without a slack penalty get an automatic one. -/
  automaticSlackPenalty : Bool
  /-- Threads of a distributed run, zero for one per core. -/
  threads : Nat
  solver : SolverSettings K
  deriving BEq, DecidableEq, Repr

namespace Configuration

variable {K : Type} [Scalar K]

def default : Configuration K where
  maxIter := 50
  maxCpuTime := 7200.0
  convTol := 1e-3
  stabParam := 0.0
  stabDynamic := false
  integerInvestment := false
  distributed := false
  automaticSlackPenalty := false
  threads := 0
  solver := .default

instance : Inhabited (Configuration K) := ⟨default⟩

def fault? (c : Configuration K) : Option (ConfigurationFault K) :=
  if c.maxIter = 0 then some .noIterations
  else if Scalar.isUndefined c.maxCpuTime || c.maxCpuTime ≤ 0.0 then some (.cpuTime c.maxCpuTime)
  else if !(Scalar.isFinite c.convTol && 0.0 < c.convTol) then some (.tolerance c.convTol)
  else if !(decide (0.0 ≤ c.stabParam) && decide (c.stabParam ≤ 1.0)) then
    some (.stabilization c.stabParam)
  else if c.solver.maxIter = 0 || c.solver.maxNodes = 0 then some .solverLimits
  else none

def validate (c : Configuration K) : Except (RunError K) Unit :=
  match c.fault? with
  | some fault => .error (.configuration fault)
  | none => .ok ()

end Configuration

end BendersPlanning

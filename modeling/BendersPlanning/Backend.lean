import BendersPlanning.Solution
import BendersPlanning.Model.Error

/-!
# Settings and solvers

A `Backend` is whatever answers solves: its replies are effects in a monad, so that one definition of
the decomposition runs on a solver, on recorded replies and on arbitrary ones.
-/

namespace BendersPlanning

structure SolverSettings (K : Type) where
  verbose : Bool
  /-- Iterations per continuous solve. -/
  maxIter : Nat
  /-- Seconds per continuous solve. -/
  timeLimit : Option K
  tolGapAbs : K
  tolGapRel : K
  tolFeas : K
  presolve : Bool
  equilibrate : Bool
  /-- Branch-and-bound nodes per integer solve. -/
  maxNodes : Nat
  /-- Distance from a whole number up to which a value counts as whole. -/
  integralityTol : K
  deriving BEq, DecidableEq, Repr

namespace SolverSettings

variable {K : Type} [Scalar K]

def default : SolverSettings K where
  verbose := false
  maxIter := 200
  timeLimit := none
  tolGapAbs := 1e-8
  tolGapRel := 1e-8
  tolFeas := 1e-8
  presolve := true
  equilibrate := true
  maxNodes := 10000
  integralityTol := 1e-6

instance : Inhabited (SolverSettings K) := ⟨default⟩

/-- The settings of a second attempt after numerical trouble: more iterations, tighter tolerances, no
presolve. -/
def numericallyFocused (s : SolverSettings K) : SolverSettings K :=
  { s with
    maxIter := max s.maxIter 500
    tolGapAbs := Scalar.smaller s.tolGapAbs 1e-9
    tolGapRel := Scalar.smaller s.tolGapRel 1e-9
    tolFeas := Scalar.smaller s.tolFeas 1e-9
    presolve := false
    equilibrate := true }

/-- Two iterations, or no time at all, are too little for any iterative solve. -/
def tooShort (s : SolverSettings K) : Bool := s.maxIter ≤ 2 || s.timeLimit.any (· ≤ 0.0)

end SolverSettings

/-- A source of solutions. -/
structure Backend (m : Type → Type) (K : Type) where
  solve : Model K → SolverSettings K → m (Except (ModelError K) (Solution K))
  /-- Names of rows that are infeasible on their own, where such a set is known. -/
  conflicts : Model K → SolverSettings K → m (Except (ModelError K) (Option (List String)))

end BendersPlanning

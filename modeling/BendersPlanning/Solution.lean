import BendersPlanning.Model.Basic

/-!
# Outcomes of a solve

A `Solution` says how a solve ended and carries what that ending provides: a point and shadow prices
for an optimum, a certificate for an infeasible continuous model.
-/

namespace BendersPlanning

inductive Status where
  | optimal
  | infeasible
  | unbounded
  | iterationLimit
  | numericalFailure
  deriving DecidableEq, Repr

def Status.label : Status → String
  | optimal => "optimal"
  | infeasible => "infeasible"
  | unbounded => "unbounded"
  | iterationLimit => "iteration_limit"
  | numericalFailure => "numerical_failure"

/-- Proof of infeasibility in terms of right-hand sides: the affine function with value
`infeasibility` at the solved right-hand sides and slope `ray` is positive there, and not positive at
right-hand sides that some point satisfies. -/
structure Certificate (K : Type) where
  ray : Array K
  infeasibility : K
  deriving DecidableEq, Repr

structure Solution (K : Type) where
  status : Status
  /-- Objective with constants; not a number unless optimal. -/
  objective : K
  /-- Values by variable; empty unless optimal. -/
  primal : Array K
  /-- Change of the objective per unit of right-hand side, by row; empty for integer models. -/
  duals : Array K
  certificate : Option (Certificate K)
  iterations : Nat
  deriving DecidableEq, Repr

namespace Solution

variable {K : Type}

def without [Scalar K] (status : Status) (iterations : Nat) : Solution K where
  status := status
  objective := Scalar.undefined
  primal := #[]
  duals := #[]
  certificate := none
  iterations := iterations

def isOptimal (s : Solution K) : Bool := s.status = .optimal

def value? (s : Solution K) (variableId : Nat) : Option K := s.primal[variableId]?

/-- The value of the variable that a model has under a name. -/
def valueNamed? (s : Solution K) (m : Model K) (name : String) : Option K :=
  (m.variableNamed? name).bind s.value?

def dual? (s : Solution K) (constraintId : Nat) : Option K := s.duals[constraintId]?

end Solution

end BendersPlanning

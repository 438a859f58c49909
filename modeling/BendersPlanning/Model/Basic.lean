import BendersPlanning.Expression

/-!
# Linear models with a diagonal quadratic objective

A model minimises a linear expression plus a weighted sum of squares over named variables with
bounds, subject to named linear rows. It also carries named expressions, which callers evaluate on
a solution. Variables and rows are referred to by their positions.
-/

namespace BendersPlanning

/-- The relation of a row's expression to its right-hand side. -/
inductive Sense where
  | atMost
  | atLeast
  | equal
  deriving DecidableEq, Repr

namespace Sense

def symbol : Sense → String
  | .atMost => "<="
  | .atLeast => ">="
  | .equal => "=="

end Sense

/-- A decision variable; a missing bound leaves that side free. -/
structure Variable (K : Type) where
  name : String
  lower : Option K
  upper : Option K
  integer : Bool
  deriving DecidableEq, Repr

namespace Variable

variable {K : Type} [Scalar K]

def continuous (name : String) (lower upper : Option K) : Variable K := ⟨name, lower, upper, false⟩

def binary (name : String) : Variable K := ⟨name, some 0.0, some 1.0, true⟩

def lowerBound (v : Variable K) : K := v.lower.getD (-Scalar.infinity)

def upperBound (v : Variable K) : K := v.upper.getD Scalar.infinity

end Variable

/-- A named row `expression {≤, ≥, =} rhs`. -/
structure Constraint (K : Type) where
  name : String
  expression : Expression K
  sense : Sense
  rhs : K
  deriving DecidableEq, Repr

/-- A minimisation model. -/
structure Model (K : Type) where
  vars : Array (Variable K)
  constraints : Array (Constraint K)
  objective : Expression K
  /-- Weights `w` of the objective terms `w · x²`. -/
  quadratic : Array (Nat × K)
  expressions : SortedMap String (Expression K)
  deriving DecidableEq

namespace Model

variable {K : Type}

def empty [Scalar K] : Model K := ⟨#[], #[], .zero, #[], .empty⟩

instance [Scalar K] : Inhabited (Model K) := ⟨empty⟩

def variableNamed? (m : Model K) (name : String) : Option Nat :=
  m.vars.findIdx? (·.name == name)

def constraintNamed? (m : Model K) (name : String) : Option Nat :=
  m.constraints.findIdx? (·.name == name)

def hasInteger (m : Model K) : Bool := m.vars.any (·.integer)

end Model

end BendersPlanning

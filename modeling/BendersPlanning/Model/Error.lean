import BendersPlanning.Decimal.Layout

/-!
# What can be wrong with a model

Causes are kept apart from their wording: `ModelError.message` is the only place where the text of a
refusal is written.
-/

namespace BendersPlanning

/-- Why a model cannot take an edit. -/
inductive ModelFault (K : Type) where
  | unnamedVariable
  | duplicateVariable (name : String)
  | inconsistentBounds (name : String) (lower upper : K)
  | unnamedConstraint
  | duplicateConstraint (name : String)
  | nonFiniteRhs (constraint : String)
  | variableOutOfRange (context : String) (variableId count : Nat)
  | nonFiniteCoefficient (context : String) (variableId : Nat)
  | nonFiniteConstant (context : String)
  | nonConvexWeight (variableId : Nat) (weight : K)
  | nonFiniteNewRhs (constraintId : Nat) (rhs : K)
  | unusablePenalty (penalty : K)
  /-- A fault in the words of a solver. -/
  | reported (text : String)
  deriving DecidableEq, Repr

/-- Errors of building a model and of running a solver on it. -/
inductive ModelError (K : Type) where
  | invalid (fault : ModelFault K)
  | unknownVariable (name : String)
  | unknownConstraint (name : String)
  | backend (text : String)
  | parse (text : String)
  deriving DecidableEq, Repr

/-- How a variable is quoted by position. -/
def variableLabel (variableId : Nat) : String := s!"x{variableId}"

/-- How a row is quoted by position. -/
def constraintLabel (constraintId : Nat) : String := s!"c{constraintId}"

variable {K : Type} [NumberText K]

open NumberText (plain)

def ModelFault.message : ModelFault K → String
  | unnamedVariable => "variable name is empty"
  | duplicateVariable name => s!"duplicate variable name '{name}'"
  | inconsistentBounds name lower upper =>
    s!"variable '{name}' has inconsistent bounds [{plain lower}, {plain upper}]"
  | unnamedConstraint => "constraint name is empty"
  | duplicateConstraint name => s!"duplicate constraint name '{name}'"
  | nonFiniteRhs constraint => s!"constraint '{constraint}' has non-finite right-hand side"
  | variableOutOfRange context v count =>
    s!"'{context}' references {variableLabel v} but the model has {count} variables"
  | nonFiniteCoefficient context v =>
    s!"'{context}' has a non-finite coefficient on {variableLabel v}"
  | nonFiniteConstant context => s!"'{context}' has a non-finite constant"
  | nonConvexWeight v weight =>
    s!"quadratic weight {plain weight} on {variableLabel v} would make the objective non-convex"
  | nonFiniteNewRhs c rhs => s!"non-finite right-hand side {plain rhs} for {constraintLabel c}"
  | unusablePenalty penalty => s!"slack penalty must be positive and finite, got {plain penalty}"
  | reported text => text

def ModelError.message : ModelError K → String
  | invalid fault => "Invalid model: " ++ fault.message
  | unknownVariable name => "Unknown variable: " ++ name
  | unknownConstraint name => "Unknown constraint: " ++ name
  | backend text => "Backend error: " ++ text
  | parse text => "Parse error: " ++ text

end BendersPlanning

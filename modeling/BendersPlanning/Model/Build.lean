import BendersPlanning.Model.Basic
import BendersPlanning.Model.Error

/-!
# Building models

Every edit checks its argument and answers either the changed model or the first fault, and then the
model is as it was. `Model.ofParts` builds a model from its parts by the same edits, so a model that
was read from outside meets the conditions of one built here.
-/

namespace BendersPlanning

variable {K : Type} [Scalar K]

open Scalar (isFinite isUndefined)

/-- The first fault of an expression over `count` variables: a term on no variable or with a
coefficient that is not finite, then the constant. -/
def Expression.fault? (e : Expression K) (count : Nat) (context : String) : Option (ModelFault K) :=
  let termFault : Nat × K → Option (ModelFault K) := fun (v, c) =>
    if count ≤ v then some (.variableOutOfRange context v count)
    else if isFinite c then none
    else some (.nonFiniteCoefficient context v)
  (e.terms.findSome? termFault).or <|
    if isFinite e.constant then none else some (.nonFiniteConstant context)

namespace Model

def checkExpression (m : Model K) (e : Expression K) (context : String) :
    Except (ModelError K) Unit :=
  match e.fault? m.vars.size context with
  | some fault => .error (.invalid fault)
  | none => .ok ()

/-- Adds a variable with a new name and ordered bounds, and answers its position. -/
def addVariable (m : Model K) (v : Variable K) : Except (ModelError K) (Model K × Nat) :=
  if v.name.isEmpty then .error (.invalid .unnamedVariable)
  else if (m.variableNamed? v.name).isSome then .error (.invalid (.duplicateVariable v.name))
  else if isUndefined v.lowerBound || isUndefined v.upperBound || v.upperBound < v.lowerBound then
    .error (.invalid (.inconsistentBounds v.name v.lowerBound v.upperBound))
  else .ok ({ m with vars := m.vars.push v }, m.vars.size)

/-- Adds a row with a new name over existing variables, and answers its position. -/
def addConstraint (m : Model K) (c : Constraint K) : Except (ModelError K) (Model K × Nat) :=
  if c.name.isEmpty then .error (.invalid .unnamedConstraint)
  else if (m.constraintNamed? c.name).isSome then .error (.invalid (.duplicateConstraint c.name))
  else if !isFinite c.rhs then .error (.invalid (.nonFiniteRhs c.name))
  else do
    m.checkExpression c.expression c.name
    return ({ m with constraints := m.constraints.push c }, m.constraints.size)

def setObjective (m : Model K) (e : Expression K) : Except (ModelError K) (Model K) := do
  m.checkExpression e "objective"
  return { m with objective := e }

/-- Replaces the quadratic part; weights are finite and not negative. -/
def setQuadratic (m : Model K) (weights : Array (Nat × K)) : Except (ModelError K) (Model K) :=
  let fault : Nat × K → Option (ModelError K) := fun (v, w) =>
    if m.vars.size ≤ v then some (.unknownVariable (variableLabel v))
    else if !isFinite w || w < 0.0 then some (.invalid (.nonConvexWeight v w))
    else none
  match weights.findSome? fault with
  | some error => .error error
  | none => .ok { m with quadratic := weights }

def addExpression (m : Model K) (name : String) (e : Expression K) :
    Except (ModelError K) (Model K) := do
  m.checkExpression e name
  return { m with expressions := m.expressions.insert name e }

def setRhs (m : Model K) (constraintId : Nat) (rhs : K) : Except (ModelError K) (Model K) :=
  if !isFinite rhs then .error (.invalid (.nonFiniteNewRhs constraintId rhs))
  else match m.constraints[constraintId]? with
    | none => .error (.unknownConstraint (constraintLabel constraintId))
    | some _ =>
      .ok { m with constraints := m.constraints.modify constraintId ({ · with rhs := rhs }) }

def relaxIntegrality (m : Model K) : Model K :=
  { m with vars := m.vars.map ({ · with integer := false }) }

def integerCount (m : Model K) : Nat := m.vars.countP (·.integer)

/-- The model with the given parts, added one after the other: variables, rows, objective,
quadratic part, named expressions in the order of their names. -/
def ofParts (vars : Array (Variable K)) (constraints : Array (Constraint K))
    (objective : Expression K) (quadratic : Array (Nat × K))
    (expressions : SortedMap String (Expression K)) : Except (ModelError K) (Model K) := do
  let m ← vars.foldlM (fun m v => (·.1) <$> m.addVariable v) empty
  let m ← constraints.foldlM (fun m c => (·.1) <$> m.addConstraint c) m
  let m ← m.setObjective objective
  let m ← m.setQuadratic quadratic
  expressions.entries.foldlM (fun m e => m.addExpression e.1 e.2) m

end Model

end BendersPlanning

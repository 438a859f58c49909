import BendersPlanning.Backend
import BendersPlanning.Json.Fields
import BendersPlanning.Model.Build
import BendersPlanning.Run.Error

/-!
# JSON forms of models, solutions and settings

Each type has a writer `toJson` and a reader `ofJson`. Numbers that are not finite are written as
`null`; parts that have their usual value may be left out. A model that is read is built anew from its
parts, so it is checked like one built by hand.
-/

namespace BendersPlanning

/-- The check that refused a value of the right shape. -/
inductive Refusal (K : Type) where
  | model (error : ModelError K)
  | problem (error : RunError K)
  deriving DecidableEq, Repr

def Refusal.message {K : Type} [NumberText K] : Refusal K → String
  | model error => error.message
  | problem error => error.message

variable {K ε : Type} [Scalar K]

open Fields (required withDefault optional)

/-- A number, or `null` where it is not finite. -/
def Json.number (x : K) : Json K := if Scalar.isFinite x then .num x else .null

def Json.numbers (xs : Array K) : Json K := .arr (xs.toList.map Json.number)

def Json.terms (ts : Array (Nat × K)) : Json K :=
  .arr (ts.toList.map fun (v, c) => .arr [.ofNat v, .number c])

def Json.readTerms : Reader K ε (Array (Nat × K)) :=
  Json.readArray (Json.readPair Json.readIndex Json.readNumber)

namespace Expression

def toJson (e : Expression K) : Json K :=
  .obj [("terms", .terms e.terms), ("constant", .number e.constant)]

def ofJson : Reader K ε (Expression K) := Fields.reader <|
  Expression.mk <$> withDefault "terms" Json.readTerms #[]
    <*> withDefault "constant" Json.readNumber 0.0

end Expression

namespace Sense

def names : List (String × Sense) := [("le", .atMost), ("ge", .atLeast), ("eq", .equal)]

def keyword : Sense → String
  | .atMost => "le"
  | .atLeast => "ge"
  | .equal => "eq"

end Sense

namespace Variable

def toJson (v : Variable K) : Json K := .ofFields [
  ("name", some (.str v.name)),
  ("lower", v.lower.map Json.number),
  ("upper", v.upper.map Json.number),
  ("integer", if v.integer then some (.bool true) else none)]

def ofJson : Reader K ε (Variable K) := Fields.reader <|
  Variable.mk <$> required "name" Json.readString
    <*> optional "lower" Json.readNumber
    <*> optional "upper" Json.readNumber
    <*> withDefault "integer" Json.readBool false

end Variable

namespace Constraint

def toJson (c : Constraint K) : Json K := .obj [
  ("name", .str c.name),
  ("expr", c.expression.toJson),
  ("sense", .str c.sense.keyword),
  ("rhs", .number c.rhs)]

def ofJson : Reader K ε (Constraint K) := Fields.reader <|
  Constraint.mk <$> required "name" Json.readString
    <*> required "expr" Expression.ofJson
    <*> required "sense" (Json.readName Sense.names)
    <*> required "rhs" Json.readNumber

end Constraint

namespace Model

def toJson (m : Model K) : Json K := .ofFields [
  ("variables", some (.arr (m.vars.toList.map Variable.toJson))),
  ("constraints", some (.arr (m.constraints.toList.map Constraint.toJson))),
  ("objective", some m.objective.toJson),
  ("quadratic", if m.quadratic.isEmpty then none else some (.terms m.quadratic)),
  ("expressions", if m.expressions.entries.isEmpty then none else
    some (.obj (m.expressions.entries.map fun e => (e.1, e.2.toJson))))]

/-- Reads the parts of a model and builds it from them. -/
def partsOfJson : Reader K ε (Except (ModelError K) (Model K)) := Fields.reader <|
  ofParts <$> withDefault "variables" (Json.readArray Variable.ofJson) #[]
    <*> withDefault "constraints" (Json.readArray Constraint.ofJson) #[]
    <*> withDefault "objective" Expression.ofJson .zero
    <*> withDefault "quadratic" Json.readTerms #[]
    <*> withDefault "expressions"
      (fun j => SortedMap.ofList <$> Json.readEntries Expression.ofJson j) .empty

/-- Reads a model; it is refused with the first fault of its parts. -/
def ofJson : Reader K (Refusal K) (Model K) := Json.checked .model id partsOfJson

end Model

namespace Status

def names : List (String × Status) :=
  [.optimal, .infeasible, .unbounded, .iterationLimit, .numericalFailure].map fun s => (s.label, s)

end Status

namespace Certificate

def toJson (c : Certificate K) : Json K :=
  .obj [("ray", .numbers c.ray), ("infeasibility", .number c.infeasibility)]

def ofJson : Reader K ε (Certificate K) := Fields.reader <|
  Certificate.mk <$> required "ray" (Json.readArray Json.readNumber)
    <*> required "infeasibility" Json.readNumber

end Certificate

namespace Solution

def toJson (s : Solution K) : Json K := .obj [
  ("status", .str s.status.label),
  ("objective", .number s.objective),
  ("primal", .numbers s.primal),
  ("duals", .numbers s.duals),
  ("farkas", (s.certificate.map Certificate.toJson).getD .null),
  ("iterations", .ofNat s.iterations)]

def ofJson : Reader K ε (Solution K) := Fields.reader <|
  Solution.mk <$> required "status" (Json.readName Status.names)
    <*> required "objective" Json.readNumber
    <*> required "primal" (Json.readArray Json.readNumber)
    <*> required "duals" (Json.readArray Json.readNumber)
    <*> optional "farkas" Certificate.ofJson
    <*> required "iterations" (Json.readNat Json.shortLimit)

end Solution

namespace SolverSettings

/-- The fields with their names, given how numbers are represented. -/
def form (number : K → Json K) (s : SolverSettings K) : Json K := .ofFields [
  ("verbose", some (.bool s.verbose)),
  ("max_iter", some (.ofNat s.maxIter)),
  ("time_limit", s.timeLimit.map number),
  ("tol_gap_abs", some (number s.tolGapAbs)),
  ("tol_gap_rel", some (number s.tolGapRel)),
  ("tol_feas", some (number s.tolFeas)),
  ("presolve", some (.bool s.presolve)),
  ("equilibrate", some (.bool s.equilibrate)),
  ("max_nodes", some (.ofNat s.maxNodes)),
  ("integrality_tol", some (number s.integralityTol))]

def toJson (s : SolverSettings K) : Json K := s.form Json.number

/-- Reads settings; missing ones have their default. -/
def ofJson : Reader K ε (SolverSettings K) :=
  let d : SolverSettings K := .default
  Fields.reader <|
    SolverSettings.mk <$> withDefault "verbose" Json.readBool d.verbose
      <*> withDefault "max_iter" (Json.readNat Json.shortLimit) d.maxIter
      <*> optional "time_limit" Json.readNumber
      <*> withDefault "tol_gap_abs" Json.readNumber d.tolGapAbs
      <*> withDefault "tol_gap_rel" Json.readNumber d.tolGapRel
      <*> withDefault "tol_feas" Json.readNumber d.tolFeas
      <*> withDefault "presolve" Json.readBool d.presolve
      <*> withDefault "equilibrate" Json.readBool d.equilibrate
      <*> withDefault "max_nodes" Json.readIndex d.maxNodes
      <*> withDefault "integrality_tol" Json.readNumber d.integralityTol

end SolverSettings

end BendersPlanning

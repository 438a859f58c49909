import BendersPlanning.Form.Model
import BendersPlanning.Json.Reader
import BendersPlanning.Run.Problem

/-!
# JSON forms of decomposed problems

Planning problems, subproblems and whole problems. A planning problem that is read gets its objective
and its named expressions installed again.
-/

namespace BendersPlanning

variable {K ε : Type} [Scalar K]

open Fields (required withDefault optional)

namespace PlanningProblem

def toJson (p : PlanningProblem K) : Json K := .obj [
  ("model", p.model.toJson),
  ("fixed_cost", p.fixedCost.toJson),
  ("theta", .arr (p.theta.toList.map .ofNat))]

def ofJson : Reader K (Refusal K) (PlanningProblem K) :=
  Json.checked .problem id <| Fields.reader <|
    PlanningProblem.ofModel <$> required "model" Model.ofJson
      <*> required "fixed_cost" Expression.ofJson
      <*> required "theta" (Json.readArray Json.readIndex)

end PlanningProblem

namespace Subproblem

def toJson (s : Subproblem K) : Json K := .ofFields [
  ("index", some (.ofNat s.index)),
  ("model", some s.model.toJson),
  ("linking_variables", some (.ofStrings s.linking)),
  ("slack_penalty", s.slackPenalty.map Json.number)]

def ofJson : Reader K (Refusal K) (Subproblem K) := Fields.reader <|
  Subproblem.mk <$> required "index" Json.readIndex
    <*> required "model" Model.ofJson
    <*> required "linking_variables" (Json.readList Json.readString)
    <*> optional "slack_penalty" Json.readNumber

end Subproblem

namespace DecomposedProblem

def toJson (p : DecomposedProblem K) : Json K := .obj [
  ("planning", p.planning.toJson),
  ("linking_variables", .ofStrings p.linking),
  ("subproblems", .arr (p.subproblems.map Subproblem.toJson))]

def ofJson : Reader K (Refusal K) (DecomposedProblem K) := Fields.reader <|
  DecomposedProblem.mk <$> required "planning" PlanningProblem.ofJson
    <*> required "linking_variables" (Json.readList Json.readString)
    <*> required "subproblems" (Json.readList Subproblem.ofJson)

end DecomposedProblem

/-- The index written by a key: digits without a leading zero. -/
def Json.indexOfKey? (key : String) : Option Nat :=
  let digits := key.toList
  if digits.isEmpty || !digits.all Char.isDigit || (digits.head? == some '0' && 1 < digits.length)
  then none
  else
    let n := Json.digitsNumber digits
    if n < Json.wordLimit then some n else none

/-- Reads linking variables by subproblem index. -/
def Json.readSubsets : Reader K ε (SortedMap Nat (List String)) := fun j => do
  let entries ← Json.readEntries (Json.readList Json.readString) j
  let indexed ← entries.mapM fun (key, names) =>
    match Json.indexOfKey? key with
    | some index => .ok (index, names)
    | none => .error .malformed
  return .ofList indexed

end BendersPlanning

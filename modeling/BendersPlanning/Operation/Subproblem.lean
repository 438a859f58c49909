import BendersPlanning.Model.Elastic
import BendersPlanning.Run.Error

/-!
# Operational subproblems

A subproblem is a model of operation for given values of the linking variables it shares with the
planning problem. Each of them gets a fixing row, whose right-hand side is set before every solve and
whose price is a cut coefficient. With a slack penalty an elastic copy is solved instead, so that no
values make the subproblem infeasible.
-/

namespace BendersPlanning

/-- The operation that belongs to one cost proxy. -/
structure Subproblem (K : Type) where
  index : Nat
  model : Model K
  /-- The linking variables that the model contains. -/
  linking : List String
  /-- Cost per unit of slack; without one, infeasibility becomes a cut. -/
  slackPenalty : Option K
  deriving DecidableEq

inductive OperationOutcome (K : Type) where
  /-- A cost, its change per unit of each linking variable, and the slack in use. -/
  | optimal (cost : K) (prices : SortedMap String K) (usedSlack : K)
  /-- A certificate on the linking variables and its margin. -/
  | infeasible (ray : SortedMap String K) (margin : K)
  deriving DecidableEq

variable {K : Type} [Scalar K]

namespace OperationOutcome

def isFeasible : OperationOutcome K → Bool
  | .optimal .. => true
  | .infeasible .. => false

/-- The cost, infinite without a feasible operation. -/
def cost : OperationOutcome K → K
  | .optimal cost _ _ => cost
  | .infeasible .. => Scalar.infinity

/-- Prices of the fixing rows or, for an infeasible subproblem, their part of the certificate. -/
def prices : OperationOutcome K → SortedMap String K
  | .optimal _ prices _ => prices
  | .infeasible ray _ => ray

end OperationOutcome

/-- A penalty for models that name none: a thousand times the largest cost coefficient as written,
and at least a thousand. -/
def Model.automaticSlackPenalty (m : Model K) : K :=
  1e3 * m.objective.terms.foldl (fun largest (_, c) => Scalar.larger largest (Scalar.abs c)) 1.0

/-- A subproblem made ready for repeated solves. -/
structure Evaluator (K : Type) where
  index : Nat
  model : Model K
  /-- The fixing rows with the names of their variables. -/
  fixingRows : List (String × Nat)
  slackPenalty : Option K
  /-- The elastic copy with its slack variables, which is solved where there is one. -/
  elastic : Option (Model K × Array Nat)
  deriving DecidableEq

namespace Evaluator

def addFixingRow (index : Nat) (state : Model K × List (String × Nat)) (name : String) :
    Except (RunError K) (Model K × List (String × Nat)) :=
  match state.1.variableNamed? name with
  | none => .error (.problem (.missingVariable index name))
  | some v => do
    let row : Constraint K := ⟨fixingRowName name, .ofVariable v, .equal, 0.0⟩
    let (model, id) ← (state.1.addConstraint row).mapError RunError.model
    return (model, state.2 ++ [(name, id)])

/-- Prepares a subproblem: integrality is dropped, fixing rows are added, and the elastic copy is
built when there is a penalty, the given one or with `automatic` one computed from the costs. -/
def ofSubproblem (s : Subproblem K) (automatic : Bool) : Except (RunError K) (Evaluator K) := do
  let (model, rows) ← s.linking.foldlM (addFixingRow s.index) (s.model.relaxIntegrality, [])
  let penalty := s.slackPenalty.or (if automatic then some model.automaticSlackPenalty else none)
  match penalty with
  | none => return ⟨s.index, model, rows, none, none⟩
  | some p =>
    match model.relaxWithPenalty p with
    | (_, .error e) => .error (.model e)
    | (elastic, .ok slacks) => return ⟨s.index, model, rows, some p, some (elastic, slacks)⟩

def isElastic (e : Evaluator K) : Bool := e.elastic.isSome

def activeModel (e : Evaluator K) : Model K := (e.elastic.map (·.1)).getD e.model

/-- Fixes one linking variable, in the model and in its elastic copy. -/
def fixRow (e : Evaluator K) (row : Nat) (value : K) :
    Evaluator K × Except (ModelError K) Unit :=
  match e.model.setRhs row value with
  | .error x => (e, .error x)
  | .ok model =>
    let e := { e with model := model }
    match e.elastic with
    | none => (e, .ok ())
    | some (elastic, slacks) =>
      match elastic.setRhs row value with
      | .error x => (e, .error x)
      | .ok elastic => ({ e with elastic := some (elastic, slacks) }, .ok ())

/-- Fixes linking variables in order; at the first fault the earlier ones stay fixed. -/
def fixRows (values : SortedMap String K) : List (String × Nat) → Evaluator K →
    Evaluator K × Except (RunError K) Unit
  | [], e => (e, .ok ())
  | (name, row) :: rest, e =>
    match values.find? name with
    | none => (e, .error (.subproblemFailed e.index (.noValue name)))
    | some value =>
      match e.fixRow row value with
      | (e, .error x) => (e, .error (.model x))
      | (e, .ok ()) => fixRows values rest e

def fixAt (e : Evaluator K) (values : SortedMap String K) : Evaluator K × Except (RunError K) Unit :=
  fixRows values e.fixingRows e

end Evaluator

end BendersPlanning

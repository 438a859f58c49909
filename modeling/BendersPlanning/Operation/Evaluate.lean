import BendersPlanning.Operation.Subproblem
import BendersPlanning.Planning.Solve

/-!
# Evaluating subproblems

The linking variables are fixed at given values, the active model is solved, with one second attempt
after numerical trouble, and the outcome is read back on the fixing rows. Several subproblems are
evaluated one after the other until one fails.
-/

namespace BendersPlanning

variable {K : Type} [Scalar K] {m : Type → Type} [Monad m]

namespace Evaluator

/-- Solves the active model, a second time after a numerical failure or an iteration limit. -/
def solveActive (backend : Backend m K) (e : Evaluator K) (settings : SolverSettings K) :
    ExceptT (RunError K) m (Solution K) := do
  let first ← backend.attempt e.activeModel settings
  if first.status.isRetried then backend.attempt e.activeModel settings.numericallyFocused
  else return first

/-- The total of the slacks in use; values below zero count as zero. -/
def usedSlack (e : Evaluator K) (s : Solution K) : K :=
  match e.elastic with
  | none => 0.0
  | some (_, slacks) =>
    Scalar.sum ((slacks.toList.filterMap s.value?).map fun x => Scalar.larger x 0.0)

/-- The outcome of an optimal solve: every fixing row needs a price. -/
def optimalOutcome (e : Evaluator K) (s : Solution K) : Except (RunError K) (OperationOutcome K) := do
  let prices ← e.fixingRows.foldlM (fun (prices : SortedMap String K) (name, row) =>
    match s.dual? row with
    | some price => .ok (prices.insert name price)
    | none => .error (.subproblemFailed e.index (.noDual name))) .empty
  return .optimal s.objective prices (e.usedSlack s)

/-- The outcome of an infeasible solve: with slacks there is none to accept, without them the
certificate is needed. -/
def infeasibleOutcome (e : Evaluator K) (s : Solution K) :
    Except (RunError K) (OperationOutcome K) :=
  if e.isElastic then .error (.subproblemFailed e.index .infeasibleWithSlacks)
  else match s.certificate with
    | none => .error (.subproblemFailed e.index .noCertificate)
    | some c =>
      .ok (.infeasible
        (.ofList (e.fixingRows.map fun (name, row) => (name, c.ray[row]?.getD 0.0)))
        c.infeasibility)

def outcome (e : Evaluator K) (s : Solution K) : Except (RunError K) (OperationOutcome K) :=
  match s.status with
  | .optimal => e.optimalOutcome s
  | .infeasible => e.infeasibleOutcome s
  | status => .error (.subproblemFailed e.index (.ended status))

def evaluate (backend : Backend m K) (e : Evaluator K) (values : SortedMap String K)
    (settings : SolverSettings K) :
    m (Evaluator K × Except (RunError K) (OperationOutcome K)) := do
  match e.fixAt values with
  | (e, .error x) => return (e, .error x)
  | (e, .ok ()) =>
    let s ← (e.solveActive backend settings).run
    return (e, s >>= e.outcome)

/-- Evaluates subproblems in order up to the first fault. The outcomes are kept by index. -/
def evaluateAll (backend : Backend m K) (values : SortedMap String K)
    (settings : SolverSettings K) : List (Evaluator K) → SortedMap Nat (OperationOutcome K) →
    m (List (Evaluator K) × Except (RunError K) (SortedMap Nat (OperationOutcome K)))
  | [], outcomes => return ([], .ok outcomes)
  | e :: rest, outcomes => do
    match ← e.evaluate backend values settings with
    | (e, .error x) => return (e :: rest, .error x)
    | (e, .ok outcome) =>
      let (rest, result) ← evaluateAll backend values settings rest (outcomes.insert e.index outcome)
      return (e :: rest, result)

end Evaluator

end BendersPlanning

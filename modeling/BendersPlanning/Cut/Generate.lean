import BendersPlanning.Cut.Basic
import BendersPlanning.Operation.Subproblem

/-!
# Cuts from evaluated subproblems

Every infeasible subproblem gives a feasibility cut. With one proxy per subproblem every feasible one
gives an optimality cut; with a single proxy the optimality cuts are added up into one, which is valid
only when all subproblems are feasible.
-/

namespace BendersPlanning

variable {K : Type} [Scalar K]

namespace Cut

/-- The proxy is at least the cost at the values plus its first-order change. -/
def ofOptimal (name : String) (subproblem : Option Nat) (theta : Nat) (cost : K)
    (prices values : SortedMap String K) : Except (RunError K) (Cut K) := do
  let rhs := cost - (← weightedSum prices values)
  return ⟨name, .optimality, subproblem, some theta, prices, rhs⟩

/-- The certified margin may not stay positive. -/
def ofInfeasible (name : String) (subproblem : Nat) (margin : K) (ray values : SortedMap String K) :
    Except (RunError K) (Cut K) := do
  let rhs := (← weightedSum ray values) - margin
  return ⟨name, .feasibility, some subproblem, none, ray, rhs⟩

/-- The feasibility cuts of an iteration, in the order of the subproblems. -/
def feasibilityCuts (iteration : Nat) (values : SortedMap String K) :
    List (Nat × OperationOutcome K) → Except (RunError K) (List (Cut K))
  | [] => .ok []
  | (index, .infeasible ray margin) :: rest => do
    let cut ← ofInfeasible s!"feas_cut[{iteration},{index}]" index margin ray values
    return cut :: (← feasibilityCuts iteration values rest)
  | (_, .optimal ..) :: rest => feasibilityCuts iteration values rest

/-- The optimality cuts of an iteration, one per feasible subproblem. -/
def optimalityCuts (p : PlanningProblem K) (iteration : Nat) (values : SortedMap String K) :
    List (Nat × OperationOutcome K) → Except (RunError K) (List (Cut K))
  | [] => .ok []
  | (index, .optimal cost prices _) :: rest =>
    match p.thetaFor? index with
    | none => .error (.problem (.noProxyFor index))
    | some theta => do
      let cut ←
        ofOptimal s!"opt_cut[{iteration},{index}]" (some index) theta cost prices values
      return cut :: (← optimalityCuts p iteration values rest)
  | (_, .infeasible ..) :: rest => optimalityCuts p iteration values rest

def addPrices (total prices : SortedMap String K) : SortedMap String K :=
  prices.entries.foldl (fun m (name, x) => m.alter name fun old => old.getD 0.0 + x) total

def aggregatedCut (p : PlanningProblem K) (iteration : Nat) (values : SortedMap String K)
    (outcomes : List (OperationOutcome K)) : Except (RunError K) (Cut K) :=
  match p.thetaFor? 0 with
  | none => .error (.problem .noProxy)
  | some theta =>
    ofOptimal s!"opt_cut[{iteration},all]" none theta (Scalar.sum (outcomes.map (·.cost)))
      (outcomes.foldl (fun total o => addPrices total o.prices) .empty) values

end Cut

def PlanningProblem.cuts (p : PlanningProblem K) (iteration : Nat) (values : SortedMap String K)
    (outcomes : SortedMap Nat (OperationOutcome K)) : Except (RunError K) (List (Cut K)) := do
  let feasibility ← Cut.feasibilityCuts iteration values outcomes.entries
  let optimality ←
    if p.isMultiCut then Cut.optimalityCuts p iteration values outcomes.entries
    else if outcomes.values.all (·.isFeasible) then
      List.singleton <$> Cut.aggregatedCut p iteration values outcomes.values
    else pure []
  return feasibility ++ optimality

end BendersPlanning

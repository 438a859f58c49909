import BendersPlanning.Model.Build
import BendersPlanning.Run.Error

/-!
# Planning problems

A planning problem is a model over investment decisions whose objective is the fixed cost plus cost
proxies θ. With several proxies each stands for one subproblem, a single one for all of them. Cuts
accumulate as rows of the model.
-/

namespace BendersPlanning

/-- A model that minimises `fixedCost` plus the variables in `theta`. -/
structure PlanningProblem (K : Type) where
  model : Model K
  fixedCost : Expression K
  theta : Array Nat
  deriving DecidableEq

variable {K : Type} [Scalar K]

/-- The first fault of a choice of cost proxies: none at all, one that is no variable of the model,
one without a finite lower bound. -/
def Model.proxyFault? (m : Model K) (theta : Array Nat) : Option (ProblemFault K) :=
  if theta.isEmpty then some .noProxies
  else theta.findSome? fun t =>
    match m.vars[t]? with
    | none => some (.unknownProxy t)
    | some v => if Scalar.isFinite v.lowerBound then none else some (.unboundedProxy v.name)

namespace PlanningProblem

def fixedCostName : String := "FixedCost"

def proxyCostName : String := "ApproximateVariableCost"

/-- Names of optimality and feasibility cuts start so. -/
def cutMarks : List String := ["opt_cut[", "feas_cut["]

def proxyCost (theta : Array Nat) : Expression K := .ofTerms (theta.map fun t => (t, 1.0))

/-- Installs objective and named expressions on a model. -/
def ofModel (m : Model K) (fixedCost : Expression K) (theta : Array Nat) :
    Except (RunError K) (PlanningProblem K) :=
  match m.proxyFault? theta with
  | some fault => .error (.problem fault)
  | none => Except.mapError RunError.model do
    let m ← m.setObjective (fixedCost.addScaled (proxyCost theta) 1.0)
    let m ← m.addExpression fixedCostName fixedCost
    let m ← m.addExpression proxyCostName (proxyCost theta)
    return ⟨m, fixedCost, theta⟩

/-- Whether each subproblem has a proxy of its own. -/
def isMultiCut (p : PlanningProblem K) : Bool := 1 < p.theta.size

/-- The proxy for the cost of a subproblem. -/
def thetaFor? (p : PlanningProblem K) (index : Nat) : Option Nat :=
  if p.isMultiCut then p.theta[index]? else p.theta[0]?

/-- The cuts among the rows, known by their names. -/
def cutRows (p : PlanningProblem K) : List (Constraint K) :=
  p.model.constraints.toList.filter fun c => cutMarks.any fun mark => mark.isPrefixOf c.name

def cutCount (p : PlanningProblem K) : Nat := p.cutRows.length

def objectiveParts (p : PlanningProblem K) (point : Array K) : K × Array K :=
  (p.fixedCost.evaluate point, p.theta.map (Scalar.entry point))

end PlanningProblem

/-- A point of the planning problem, as the rest of the decomposition sees it. -/
structure Candidate (K : Type) where
  /-- A lower bound on the optimum that came with the point. -/
  lowerBound : K
  fixedCost : K
  /-- The values of the linking variables. -/
  values : SortedMap String K
  /-- The values of the proxies, in their order. -/
  theta : Array K
  deriving DecidableEq

namespace Candidate

/-- Reads the linking values, the fixed cost and the proxies from a point of the planning model. -/
def ofPoint (p : PlanningProblem K) (linking : List String) (point : Array K) (lowerBound : K) :
    Except (RunError K) (Candidate K) := do
  let values ← linking.foldlM (fun (values : SortedMap String K) name =>
    match (p.model.variableNamed? name).bind fun id => point[id]? with
    | some x => .ok (values.insert name x)
    | none => .error (.planningFailed (.noValue name))) .empty
  let (fixedCost, theta) := p.objectiveParts point
  return ⟨lowerBound, fixedCost, values, theta⟩

def planningObjective (c : Candidate K) : K := c.fixedCost + Scalar.sum c.theta.toList

end Candidate

end BendersPlanning

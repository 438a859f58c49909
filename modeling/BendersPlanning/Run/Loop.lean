import BendersPlanning.Cut.Generate
import BendersPlanning.Operation.Evaluate
import BendersPlanning.Planning.LevelSet
import BendersPlanning.Run.Configuration
import BendersPlanning.Run.History
import BendersPlanning.Run.Problem
import BendersPlanning.Run.Workers

/-!
# Decomposition runs

Each iteration solves the planning problem for a lower bound, moves its solution by the projection
where that is switched on, evaluates the subproblems there for an upper bound, and adds the cuts that
follow. A run ends when the gap is closed or a limit is reached; the latter is no error.

The backend, the clock and the workers are parameters: a run is the same function of their answers
whatever they are. Where the workers are not named the subproblems are evaluated in turn.
-/

namespace BendersPlanning

inductive Termination where
  | converged
  | maxIterations
  | maxCpuTime
  deriving DecidableEq, Repr

def Termination.describe : Termination → String
  | converged => "converged"
  | maxIterations => "iteration limit"
  | maxCpuTime => "time limit"

structure RunResult (K : Type) where
  /-- The planning problem with all cuts of the run. -/
  planning : PlanningProblem K
  /-- The best candidate. -/
  best : Candidate K
  history : History K
  termination : Termination
  deriving DecidableEq

/-- What changes from iteration to iteration. -/
structure RunState (K : Type) where
  planning : PlanningProblem K
  evaluators : List (Evaluator K)
  history : History K
  gamma : K

/-- Seconds since the start of the run, at the end of an iteration. -/
abbrev Clock (m : Type → Type) (K : Type) := Nat → m K

variable {K : Type} [Scalar K] {m : Type → Type} [Monad m]

namespace RunResult

def isConverged (r : RunResult K) : Bool := r.termination = .converged

def iterations (r : RunResult K) : List (Iteration K) := r.history.iterations.toList

def lowerBound (r : RunResult K) : K := r.history.lowerBound

def upperBound (r : RunResult K) : K :=
  r.history.iterations.foldl (fun best i => Scalar.smaller best i.upperBound) Scalar.infinity

end RunResult

/-- The cost of a candidate: its fixed cost plus all operation, infinite while some subproblem is
infeasible. -/
def Candidate.upperBound (c : Candidate K) (outcomes : SortedMap Nat (OperationOutcome K)) : K :=
  if outcomes.values.all (·.isFeasible) then
    c.fixedCost + Scalar.sum (outcomes.values.map (·.cost))
  else Scalar.infinity

namespace RunState

def start (c : Configuration K) (p : DecomposedProblem K) : Except (RunError K) (RunState K) := do
  c.validate
  p.validate
  let model := if c.integerInvestment then p.planning.model else p.planning.model.relaxIntegrality
  let evaluators ← p.subproblems.mapM fun s => Evaluator.ofSubproblem s c.automaticSlackPenalty
  return {
    planning := { p.planning with model := model }
    evaluators := evaluators.mergeSort fun a b => a.index ≤ b.index
    history := .empty
    gamma := c.stabParam }

/-- The candidate to evaluate: the projection of the incumbent onto the level set, or the solution of
the planning problem where the projection is off, not yet possible or without an answer. -/
def candidate (backend : Backend m K) (s : RunState K) (linking : List String)
    (settings : SolverSettings K) (master : Candidate K) : m (Candidate K) := do
  let upper := s.history.bestUpperBound
  if 0.0 < s.gamma && Scalar.isFinite upper then
    let lower := Scalar.larger s.history.lowerBound master.lowerBound
    let centre := s.history.incumbent?.getD master
    match ← (s.planning.project backend linking centre lower upper s.gamma settings).run with
    | .ok projected => return projected
    | .error _ => return master
  else return master

def stepOn (pool : WorkerPool m K) (backend : Backend m K) (clock : Clock m K)
    (c : Configuration K) (linking : List String) (s : RunState K) :
    ExceptT (RunError K) m (RunState K) := do
  let iteration := s.history.count + 1
  let master ← s.planning.solve backend linking c.solver
  let point ← ExceptT.lift (s.candidate backend linking c.solver master)
  let (evaluators, outcomes) ←
    ExceptT.lift (pool.evaluate iteration backend point.values c.solver s.evaluators)
  let outcomes ← ExceptT.mk (pure outcomes)
  let upper := point.upperBound outcomes
  let cuts ← ExceptT.mk (pure (s.planning.cuts iteration point.values outcomes))
  let planning ← match s.planning.addCuts cuts with
    | (planning, .ok ()) => pure planning
    | (_, .error e) => throw e
  let elapsed ← ExceptT.lift (clock iteration)
  let improved := s.history.improves upper
  return {
    planning := planning
    evaluators := evaluators
    history := s.history.record master.lowerBound upper elapsed s.gamma point
    gamma := if c.stabDynamic then nextGamma s.gamma c.stabParam improved else s.gamma }

def step (backend : Backend m K) (clock : Clock m K) (c : Configuration K) (linking : List String)
    (s : RunState K) : ExceptT (RunError K) m (RunState K) :=
  s.stepOn .inTurn backend clock c linking

/-- Whether the last iteration took the run to its time limit. -/
def isTimedOut (c : Configuration K) (s : RunState K) : Bool :=
  s.history.iterations.back?.any fun i => decide (c.maxCpuTime ≤ i.elapsed)

/-- Iterates until a criterion holds, at least once and at most `more + 1` times. -/
def iterateOn (pool : WorkerPool m K) (backend : Backend m K) (clock : Clock m K)
    (c : Configuration K) (linking : List String) :
    Nat → RunState K → ExceptT (RunError K) m (RunState K × Termination)
  | more, s => do
    let s ← s.stepOn pool backend clock c linking
    if s.history.gap ≤ c.convTol then return (s, .converged)
    else match more with
      | 0 => return (s, .maxIterations)
      | more + 1 =>
        if s.isTimedOut c then return (s, .maxCpuTime)
        else iterateOn pool backend clock c linking more s

def iterate (backend : Backend m K) (clock : Clock m K) (c : Configuration K)
    (linking : List String) (more : Nat) (s : RunState K) :
    ExceptT (RunError K) m (RunState K × Termination) :=
  s.iterateOn .inTurn backend clock c linking more

/-- Iterates to the end. The best candidate is the incumbent or, where none was found, the one of the
last iteration. -/
def completeOn (pool : WorkerPool m K) (backend : Backend m K) (clock : Clock m K)
    (c : Configuration K) (linking : List String) (start : RunState K) :
    ExceptT (RunError K) m (RunResult K) := do
  let (s, termination) ← start.iterateOn pool backend clock c linking (c.maxIter - 1)
  let last := s.history.iterations.back?.map (·.candidate)
  match s.history.incumbent?.or last with
  | some best => return ⟨s.planning, best, s.history, termination⟩
  | none => throw (.planningFailed .noIteration)

end RunState

namespace DecomposedProblem

/-- Runs a decomposition on the workers that its configuration asks for. They are called once the
problem has been accepted and its evaluators are ready. -/
def runOn (build : PoolBuilder m K) (backend : Backend m K) (clock : Clock m K)
    (c : Configuration K) (p : DecomposedProblem K) :
    ExceptT (LaunchError K) m (RunResult K) := do
  let start ← ExceptT.mk (pure ((RunState.start c p).mapError .run))
  let pool ← c.workers build
  (start.completeOn pool backend clock c p.linking).adapt .run

/-- Runs a decomposition with its subproblems in turn. -/
def run (backend : Backend m K) (clock : Clock m K) (c : Configuration K)
    (p : DecomposedProblem K) : ExceptT (RunError K) m (RunResult K) := do
  let start ← ExceptT.mk (pure (RunState.start c p))
  start.completeOn .inTurn backend clock c p.linking

end DecomposedProblem

end BendersPlanning

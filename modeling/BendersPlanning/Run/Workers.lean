import BendersPlanning.Operation.Evaluate
import BendersPlanning.Run.Configuration

/-!
# Workers

A distributed run evaluates the subproblems of an iteration on a pool of workers, any other one in turn.
How a pool shares the work is its own affair: a run sees the evaluators and the result that it hands
back. The pool is made once, before the first iteration, and it can fail to be.
-/

namespace BendersPlanning

/-- Whoever evaluates the subproblems of an iteration. The number of the iteration comes along, since
nothing makes one pool take the same course twice. -/
structure WorkerPool (m : Type → Type) (K : Type) where
  evaluate : Nat → Backend m K → SortedMap String K → SolverSettings K → List (Evaluator K) →
    m (List (Evaluator K) × Except (RunError K) (SortedMap Nat (OperationOutcome K)))

/-- Makes a pool with a number of threads, zero for one per core, or says why there is none. -/
abbrev PoolBuilder (m : Type → Type) (K : Type) := Nat → m (Except String (WorkerPool m K))

/-- Why a run that may ask for workers ends without a result. -/
inductive LaunchError (K : Type) where
  | workers (reason : String)
  | run (error : RunError K)
  deriving DecidableEq, Repr

def LaunchError.message {K : Type} [NumberText K] : LaunchError K → String
  | workers reason => "Thread pool error: " ++ reason
  | run error => error.message

variable {K : Type} [Scalar K] {m : Type → Type} [Monad m]

namespace WorkerPool

/-- A single worker, who stops at the first failure. -/
def inTurn : WorkerPool m K where
  evaluate _ backend values settings es := Evaluator.evaluateAll backend values settings es .empty

def indexed (answer : Evaluator K × Except (RunError K) (OperationOutcome K)) :
    Except (RunError K) (Nat × OperationOutcome K) :=
  answer.2.map (answer.1.index, ·)

/-- The outcomes of evaluations by index, or the first failure among them. -/
def collect (done : List (Evaluator K × Except (RunError K) (OperationOutcome K))) :
    Except (RunError K) (SortedMap Nat (OperationOutcome K)) :=
  (done.mapM indexed).map .ofList

/-- A worker for each subproblem, all of whom finish. -/
def oneEach : WorkerPool m K where
  evaluate _ backend values settings es := do
    let done ← es.mapM fun e => e.evaluate backend values settings
    return (done.map (·.1), collect done)

end WorkerPool

/-- The workers that a configuration asks for. -/
def Configuration.workers (build : PoolBuilder m K) (c : Configuration K) :
    ExceptT (LaunchError K) m (WorkerPool m K) :=
  if c.distributed then ExceptT.mk do return (← build c.threads).mapError .workers
  else return .inTurn

end BendersPlanning

import BendersPlanning.Form.Configuration
import BendersPlanning.Form.Problem
import BendersPlanning.Run.Loop

/-!
# JSON forms of histories and results

What a run leaves behind: its candidates, bounds and last planning problem, and a summary of them.
-/

namespace BendersPlanning

variable {K : Type} [Scalar K]

namespace Candidate

def toJson (c : Candidate K) : Json K := .obj [
  ("lower_bound", .number c.lowerBound),
  ("fixed_cost", .number c.fixedCost),
  ("values", .obj (c.values.entries.map fun (name, x) => (name, .number x))),
  ("theta", .numbers c.theta)]

end Candidate

namespace History

def column (h : History K) (f : Iteration K → K) : Array K := h.iterations.map f

def candidates (h : History K) : Json K :=
  .arr (h.iterations.toList.map fun i => i.candidate.toJson)

def toJson (h : History K) : Json K := .obj [
  ("lb", .numbers (h.column (·.lowerBound))),
  ("ub", .numbers (h.column (·.upperBound))),
  ("ub_best", .numbers (h.column (·.bestUpperBound))),
  ("cpu_time", .numbers (h.column (·.elapsed))),
  ("gamma", .numbers (h.column (·.gamma))),
  ("solutions", h.candidates),
  ("best", (h.best.map Json.ofNat).getD .null)]

end History

namespace Termination

def keyword : Termination → String
  | converged => "converged"
  | maxIterations => "max_iterations"
  | maxCpuTime => "max_cpu_time"

def names : List (String × Termination) :=
  [.converged, .maxIterations, .maxCpuTime].map fun t => (t.keyword, t)

end Termination

namespace RunResult

def toJson (r : RunResult K) : Json K := .obj [
  ("planning_problem", r.planning.toJson),
  ("planning_sol", r.best.toJson),
  ("lb_hist", .numbers (r.history.column (·.lowerBound))),
  ("ub_hist", .numbers (r.history.column (·.upperBound))),
  ("cpu_time", .numbers (r.history.column (·.elapsed))),
  ("sol_hist", r.history.candidates),
  ("gamma_hist", .numbers (r.history.column (·.gamma))),
  ("iterations", .ofNat r.history.count),
  ("termination", .str r.termination.keyword),
  ("converged", .bool r.isConverged),
  ("gap", .number r.history.gap)]

def summary (r : RunResult K) : Json K := .obj [
  ("termination", .str r.termination.keyword),
  ("converged", .bool r.isConverged),
  ("iterations", .ofNat r.history.count),
  ("lower_bound", .number r.lowerBound),
  ("upper_bound", .number r.upperBound),
  ("gap", .number r.history.gap),
  ("cpu_time", .number ((r.history.iterations.back?.map (·.elapsed)).getD 0.0)),
  ("cuts", .ofNat r.planning.cutCount)]

end RunResult

end BendersPlanning

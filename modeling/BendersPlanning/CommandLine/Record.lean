import BendersPlanning.Form.Run

/-!
# Run records

A run record is what a finished run leaves in a file: where it came from, its configuration, the
headline numbers and the whole result.
-/

namespace BendersPlanning.CommandLine

/-- Name and version of the program. -/
def programName : String := "mes-cli"

def programVersion : String := "0.2.0"

/-- What sets one run apart from others. -/
structure RunStamp where
  runId : String
  /-- Date and time of the end of the run. -/
  timestamp : String

def recordJson (stamp : RunStamp) (problem : String) (c : Configuration Float)
    (r : RunResult Float) : Json Float := .obj [
  ("run_id", .str stamp.runId),
  ("version", .str programVersion),
  ("timestamp", .str stamp.timestamp),
  ("problem", .str problem),
  ("config", c.toJson),
  ("summary", r.summary),
  ("result", r.toJson)]

/-- The lines that report a run: its headline numbers and the investments. -/
def reportLines (r : RunResult Float) : List String :=
  let seconds := (r.history.iterations.back?.map (·.elapsed)).getD 0.0
  [s!"Termination: {r.termination.describe}",
    s!"Iterations:  {r.history.count}",
    s!"Lower bound: {fixedText 6 r.lowerBound}",
    s!"Upper bound: {fixedText 6 r.upperBound}",
    s!"Gap:         {scientificText 3 r.history.gap}",
    s!"Cuts:        {r.planning.cutCount}",
    s!"Time:        {fixedText 3 seconds} s"] ++
    r.best.values.entries.map fun (name, x) => s!"  {name} = {fixedText 6 x}"

/-- The lines that describe a valid problem. -/
def descriptionLines (path : String) (p : DecomposedProblem Float) : List String :=
  let cuts := if p.planning.isMultiCut then "multi-cut" else "single cut"
  let m := p.planning.model
  [s!"Problem {path} is valid",
    s!"  planning: {m.vars.size} variables, {m.constraints.size} constraints, {cuts}",
    s!"  linking variables: {p.linking.length}"] ++
    p.subproblems.map fun s =>
      s!"  subproblem {s.index}: {s.model.vars.size} variables, " ++
        s!"{s.model.constraints.size} constraints, {s.linking.length} linked"

end BendersPlanning.CommandLine

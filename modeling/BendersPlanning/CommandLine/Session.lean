import BendersPlanning.CommandLine.Record
import BendersPlanning.CommandLine.Request
import BendersPlanning.Conic.Backend
import BendersPlanning.Conic.Pivoting
import BendersPlanning.Form.Problem
import BendersPlanning.Json.Writer

/-!
# Carrying out requests

A session reads files, prints lines and writes results by way of a `Host`, so that its logic is the
same on a real machine and on a described one. A failure names what was being done and why it could
not be.
-/

namespace BendersPlanning.CommandLine

/-- Why a file operation failed, with the number that the system gives to the reason. -/
structure FileFault where
  text : String
  code : Nat
  deriving DecidableEq, Repr

def FileFault.message (f : FileFault) : String := s!"{f.text} (os error {f.code})"

/-- What a session needs from its surroundings. -/
structure Host (m : Type → Type) where
  /-- Prints text as it is. -/
  print : String → m Unit
  /-- Prints a line where errors go. -/
  complain : String → m Unit
  read : String → m (Except FileFault String)
  write : String → String → m (Except FileFault Unit)
  createDirectories : String → m (Except FileFault Unit)
  /-- Starts a clock. -/
  startClock : m (Clock m Float)
  /-- Makes the workers of a distributed run. Where a machine has none of its own, one takes each
  subproblem. -/
  buildPool : [Monad m] → PoolBuilder m Float := fun _ => pure (.ok .oneEach)
  stamp : m RunStamp

inductive Failure where
  | readingConfig (path : String) (fault : FileFault)
  | parsingConfig (path : String) (error : RunError Float)
  | configuration (error : RunError Float)
  | readingProblem (path : String) (fault : FileFault)
  /-- The text is no problem, or a part of it was refused. -/
  | parsingProblem (path : String) (error : LoadError (Refusal Float))
  | running (error : LaunchError Float)
  | validating (path : String) (error : RunError Float)
  | creating (directory : String) (fault : FileFault)
  | writing (path : String) (fault : FileFault)

def Failure.message : Failure → String
  | readingConfig path fault => s!"reading config {path}: " ++ fault.message
  | parsingConfig path error => s!"parsing config {path}: " ++ error.message
  | configuration error => error.message
  | readingProblem path fault => s!"reading problem {path}: " ++ fault.message
  | parsingProblem path .malformed => s!"parsing problem {path}"
  | parsingProblem path (.rejected reason) => s!"parsing problem {path}: " ++ reason.message
  | running error => "running Benders decomposition: " ++ error.message
  | validating path error => s!"validating {path}: " ++ error.message
  | creating directory fault => s!"creating {directory}: " ++ fault.message
  | writing path fault => s!"writing {path}: " ++ fault.message

/-- The directory part of a path, empty if there is none. -/
def directoryOf (path : String) : String :=
  let trim (cs : List Char) : List Char := cs.dropWhile (· = '/')
  let parent := (trim path.toList.reverse).dropWhile (· ≠ '/')
  let directory := String.ofList (trim parent).reverse
  if directory.isEmpty && !parent.isEmpty then "/" else directory

def readProblem (text : String) : Except (LoadError (Refusal Float)) (DecomposedProblem Float) :=
  match Json.parse? text with
  | some form => DecomposedProblem.ofJson form
  | none => .error .malformed

variable {m : Type → Type} [Monad m]

namespace Host

def printLine (h : Host m) (line : String) : m Unit := h.print (line ++ "\n")

/-- A step that may fail, with its failure in the words of the session. -/
def attempt {ε α : Type} (x : m (Except ε α)) (failure : ε → Failure) : ExceptT Failure m α :=
  ExceptT.mk do return (← x).mapError failure

def check {ε α : Type} (x : Except ε α) (failure : ε → Failure) : ExceptT Failure m α :=
  attempt (pure x) failure

def loadProblem (h : Host m) (path : String) : ExceptT Failure m (DecomposedProblem Float) := do
  let text ← attempt (h.read path) (.readingProblem path)
  check (readProblem text) (.parsingProblem path)

/-- The configuration of a run: defaults, then the file, then options. -/
def loadConfiguration (h : Host m) (o : SolveOptions) : ExceptT Failure m (Configuration Float) := do
  let base ← match o.config with
    | none => pure .default
    | some path => do
      let text ← attempt (h.read path) (.readingConfig path)
      check (Configuration.ofText text) (.parsingConfig path)
  let c := o.override base
  check c.validate .configuration
  return c

/-- Writes a record, in directories that are created as needed. -/
def writeRecord (h : Host m) (path : String) (record : Json Float) : ExceptT Failure m Unit := do
  let directory := directoryOf path
  if !directory.isEmpty then attempt (h.createDirectories directory) (.creating directory)
  attempt (h.write path record.pretty) (.writing path)

/-- Solves a problem, reports the result and records it where that is asked for. -/
def solve (h : Host m) (o : SolveOptions) : ExceptT Failure m Unit := do
  let c ← h.loadConfiguration o
  let p ← h.loadProblem o.problem
  let clock ← ExceptT.lift h.startClock
  let backend : Backend m Float := ConicSolver.backend ConicProgram.solveByPivoting
  let result ← attempt (p.runOn h.buildPool backend clock c).run .running
  ExceptT.lift ((reportLines result).forM h.printLine)
  if let some path := o.out then
    let stamp ← ExceptT.lift h.stamp
    h.writeRecord path (recordJson stamp o.problem c result)
    ExceptT.lift (h.printLine s!"Run record written to {path}")

def validate (h : Host m) (path : String) : ExceptT Failure m Unit := do
  let p ← h.loadProblem path
  check p.validate (.validating path)
  ExceptT.lift ((descriptionLines path p).forM h.printLine)

/-- Writes the default configuration to a file or prints it. -/
def config (h : Host m) (out : Option String) : ExceptT Failure m Unit := do
  let text ← check (Configuration.toText .default) .configuration
  match out with
  | none => ExceptT.lift (h.print text)
  | some path =>
    attempt (h.write path text) (.writing path)
    ExceptT.lift (h.printLine s!"Default configuration written to {path}")

def carryOut (h : Host m) : Command → ExceptT Failure m Unit
  | .solve options => h.solve options
  | .validate problem => h.validate problem
  | .config out => h.config out

end Host

def usage : String :=
  "Regularized Benders decomposition for capacity expansion models\n\n" ++
  "Usage: mes [OPTIONS] <COMMAND>\n\n" ++
  "Commands:\n" ++
  "  solve     Solve a decomposed problem with Benders decomposition\n" ++
  "  validate  Check a decomposed problem without solving it\n" ++
  "  config    Print the default run configuration as TOML\n" ++
  "  help      Print this message\n\n" ++
  "Options of solve:\n" ++
  "  --problem <PROBLEM>            Decomposed problem (JSON)\n" ++
  "  --config <CONFIG>              Run configuration (TOML); defaults apply when omitted\n" ++
  "  -o, --out <OUT>                Write the run record (JSON) here\n" ++
  "  --max-iter <MAX_ITER>          Override MaxIter\n" ++
  "  --max-cpu-time <MAX_CPU_TIME>  Override MaxCpuTime (seconds)\n" ++
  "  --conv-tol <CONV_TOL>          Override ConvTol\n" ++
  "  --stab-param <STAB_PARAM>      Override StabParam (level-set parameter in [0, 1])\n" ++
  "  --stab-dynamic                 Adjust the level-set parameter from bound progress\n" ++
  "  --integer-investment           Keep integrality of investment variables\n" ++
  "  --automatic-slack-penalty      Give every subproblem a slack penalty\n" ++
  "  --distributed                  Evaluate subproblems in parallel\n" ++
  "  --threads <THREADS>            Worker threads for --distributed (0 = all cores)\n\n" ++
  "Options of validate:\n" ++
  "  --problem <PROBLEM>            Decomposed problem (JSON)\n\n" ++
  "Options of config:\n" ++
  "  -o, --out <OUT>                Write the configuration here instead of stdout\n\n" ++
  "Options of all commands:\n" ++
  "  --log-level <LOG_LEVEL>        Set the logging level\n" ++
  "  -h, --help                     Print help\n" ++
  "  -V, --version                  Print version\n"

/-- Runs the program on its arguments. The answer is its exit code: zero for success, one for a
request that failed, two for arguments that make no request. -/
def runProgram (h : Host m) (arguments : List String) : m UInt32 := do
  match readRequest .empty arguments with
  | .ok command =>
    match ← (h.carryOut command).run with
    | .ok () => return 0
    | .error failure =>
      h.complain ("Error: " ++ failure.message)
      return 1
  | .error .help =>
    h.print usage
    return 0
  | .error .version =>
    h.printLine (programName ++ " " ++ programVersion)
    return 0
  | .error (.fault f) =>
    h.complain ("error: " ++ f.message)
    return 2

end BendersPlanning.CommandLine

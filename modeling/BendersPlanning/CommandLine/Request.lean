import BendersPlanning.CommandLine.Arguments
import BendersPlanning.CommandLine.Value
import BendersPlanning.Run.Configuration

/-!
# Requests to the program

The program has three commands: solve a decomposed problem, check one, write the default
configuration. Options of a run override its configuration file.
-/

namespace BendersPlanning.CommandLine

structure SolveOptions where
  problem : String
  config : Option String
  out : Option String
  maxIter : Option Nat
  maxCpuTime : Option Float
  convTol : Option Float
  stabParam : Option Float
  stabDynamic : Bool
  integerInvestment : Bool
  automaticSlackPenalty : Bool
  distributed : Bool
  threads : Option Nat

inductive Command where
  | solve (options : SolveOptions)
  | validate (problem : String)
  | config (out : Option String)

/-- A configuration with the values that were given as options; switches can only be turned on. -/
def SolveOptions.override (o : SolveOptions) (c : Configuration Float) : Configuration Float :=
  { c with
    maxIter := o.maxIter.getD c.maxIter
    maxCpuTime := o.maxCpuTime.getD c.maxCpuTime
    convTol := o.convTol.getD c.convTol
    stabParam := o.stabParam.getD c.stabParam
    stabDynamic := o.stabDynamic || c.stabDynamic
    integerInvestment := o.integerInvestment || c.integerInvestment
    automaticSlackPenalty := o.automaticSlackPenalty || c.automaticSlackPenalty
    distributed := o.distributed || c.distributed
    threads := o.threads.getD c.threads }

namespace OptionSpec

def path (name : String) (short : Option Char) : OptionSpec :=
  ⟨name, short, some fun text => !text.isEmpty⟩

def count (name : String) : OptionSpec := ⟨name, none, some fun text => (readCount? text).isSome⟩

def number (name : String) : OptionSpec := ⟨name, none, some fun text => (readNumber? text).isSome⟩

/-- The level of log output, which every command takes; nothing is logged. -/
def logLevel : OptionSpec := ⟨"log-level", none, some isLogLevel⟩

end OptionSpec

open OptionSpec (flag path count number)

def solveOptions : List OptionSpec := [
  path "problem" none, path "config" none, path "out" (some 'o'), count "max-iter",
  number "max-cpu-time", number "conv-tol", number "stab-param", flag "stab-dynamic",
  flag "integer-investment", flag "automatic-slack-penalty", flag "distributed", count "threads"]

/-- The path of the problem, which has to be given. -/
def Arguments.problem (a : Arguments) : Except Interruption String :=
  match a.value? "problem" with
  | some path => .ok path
  | none => .error (.fault (.missingOption "problem"))

def Arguments.solve (a : Arguments) : Except Interruption Command := do
  let problem ← a.problem
  let count (name : String) : Option Nat := (a.value? name).bind readCount?
  let number (name : String) : Option Float := (a.value? name).bind readNumber?
  return .solve {
    problem := problem
    config := a.value? "config"
    out := a.value? "out"
    maxIter := count "max-iter"
    maxCpuTime := number "max-cpu-time"
    convTol := number "conv-tol"
    stabParam := number "stab-param"
    stabDynamic := a.has "stab-dynamic"
    integerInvestment := a.has "integer-investment"
    automaticSlackPenalty := a.has "automatic-slack-penalty"
    distributed := a.has "distributed"
    threads := count "threads" }

/-- The commands by name, with their options and what these mean. -/
def commands : List (String × List OptionSpec × (Arguments → Except Interruption Command)) := [
  ("solve", solveOptions, Arguments.solve),
  ("validate", [path "problem" none], fun a => do return .validate (← a.problem)),
  ("config", [path "out" (some 'o')], fun a => return .config (a.value? "out"))]

/-- Reads what follows the word `help`: nothing or the name of one command. -/
def readHelp (texts : List String) : Interruption :=
  match texts with
  | [] => .help
  | name :: rest =>
    if name ≠ "help" ∧ !commands.any (·.1 == name) then .fault (.unexpectedArgument name)
    else match rest with
      | [] => .help
      | text :: _ => .fault (.unexpectedArgument text)

/-- Reads a request: options of the program, the name of a command, options of the command. The
options before the name are settled only after those behind it. -/
def readRequest (a : Arguments) : List String → Except Interruption Command
  | [] => do
    let _ ← a.settle
    .error (.fault .missingCommand)
  | text :: rest => do
    if !a.closed && !a.isAwaiting then
      if text = "help" then throw (readHelp rest)
      if let some (_, options, command) := commands.find? (·.1 == text) then
        let command ← command (← Arguments.read (.logLevel :: .help :: options) rest)
        let _ ← a.settle
        return command
    readRequest (← a.step [.logLevel, .help, .version] text) rest

end BendersPlanning.CommandLine

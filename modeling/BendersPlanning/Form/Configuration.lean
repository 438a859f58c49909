import BendersPlanning.Form.Model
import BendersPlanning.Run.Configuration
import BendersPlanning.Toml.Reader
import BendersPlanning.Toml.Writer

/-!
# Forms of run configurations

A configuration has a JSON form, and a TOML text that is its file format. Text that is read is checked
for its ranges as well.
-/

namespace BendersPlanning

variable {K ε : Type} [Scalar K]

open Fields (withDefault)

namespace Configuration

/-- The fields with their names, given how numbers are represented. -/
def form (number : K → Json K) (c : Configuration K) : Json K := .obj [
  ("MaxIter", .ofNat c.maxIter),
  ("MaxCpuTime", number c.maxCpuTime),
  ("ConvTol", number c.convTol),
  ("StabParam", number c.stabParam),
  ("StabDynamic", .bool c.stabDynamic),
  ("IntegerInvestment", .bool c.integerInvestment),
  ("Distributed", .bool c.distributed),
  ("IncludeAutomaticSlackPenalty", .bool c.automaticSlackPenalty),
  ("Threads", .ofNat c.threads),
  ("Solver", c.solver.form number)]

def toJson (c : Configuration K) : Json K := c.form Json.number

/-- Reads a configuration; missing values have their default. -/
def ofJson : Reader K ε (Configuration K) :=
  let d : Configuration K := .default
  Fields.reader <|
    Configuration.mk <$> withDefault "MaxIter" Json.readIndex d.maxIter
      <*> withDefault "MaxCpuTime" Json.readNumber d.maxCpuTime
      <*> withDefault "ConvTol" Json.readNumber d.convTol
      <*> withDefault "StabParam" Json.readNumber d.stabParam
      <*> withDefault "StabDynamic" Json.readBool d.stabDynamic
      <*> withDefault "IntegerInvestment" Json.readBool d.integerInvestment
      <*> withDefault "Distributed" Json.readBool d.distributed
      <*> withDefault "IncludeAutomaticSlackPenalty" Json.readBool d.automaticSlackPenalty
      <*> withDefault "Threads" Json.readIndex d.threads
      <*> withDefault "Solver" SolverSettings.ofJson d.solver

/-- The text of a configuration file. -/
def toText (c : Configuration Float) : Except (RunError Float) String :=
  match Toml.write? (c.form .num) with
  | some text => .ok text
  | none => .error (.configuration .unwritable)

/-- Reads a configuration file; missing values have their default. -/
def ofText (text : String) : Except (RunError Float) (Configuration Float) := do
  let form ← match Toml.parse? text with
    | some form => .ok form
    | none => .error (.configuration .unreadable)
  let read : Reader Float Empty (Configuration Float) := ofJson
  match read form with
  | .ok c =>
    c.validate
    return c
  | .error _ => .error (.configuration .unreadable)

end Configuration

end BendersPlanning

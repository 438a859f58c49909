import BendersPlanning.CommandLine.Session
import Std.Time.Format

/-!
# The program

Files, standard output and the clock of the machine it runs on.
-/

namespace BendersPlanning.CommandLine

/-- The reason of a file error as the system gives it; some errors carry its number negated. -/
def FileFault.ofError (e : IO.Error) : FileFault :=
  let reason (code : UInt32) (text : String) : FileFault :=
    ⟨text.capitalize, if 2 * code.toNat < Json.shortLimit then code.toNat else Json.shortLimit - code.toNat⟩
  match e with
  | .noFileOrDirectory _ code text => reason code text
  | .alreadyExists _ code text | .invalidArgument _ code text | .permissionDenied _ code text
  | .resourceExhausted _ code text | .inappropriateType _ code text | .noSuchThing _ code text =>
    reason code text
  | e => ⟨e.toString, 5⟩

def caught {α : Type} (x : IO α) : IO (Except FileFault α) := do
  match ← x.toBaseIO with
  | .ok a => return .ok a
  | .error e => return .error (.ofError e)

/-- Random bytes as an identifier of version four. -/
def identifier (bytes : ByteArray) : String :=
  let digits := bytes.toList.zipIdx.flatMap fun (b, i) =>
    let n := if i = 6 then 64 + b.toNat % 16 else if i = 8 then 128 + b.toNat % 64 else b.toNat
    [Nat.digitChar (n / 16), Nat.digitChar (n % 16)]
  let part (start size : Nat) : String := String.ofList ((digits.drop start).take size)
  "-".intercalate [part 0 8, part 8 4, part 12 4, part 16 4, part 20 12]

def machine : Host IO where
  print text := IO.print text
  complain line := IO.eprintln line
  read path := caught (IO.FS.readFile path)
  write path text := caught (IO.FS.writeFile path text)
  createDirectories path := caught (IO.FS.createDirAll path)
  startClock := do
    let start ← IO.monoNanosNow
    return fun _ => do return ((← IO.monoNanosNow) - start).toFloat / 1e9
  stamp := do
    let now ← Std.Time.Timestamp.now
    let zone := Std.Time.TimeZone.ZoneRules.UTC
    return {
      runId := identifier (← IO.getRandomBytes 16)
      timestamp := (Std.Time.DateTime.ofTimestamp now zone).toISO8601String }

end BendersPlanning.CommandLine

def main (arguments : List String) : IO UInt32 :=
  BendersPlanning.CommandLine.runProgram BendersPlanning.CommandLine.machine arguments

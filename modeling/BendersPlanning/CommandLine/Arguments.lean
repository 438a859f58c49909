/-!
# Arguments of a command

Arguments are read one after the other. `--name value` and `--name=value` give an option its value,
and so do `-n value`, `-nvalue` and `-n=value`; options without values can be joined behind one dash.
A value that starts with a dash has to be attached. No option may be given twice, and after `--`
nothing may follow.

A value that is an argument of its own is looked at when the next option or the end is reached.
-/

namespace BendersPlanning.CommandLine

structure OptionSpec where
  name : String
  short : Option Char
  /-- Which texts are values for it; none if it takes no value. -/
  admits : Option (String → Bool)

namespace OptionSpec

def takesValue (o : OptionSpec) : Bool := o.admits.isSome

def flag (name : String) : OptionSpec := ⟨name, none, none⟩

def help : OptionSpec := ⟨"help", some 'h', none⟩

def version : OptionSpec := ⟨"version", some 'V', none⟩

end OptionSpec

inductive UsageFault where
  | unknownOption (text : String)
  | unexpectedArgument (text : String)
  | missingValue (option : String)
  | unexpectedValue (option : String)
  | unreadableValue (option value : String)
  | repeatedOption (option : String)
  | missingOption (option : String)
  | missingCommand
  deriving DecidableEq, Repr

def UsageFault.message : UsageFault → String
  | unknownOption text => s!"unexpected argument '{text}' found"
  | unexpectedArgument text => s!"unexpected argument '{text}' found"
  | missingValue option => s!"a value is required for '--{option}' but none was supplied"
  | unexpectedValue option => s!"unexpected value for '--{option}' found; no more were expected"
  | unreadableValue option value => s!"invalid value '{value}' for '--{option}'"
  | repeatedOption option => s!"the argument '--{option}' cannot be used multiple times"
  | missingOption option => s!"the required argument '--{option}' was not provided"
  | missingCommand => "a subcommand is required but was not provided"

/-- Why reading stops before the end of the arguments. -/
inductive Interruption where
  | fault (f : UsageFault)
  | help
  | version
  deriving DecidableEq, Repr

structure Arguments where
  /-- Options with their values, empty for those that take none. -/
  given : List (String × String)
  /-- The last option, if its value is not attached, with the value once it was read. -/
  pending : Option (OptionSpec × Option String)
  /-- Whether `--` was read. -/
  closed : Bool

namespace Arguments

def empty : Arguments := ⟨[], none, false⟩

def value? (a : Arguments) (name : String) : Option String :=
  (a.given.find? (·.1 == name)).map (·.2)

def has (a : Arguments) (name : String) : Bool := (a.value? name).isSome

/-- Whether the next argument is the value of an option. -/
def isAwaiting (a : Arguments) : Bool := a.pending.any (·.2.isNone)

/-- Notes an option with its value. Asking for help or the version interrupts. -/
def note (a : Arguments) (o : OptionSpec) (value : String) : Except Interruption Arguments :=
  if o.name = OptionSpec.help.name then .error .help
  else if o.name = OptionSpec.version.name then .error .version
  else if a.has o.name then .error (.fault (.repeatedOption o.name))
  else if o.admits.any fun admits => !admits value then
    .error (.fault (.unreadableValue o.name value))
  else .ok { a with given := a.given ++ [(o.name, value)] }

/-- Looks at the value of the last option. -/
def settle (a : Arguments) : Except Interruption Arguments :=
  match a.pending with
  | none => .ok a
  | some (o, none) => .error (.fault (.missingValue o.name))
  | some (o, some value) => { a with pending := none }.note o value

/-- Takes an option with the value attached to it, if any. -/
def take (a : Arguments) (o : OptionSpec) (attached : Option String) :
    Except Interruption Arguments :=
  match o.takesValue, attached with
  | true, some value => do (← a.settle).note o value
  | true, none => do return { (← a.settle) with pending := some (o, none) }
  | false, some _ => .error (.fault (.unexpectedValue o.name))
  | false, none => do (← a.settle).note o ""

/-- Takes the options behind one dash; what follows one that takes a value is the value. -/
def takeShort (options : List OptionSpec) : List Char → Arguments → Except Interruption Arguments
  | [], a => .ok a
  | c :: rest, a =>
    match options.find? (·.short == some c), rest with
    | none, _ => .error (.fault (.unknownOption s!"-{c}"))
    | some o, [] => a.take o none
    | some o, d :: more =>
      if o.takesValue then a.take o (some (String.ofList (if d = '=' then more else d :: more)))
      else do takeShort options rest (← a.take o none)

/-- Takes an option by its name, with a value behind an equals sign. -/
def takeLong (options : List OptionSpec) (text : List Char) (a : Arguments) :
    Except Interruption Arguments :=
  let name := String.ofList (text.takeWhile (· ≠ '='))
  let attached := match text.dropWhile (· ≠ '=') with
    | _ :: value => some (String.ofList value)
    | [] => none
  match options.find? (·.name == name) with
  | some o => a.take o attached
  | none => .error (.fault (.unknownOption s!"--{name}"))

def step (options : List OptionSpec) (a : Arguments) (text : String) :
    Except Interruption Arguments :=
  if a.closed then .error (.fault (.unexpectedArgument text))
  else match text.toList with
    | ['-', '-'] => .ok { a with closed := true }
    | '-' :: '-' :: rest => a.takeLong options rest
    | '-' :: c :: rest => a.takeShort options (c :: rest)
    | _ =>
      match a.pending with
      | some (o, none) => .ok { a with pending := some (o, some text) }
      | _ => .error (.fault (.unexpectedArgument text))

def read (options : List OptionSpec) (texts : List String) : Except Interruption Arguments := do
  (← texts.foldlM (step options) empty).settle

end Arguments

end BendersPlanning.CommandLine

import BendersPlanning.Json.Reader
import BendersPlanning.Scalar

/-!
# Values on the command line

Counts are digits after an optional plus. Numbers may also have a point with digits on either side, an
exponent and a sign, and there are words for infinities and for no number. Letters count in any case.
-/

namespace BendersPlanning.CommandLine

/-- A count of at most 64 bits. -/
def readCount? (text : String) : Option Nat :=
  let digits := match text.toList with
    | '+' :: rest => rest
    | cs => cs
  if digits.isEmpty || !digits.all Char.isDigit then none
  else
    let n := Json.digitsNumber digits
    if n < Json.wordLimit then some n else none

/-- The exponent at the end of a number. -/
def readExponent? : List Char → Option Int
  | [] => some 0
  | c :: rest =>
    let (down, digits) := match rest with
      | '-' :: more => (true, more)
      | '+' :: more => (false, more)
      | _ => (false, rest)
    if c.toLower ≠ 'e' || digits.isEmpty || !digits.all Char.isDigit then none
    else
      let size : Int := Json.digitsNumber digits
      some (if down then -size else size)

/-- A number without its sign. -/
def readMagnitude? (cs : List Char) : Option Float :=
  let word := String.ofList (cs.map Char.toLower)
  if word = "inf" || word = "infinity" then some Scalar.infinity
  else if word = "nan" then some Scalar.undefined
  else
    let whole := cs.takeWhile Char.isDigit
    let (fraction, rest) := match cs.dropWhile Char.isDigit with
      | '.' :: rest => (rest.takeWhile Char.isDigit, rest.dropWhile Char.isDigit)
      | rest => ([], rest)
    if whole.isEmpty && fraction.isEmpty then none
    else (readExponent? rest).map fun exponent =>
      Decimal.toFloat false ⟨Json.digitsNumber (whole ++ fraction), exponent - fraction.length⟩

/-- A number; the nearest double is meant. -/
def readNumber? (text : String) : Option Float :=
  match text.toList with
  | '-' :: rest => (readMagnitude? rest).map fun x => -x
  | '+' :: rest => readMagnitude? rest
  | cs => readMagnitude? cs

/-- Whether a text names a level of log output, by word or by number. -/
def isLogLevel (text : String) : Bool :=
  let word := String.ofList (text.toList.map Char.toLower)
  ["error", "warn", "info", "debug", "trace"].contains word ||
    (readCount? text).any fun n => 1 ≤ n && n ≤ 5

end BendersPlanning.CommandLine

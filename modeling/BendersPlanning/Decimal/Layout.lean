import BendersPlanning.Decimal.Basic

/-!
# How numbers are written

A `Layout` collects the decisions of one format. `Layout.text` writes a double with the fewest
digits that read back to it; `Float.fixedText` and `Float.scientificText` write a given number of
places, rounding the exact value.
-/

namespace BendersPlanning

/-- The decisions of a format that writes numbers with their shortest digits. -/
structure Layout where
  /-- Least power of ten of the leading digit that is written without an exponent. -/
  leastPositional : Option Int
  /-- Greatest power of ten of the leading digit that is written without an exponent. -/
  greatestPositional : Option Int
  /-- Whether a whole number keeps a point and a zero. -/
  wholeMark : Bool
  /-- Whether zero keeps its sign. -/
  signedZero : Bool
  undefinedText : String
  infinityText : String

namespace Layout

/-- Numbers inside messages: never an exponent, no point after whole numbers. -/
def message : Layout := ⟨none, none, false, true, "NaN", "inf"⟩

/-- Numbers in JSON: an exponent below the fifth decimal place and from `1e16` on, and a point in
every number without one. -/
def json : Layout := ⟨some (-5), some 15, true, false, "null", "null"⟩

/-- Numbers in a configuration file: never an exponent, and always a point. -/
def configuration : Layout := ⟨none, none, true, true, "nan", "inf"⟩

/-- Digits with a point `places` from their end, padded with zeros in front. -/
def point (digits : Nat) (places : Nat) : String :=
  let text := toString digits
  let padded := "".pushn '0' (places + 1 - text.length) ++ text
  let cut := padded.length - places
  (padded.take cut).toString ++ "." ++ (padded.drop cut).toString

def positional (wholeMark : Bool) (d : Decimal) : String :=
  if 0 ≤ d.exponent then
    toString d.digits ++ "".pushn '0' d.exponent.toNat ++ (if wholeMark then ".0" else "")
  else point d.digits (-d.exponent).toNat

/-- A decimal as one leading digit, further digits after a point, and a signed exponent. -/
def exponential (d : Decimal) : String :=
  let places := (toString d.digits).length - 1
  let mantissa := if places = 0 then toString d.digits else point d.digits places
  mantissa ++ (if d.leading < 0 then "e-" else "e+") ++ toString d.leading.natAbs

/-- Whether the layout writes a decimal without an exponent. -/
def isPositional (l : Layout) (d : Decimal) : Bool :=
  l.leastPositional.all (· ≤ d.leading) && l.greatestPositional.all (d.leading ≤ ·)

def text (l : Layout) (x : Float) : String :=
  if x.isNaN then l.undefinedText
  else
    let negative := x < 0.0 || (l.signedZero && x == 0.0 && 1.0 / x < 0.0)
    let sign := if negative then "-" else ""
    match BinaryMagnitude.ofBits? x.toBits with
    | none => sign ++ l.infinityText
    | some m =>
      let d := Decimal.shortest m
      sign ++ if l.isPositional d then positional l.wholeMark d else exponential d

end Layout

/-- A double with `places` decimal places, an exact half going to the even neighbour. -/
def fixedText (places : Nat) (x : Float) : String :=
  if x.isNaN then "NaN"
  else
    let sign := if x < 0.0 || (x == 0.0 && 1.0 / x < 0.0) then "-" else ""
    match BinaryMagnitude.ofBits? x.toBits with
    | none => sign ++ "inf"
    | some m =>
      let (n, d) := powerFraction 2 m.significand m.exponent
      let digits := roundDiv (n * Nat.pow 10 places) d
      sign ++ if places = 0 then toString digits else Layout.point digits places

/-- A double as one digit, `places` further digits and an exponent. -/
def scientificText (places : Nat) (x : Float) : String :=
  if x.isNaN then "NaN"
  else
    let sign := if x < 0.0 || (x == 0.0 && 1.0 / x < 0.0) then "-" else ""
    match BinaryMagnitude.ofBits? x.toBits with
    | none => sign ++ "inf"
    | some m =>
      let (n, d) := powerFraction 2 m.significand m.exponent
      let leading := if n = 0 then 0 else leadingExponent n d
      let (up, down) := powerFraction 10 1 (places - leading)
      let rounded := roundDiv (n * up) (d * down)
      let (digits, leading) :=
        if rounded = Nat.pow 10 (places + 1) then (rounded / 10, leading + 1) else (rounded, leading)
      let mantissa := if places = 0 then toString digits else Layout.point digits places
      sign ++ mantissa ++ "e" ++ toString leading

/-- Numbers that messages can quote. -/
class NumberText (K : Type) where
  /-- The shortest text that reads back, without an exponent. -/
  plain : K → String
  /-- The text with a given number of decimal places. -/
  fixed : Nat → K → String

instance : NumberText Float where
  plain := Layout.message.text
  fixed := fixedText

end BendersPlanning

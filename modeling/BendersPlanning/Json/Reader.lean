import BendersPlanning.Decimal.Basic
import BendersPlanning.Json.Value

/-!
# Reading JSON

The text is cut into tokens, and the tokens are read one after the other onto a stack of open arrays
and objects. A number is whole when it has neither point nor exponent and fits 64 bits, signed for
negative ones; all others are the nearest double and must be finite. At most 127 arrays and objects
may be open at a time.
-/

namespace BendersPlanning

namespace Json

inductive Token where
  | openArray
  | closeArray
  | openObject
  | closeObject
  | comma
  | colon
  | value (v : Json Float)
  | text (s : String)

def isBlank (c : Char) : Bool := c = ' ' || c = '\t' || c = '\n' || c = '\r'

def hexDigit? (c : Char) : Option Nat :=
  if c.isDigit then some (c.toNat - 48)
  else if 'a' ≤ c ∧ c ≤ 'f' then some (c.toNat - 87)
  else if 'A' ≤ c ∧ c ≤ 'F' then some (c.toNat - 55)
  else none

def hexNumber? (cs : List Char) : Option Nat :=
  cs.foldlM (fun n c => (16 * n + ·) <$> hexDigit? c) 0

/-- The character of an escape that takes one letter. -/
def simpleEscape? : Char → Option Char
  | '"' => some '"'
  | '\\' => some '\\'
  | '/' => some '/'
  | 'b' => some (Char.ofNat 8)
  | 'f' => some (Char.ofNat 12)
  | 'n' => some '\n'
  | 'r' => some '\r'
  | 't' => some '\t'
  | _ => none

/-- Reads a string up to its closing quote; characters beyond the basic plane are escaped by two
units, which must come together. -/
def scanString : Nat → List Char → List Char → Option (String × List Char)
  | 0, _, _ => none
  | fuel + 1, acc, cs =>
    match cs with
    | '"' :: rest => some (String.ofList acc.reverse, rest)
    | '\\' :: 'u' :: a :: b :: c :: d :: rest => do
      let unit ← hexNumber? [a, b, c, d]
      if unit < 0xD800 ∨ 0xDFFF < unit then scanString fuel (Char.ofNat unit :: acc) rest
      else
        match rest with
        | '\\' :: 'u' :: e :: f :: g :: h :: rest => do
          let low ← hexNumber? [e, f, g, h]
          if unit ≤ 0xDBFF ∧ 0xDC00 ≤ low ∧ low ≤ 0xDFFF then
            let code := 0x10000 + (unit - 0xD800) * 0x400 + (low - 0xDC00)
            scanString fuel (Char.ofNat code :: acc) rest
          else none
        | _ => none
    | '\\' :: c :: rest => do scanString fuel ((← simpleEscape? c) :: acc) rest
    | c :: rest => if c.toNat < 32 then none else scanString fuel (c :: acc) rest
    | [] => none

def digitsNumber (cs : List Char) : Nat := cs.foldl (fun n c => 10 * n + (c.toNat - 48)) 0

/-- The whole or finite number of a literal: sign, digits before and after the point, exponent. -/
def numberValue? (negative : Bool) (whole fraction : List Char) (exponent : Option Int) :
    Option (Json Float) :=
  let digits := digitsNumber (whole ++ fraction)
  let isWhole := fraction.isEmpty && exponent.isNone && !(negative && digits = 0)
  if isWhole && (if negative then digits ≤ signedLimit else digits < wordLimit) then
    some (.int (if negative then -digits else digits))
  else
    let x := Decimal.toFloat negative ⟨digits, exponent.getD 0 - fraction.length⟩
    if x.isFinite then some (.num x) else none

def scanNumber (cs : List Char) : Option (Json Float × List Char) := do
  let (negative, cs) := match cs with
    | '-' :: rest => (true, rest)
    | _ => (false, cs)
  let whole := cs.takeWhile Char.isDigit
  let cs := cs.dropWhile Char.isDigit
  if whole.isEmpty || (whole.head? == some '0' && 1 < whole.length) then none
  let (fraction, cs) ← match cs with
    | '.' :: rest =>
      let fraction := rest.takeWhile Char.isDigit
      if fraction.isEmpty then none else pure (fraction, rest.dropWhile Char.isDigit)
    | _ => pure ([], cs)
  let (exponent, cs) ← match cs with
    | c :: rest =>
      if c = 'e' ∨ c = 'E' then
        let (down, rest) := match rest with
          | '+' :: more => (false, more)
          | '-' :: more => (true, more)
          | _ => (false, rest)
        let digits := rest.takeWhile Char.isDigit
        if digits.isEmpty then none
        else
          let size : Int := digitsNumber digits
          pure (some (if down then -size else size), rest.dropWhile Char.isDigit)
      else pure (none, cs)
    | [] => pure (none, cs)
  return (← numberValue? negative whole fraction exponent, cs)

def tokens : Nat → List Char → List Token → Option (List Token)
  | _, [], acc => some acc.reverse
  | 0, _, _ => none
  | fuel + 1, cs, acc =>
    match cs with
    | [] => some acc.reverse
    | '[' :: rest => tokens fuel rest (.openArray :: acc)
    | ']' :: rest => tokens fuel rest (.closeArray :: acc)
    | '\x7b' :: rest => tokens fuel rest (.openObject :: acc)
    | '\x7d' :: rest => tokens fuel rest (.closeObject :: acc)
    | ',' :: rest => tokens fuel rest (.comma :: acc)
    | ':' :: rest => tokens fuel rest (.colon :: acc)
    | 'n' :: 'u' :: 'l' :: 'l' :: rest => tokens fuel rest (.value .null :: acc)
    | 't' :: 'r' :: 'u' :: 'e' :: rest => tokens fuel rest (.value (.bool true) :: acc)
    | 'f' :: 'a' :: 'l' :: 's' :: 'e' :: rest => tokens fuel rest (.value (.bool false) :: acc)
    | '"' :: rest => do
      let (s, rest) ← scanString (rest.length + 1) [] rest
      tokens fuel rest (.text s :: acc)
    | c :: rest =>
      if isBlank c then tokens fuel rest acc
      else do
        let (n, rest) ← scanNumber (c :: rest)
        tokens fuel rest (.value n :: acc)

/-- An array or object that is not closed yet: its items or fields, the last first. -/
inductive Frame where
  | array (items : List (Json Float))
  | object (fields : List (String × Json Float)) (key : String)

/-- What may come next. -/
inductive Expect where
  | value
  /-- A first item, or the end of the array just opened. -/
  | itemOrEnd
  /-- A first key, or the end of the object just opened. -/
  | keyOrEnd
  | key
  | colon
  /-- A comma or the end of the innermost array or object; after the outermost value, nothing. -/
  | more

/-- Open arrays and objects, the innermost first, the value that is complete once none is open, and
what may come next. -/
structure ReadState where
  frames : List Frame
  result : Json Float
  expect : Expect

namespace ReadState

/-- Takes a complete value into the innermost open array or object. -/
def push (s : ReadState) (v : Json Float) : ReadState :=
  match s.frames with
  | [] => ⟨[], v, .more⟩
  | .array items :: rest => ⟨.array (v :: items) :: rest, .null, .more⟩
  | .object fields key :: rest => ⟨.object ((key, v) :: fields) "" :: rest, .null, .more⟩

/-- Opens an array or object, at most 127 of them at a time. -/
def enter (s : ReadState) (f : Frame) (expect : Expect) : Option ReadState :=
  if s.frames.length < 127 then some ⟨f :: s.frames, .null, expect⟩ else none

/-- Closes the innermost array or object if it is of the given kind. -/
def leave (s : ReadState) (isArray : Bool) : Option ReadState :=
  match s.frames, isArray with
  | .array items :: rest, true => some ({ s with frames := rest }.push (.arr items.reverse))
  | .object fields _ :: rest, false => some ({ s with frames := rest }.push (.obj fields.reverse))
  | _, _ => none

def step (s : ReadState) (t : Token) : Option ReadState :=
  match s.expect, t with
  | .value, .value v | .itemOrEnd, .value v => some (s.push v)
  | .value, .text v | .itemOrEnd, .text v => some (s.push (.str v))
  | .value, .openArray | .itemOrEnd, .openArray => s.enter (.array []) .itemOrEnd
  | .value, .openObject | .itemOrEnd, .openObject => s.enter (.object [] "") .keyOrEnd
  | .itemOrEnd, .closeArray => s.leave true
  | .keyOrEnd, .closeObject => s.leave false
  | .keyOrEnd, .text k | .key, .text k =>
    match s.frames with
    | .object fields _ :: rest => some ⟨.object fields k :: rest, .null, .colon⟩
    | _ => none
  | .colon, .colon => some { s with expect := .value }
  | .more, .comma =>
    match s.frames with
    | .array _ :: _ => some { s with expect := .value }
    | .object _ _ :: _ => some { s with expect := .key }
    | [] => none
  | .more, .closeArray => s.leave true
  | .more, .closeObject => s.leave false
  | _, _ => none

end ReadState

/-- The value of a JSON text; none if the text is malformed. -/
def parse? (text : String) : Option (Json Float) := do
  let cs := text.toList
  let s ← (← tokens (cs.length + 1) cs []).foldlM ReadState.step ⟨[], .null, .value⟩
  match s.frames, s.expect with
  | [], .more => some s.result
  | _, _ => none

end Json

end BendersPlanning

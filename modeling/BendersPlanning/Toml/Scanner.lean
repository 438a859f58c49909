import BendersPlanning.Json.Reader
import BendersPlanning.Scalar

/-!
# Keys and plain values of TOML

Scanners take characters from the front of a text or fail. Here are those of blanks, keys, strings,
numbers and dates; a date counts as a record, so that it is neither number nor text.
-/

namespace BendersPlanning.Toml

/-- A scanner takes something from the front of a text. -/
abbrev Scanner := StateT (List Char) Option

namespace Scanner

def rest : Scanner (List Char) := get

def one (p : Char → Bool) : Scanner Char := do
  match ← get with
  | c :: cs => if p c then set cs; return c else failure
  | [] => failure

def char (c : Char) : Scanner Unit := discard (one (· == c))

def literal (s : String) : Scanner Unit := s.toList.forM char

/-- Takes the longest run of characters that satisfy a condition. -/
def many (p : Char → Bool) : Scanner (List Char) := do
  let cs ← get
  set (cs.dropWhile p)
  return cs.takeWhile p

/-- Takes a literal if it comes next. -/
def accept (s : String) : Scanner Bool := (do literal s; return true) <|> return false

/-- Takes a number of digits of one kind. -/
def count (n : Nat) (p : Char → Bool) : Scanner (List Char) := (List.replicate n ()).mapM fun _ => one p

end Scanner

open Scanner

/-- Control characters other than the tab may not occur in comments and strings. -/
def isPlain (c : Char) : Bool := c = '\t' || (32 ≤ c.toNat && c.toNat ≠ 127)

def blanks : Scanner Unit := discard (many fun c => c = ' ' || c = '\t')

def newline : Scanner Unit := literal "\n" <|> literal "\r\n"

/-- A comment up to the end of its line, if there is one. -/
def comment : Scanner Unit := do
  if ← accept "#" then discard (many isPlain)

/-- Blanks, comments and line breaks between the items of an array; `fuel` bounds the lines. -/
def gap : Nat → Scanner Unit
  | 0 => blanks
  | fuel + 1 => do
    blanks
    comment
    (do newline; gap fuel) <|> return ()

/-- The end of a line or of the text. -/
def lineEnd : Scanner Unit := do
  blanks
  comment
  if (← rest).isEmpty then return () else newline

/-- The character of `n` hexadecimal digits; surrogates are none. -/
def unicode (n : Nat) : Scanner Char := do
  let digits ← count n fun c => (Json.hexDigit? c).isSome
  let code := (Json.hexNumber? digits).getD 0
  if code < 0xD800 ∨ (0xDFFF < code ∧ code < 0x110000) then return Char.ofNat code else failure

/-- The character of an escape, after its backslash. -/
def escaped : Scanner Char := do
  match ← one fun _ => true with
  | 'b' => return Char.ofNat 8
  | 't' => return '\t'
  | 'n' => return '\n'
  | 'f' => return Char.ofNat 12
  | 'r' => return '\r'
  | '"' => return '"'
  | '\\' => return '\\'
  | 'u' => unicode 4
  | 'U' => unicode 8
  | _ => failure

/-- The rest of a string in double quotes on one line. -/
def basicString : Nat → List Char → Scanner String
  | 0, _ => failure
  | fuel + 1, acc => do
    match ← one fun _ => true with
    | '"' => return String.ofList acc.reverse
    | '\\' => basicString fuel ((← escaped) :: acc)
    | c => if isPlain c then basicString fuel (c :: acc) else failure

/-- The rest of a string in single quotes on one line. -/
def literalString : Scanner String := do
  let cs ← many fun c => isPlain c && c ≠ '\''
  char '\''
  return String.ofList cs

/-- The rest of a string over several lines, closed by three quotes; one or two more belong to it.
A backslash escapes a character or, in double quotes, skips a line break and the blanks after it. -/
def longString (quote : Char) : Nat → List Char → Scanner String
  | 0, _ => failure
  | fuel + 1, acc => do
    let quotes := (← rest).takeWhile (· = quote)
    if 3 ≤ quotes.length then
      set ((← rest).drop (min quotes.length 5))
      return String.ofList ((quotes.drop 3).take 2 ++ acc).reverse
    else if ← accept "\r\n" then longString quote fuel ('\n' :: acc)
    else
      match ← one fun _ => true with
      | '\n' => longString quote fuel ('\n' :: acc)
      | '\\' =>
        if quote = '\'' then longString quote fuel ('\\' :: acc)
        else
          let folded ← (do
            blanks
            newline
            discard (many fun c => c = ' ' || c = '\t' || c = '\n' || c = '\r')
            return true) <|> return false
          if folded then longString quote fuel acc
          else longString quote fuel ((← escaped) :: acc)
      | c => if isPlain c then longString quote fuel (c :: acc) else failure

def string : Scanner String := do
  let fuel := (← rest).length + 1
  if ← accept "\"\"\"" then
    newline <|> return ()
    longString '"' fuel []
  else if ← accept "'''" then
    newline <|> return ()
    longString '\'' fuel []
  else if ← accept "\"" then basicString fuel []
  else if ← accept "'" then literalString
  else failure

/-- One part of a key: bare, or a string on one line. -/
def simpleKey : Scanner String := do
  let fuel := (← rest).length + 1
  if ← accept "\"" then basicString fuel []
  else if ← accept "'" then literalString
  else
    let cs ← many fun c => c.isAlphanum || c = '_' || c = '-'
    if cs.isEmpty then failure else return String.ofList cs

/-- The further parts of a dotted key. -/
def keyParts : Nat → Scanner (List String)
  | 0 => return []
  | fuel + 1 => do
    blanks
    if ← accept "." then
      blanks
      let part ← simpleKey
      return part :: (← keyParts fuel)
    else return []

/-- A key as the path before its last part, and that part. -/
def key : Scanner (List String × String) := do
  blanks
  let first ← simpleKey
  let parts := first :: (← keyParts (← rest).length)
  return (parts.dropLast, parts.getLastD first)

/-- Digits with single underscores between them. -/
def digits (p : Char → Bool) : Nat → Scanner (List Char)
  | 0 => failure
  | fuel + 1 => do
    let d ← one p
    let more ← (do
      discard (accept "_")
      digits p fuel) <|> return []
    return d :: more

/-- Scans with as much fuel as there are characters. -/
def allDigits (p : Char → Bool) : Scanner (List Char) := do digits p (← rest).length

def sign : Scanner Bool := do
  if ← accept "-" then return true
  discard (accept "+")
  return false

/-- Whole numbers fit 64 bits with sign. -/
def wholeNumber (negative : Bool) (n : Nat) : Scanner (Json Float) :=
  if negative then (if n ≤ Json.signedLimit then return .int (-(n : Int)) else failure)
  else if n < Json.signedLimit then return .int n else failure

/-- A whole number in base sixteen, eight or two. -/
def basedNumber (mark : String) (base : Nat) : Scanner (Json Float) := do
  literal mark
  let ds ← allDigits fun c => (Json.hexDigit? c).any (· < base)
  wholeNumber false (ds.foldl (fun n c => base * n + (Json.hexDigit? c).getD 0) 0)

/-- An infinity or a value that is not a number. -/
def specialNumber : Scanner (Json Float) := do
  let negative ← sign
  if ← accept "inf" then return .num (if negative then -Scalar.infinity else Scalar.infinity)
  literal "nan"
  return .num Scalar.undefined

/-- A number in base ten; with a point or an exponent it is a double, which may not be too large. -/
def decimalNumber : Scanner (Json Float) := do
  let negative ← sign
  let whole ← (do literal "0"; return ['0']) <|> (do
    if (← rest).head? == some '0' then failure
    allDigits Char.isDigit)
  let fraction ← (do char '.'; some <$> allDigits Char.isDigit) <|> return none
  let exponent ← (do
    discard (one fun c => c = 'e' || c = 'E')
    let down ← sign
    let size : Int := Json.digitsNumber (← allDigits Char.isDigit)
    return some (if down then -size else size)) <|> return none
  match fraction, exponent with
  | none, none => wholeNumber negative (Json.digitsNumber whole)
  | _, _ =>
    let places := (fraction.getD []).length
    let x := Decimal.toFloat negative
      ⟨Json.digitsNumber (whole ++ fraction.getD []), exponent.getD 0 - places⟩
    if x == Scalar.infinity then failure else return .num x

/-- A number of fixed length within limits. -/
def field (length least greatest : Nat) : Scanner Nat := do
  let n := Json.digitsNumber (← count length Char.isDigit)
  if least ≤ n ∧ n ≤ greatest then return n else failure

def daysOf (year month : Nat) : Nat :=
  let leap := year % 4 = 0 ∧ (year % 100 ≠ 0 ∨ year % 400 = 0)
  if month = 2 then (if leap then 29 else 28)
  else if month = 4 ∨ month = 6 ∨ month = 9 ∨ month = 11 then 30 else 31

def date : Scanner Unit := do
  let year ← field 4 0 9999
  char '-'
  let month ← field 2 1 12
  char '-'
  discard (field 2 1 (daysOf year month))

def time : Scanner Unit := do
  discard (field 2 0 23)
  char ':'
  discard (field 2 0 59)
  char ':'
  discard (field 2 0 60)
  if ← accept "." then
    let ds ← many Char.isDigit
    if ds.isEmpty then failure

/-- The distance from universal time. -/
def offset : Scanner Unit := do
  if !((← accept "Z") || (← accept "z")) then
    discard (one fun c => c = '+' || c = '-')
    discard (field 2 0 23)
    char ':'
    discard (field 2 0 59)

def moment : Scanner (Json Float) := do
  let before ← rest
  (do
    date
    (do
      discard (one fun c => c = 'T' || c = 't' || c = ' ')
      time
      offset <|> return ()) <|> return ()) <|> time
  let text := String.ofList (before.take (before.length - (← rest).length))
  return .obj [("datetime", .str text)]

def scalar : Scanner (Json Float) :=
  (.str <$> string) <|> (do literal "true"; return .bool true) <|>
    (do literal "false"; return .bool false) <|> moment <|> specialNumber <|>
    basedNumber "0x" 16 <|> basedNumber "0o" 8 <|> basedNumber "0b" 2 <|> decimalNumber

end BendersPlanning.Toml

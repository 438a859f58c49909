import BendersPlanning.Decimal.Layout
import BendersPlanning.Json.Value

/-!
# Writing JSON

Values are written compactly, or over several lines with an indentation of two blanks. Numbers have
their shortest digits, and those that are not finite are written as `null`.
-/

namespace BendersPlanning

namespace Json

def escape (c : Char) : String :=
  let hex (n : Nat) : Char := "0123456789abcdef".toList[n % 16]?.getD '0'
  if c = '"' then "\\\""
  else if c = '\\' then "\\\\"
  else if c = '\n' then "\\n"
  else if c = '\r' then "\\r"
  else if c = '\t' then "\\t"
  else if c.toNat = 8 then "\\b"
  else if c.toNat = 12 then "\\f"
  else if c.toNat < 32 then "\\u00" ++ String.ofList [hex (c.toNat / 16), hex c.toNat]
  else c.toString

def quote (s : String) : String := "\"" ++ String.join (s.toList.map escape) ++ "\""

/-- Text of a value that holds no other. -/
def scalarText : Json Float → Option String
  | .null => some "null"
  | .bool b => some (if b then "true" else "false")
  | .int i => some (toString i)
  | .num x => some (if x.isFinite then Layout.json.text x else "null")
  | .str s => some (quote s)
  | .arr [] => some "[]"
  | .obj [] => some "\x7b\x7d"
  | _ => none

mutual

/-- The text of a value after line breaks of the form `gap`, with `more` in front of each further
level; both empty for compact text. -/
def textWith (gap more colon : String) : Json Float → String
  | .arr (x :: xs) =>
    let inner := gap ++ more
    "[" ++ inner ++ textWith inner more colon x ++ itemsText inner more colon xs ++ gap ++ "]"
  | .obj ((k, x) :: xs) =>
    let inner := gap ++ more
    "\x7b" ++ inner ++ quote k ++ colon ++ textWith inner more colon x ++
      fieldsText inner more colon xs ++ gap ++ "\x7d"
  | j => (scalarText j).getD ""

def itemsText (gap more colon : String) : List (Json Float) → String
  | [] => ""
  | x :: xs => "," ++ gap ++ textWith gap more colon x ++ itemsText gap more colon xs

def fieldsText (gap more colon : String) : List (String × Json Float) → String
  | [] => ""
  | (k, x) :: xs =>
    "," ++ gap ++ quote k ++ colon ++ textWith gap more colon x ++ fieldsText gap more colon xs

end

def compact (j : Json Float) : String := textWith "" "" ":" j

/-- The text of a value with one item or field per line. -/
def pretty (j : Json Float) : String := textWith "\n" "  " ": " j

end Json

end BendersPlanning

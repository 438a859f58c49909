/-!
# JSON values

The tree of a JSON text over a type of numbers. Whole-number literals are kept apart from the others,
since positions and counts are read only from the former. Fields keep the order of the text.
-/

namespace BendersPlanning

/-- A JSON value with numbers in `K`. -/
inductive Json (K : Type) where
  | null
  | bool (value : Bool)
  | int (value : Int)
  | num (value : K)
  | str (text : String)
  | arr (items : List (Json K))
  | obj (fields : List (String × Json K))
  deriving Inhabited

namespace Json

/-- Whole numbers below this one fit 64 bits. -/
def wordLimit : Nat := 0x10000000000000000

/-- Whole numbers below this one, and its negative, fit 64 bits with a sign. -/
def signedLimit : Nat := 0x8000000000000000

/-- Whole numbers below this one fit 32 bits. -/
def shortLimit : Nat := 0x100000000

variable {K : Type}

/-- The value of a field; of two with one name the later counts. -/
def field? (j : Json K) (name : String) : Option (Json K) :=
  match j with
  | .obj fields => (fields.reverse.find? (·.1 == name)).map (·.2)
  | _ => none

def ofNat (n : Nat) : Json K := .int n

/-- An object without the fields that are absent. -/
def ofFields (fields : List (String × Option (Json K))) : Json K :=
  .obj <| fields.filterMap fun (name, value) => value.map fun v => (name, v)

def ofStrings (texts : List String) : Json K := .arr (texts.map .str)

end Json

end BendersPlanning

import BendersPlanning.Decimal.Layout
import BendersPlanning.Json.Value

/-!
# Writing TOML

A record of truth values and numbers is written as one line per field. Records inside it follow under
headers of their own, each after an empty line.
-/

namespace BendersPlanning.Toml

/-- Text of a truth value or number; whole numbers fit 64 bits with sign. -/
def scalarText : Json Float → Option String
  | .bool b => some (if b then "true" else "false")
  | .int i => if -Json.signedLimit ≤ i ∧ i < Json.signedLimit then some (toString i) else none
  | .num x => some (Layout.configuration.text x)
  | _ => none

/-- The fields of a record as lines, its own first and then the tables in it. -/
def fieldLines (fields : List (String × Json Float)) : Option (List String × List String) :=
  fields.foldrM (fun (name, value) (own, tables) =>
    match value with
    | .obj inner => do
      let pairs ← inner.mapM fun (k, v) => (s!"{k} = " ++ ·) <$> scalarText v
      return (own, "" :: s!"[{name}]" :: pairs ++ tables)
    | v => do return ((s!"{name} = " ++ (← scalarText v)) :: own, tables)) ([], [])

/-- The document of a record; none if something in it cannot be written. -/
def write? : Json Float → Option String
  | .obj fields => do
    let (own, tables) ← fieldLines fields
    return String.join ((own ++ tables).map (· ++ "\n"))
  | _ => none

end BendersPlanning.Toml

import BendersPlanning.Json.Value

/-!
# Tables of a TOML document

A document fills a tree of tables. A table may come into being by a header of its own, by a header or
key that passes through it, or by a dotted key, and how it did decides what may still be added to it:
a table has one header, a dotted key extends only tables made by dotted keys, and a value is never
extended.
-/

namespace BendersPlanning.Toml

inductive Origin where
  /-- By its own header. -/
  | header
  /-- By the header of a table inside it. -/
  | passing
  /-- By a dotted key. -/
  | dotted
  deriving DecidableEq, Repr

inductive Node where
  | value (v : Json Float)
  | table (origin : Origin) (entries : List (String × Node))
  /-- Tables of one repeated header, the last first; each as its entries. -/
  | tables (items : List (List (String × Node)))

abbrev Entries := List (String × Node)

/-- Changes the node of a key by `f`, which sees nothing for a new key. -/
def updateKey (key : String) (f : Option Node → Option Node) : Entries → Option Entries
  | [] => (f none).map fun n => [(key, n)]
  | (k, n) :: rest =>
    if k = key then (f (some n)).map fun n => (k, n) :: rest
    else (updateKey key f rest).map ((k, n) :: ·)

/-- Changes the entries of the table at the end of a path of headers; tables on the way are created,
and of repeated ones the last is meant. -/
def updateTable (path : List String) (f : Entries → Option Entries) (entries : Entries) :
    Option Entries :=
  match path with
  | [] => f entries
  | key :: rest => updateKey key (fun
    | none => (updateTable rest f []).map (.table .passing)
    | some (.table origin inner) => (updateTable rest f inner).map (.table origin)
    | some (.tables (last :: before)) =>
      (updateTable rest f last).map fun last => .tables (last :: before)
    | some _ => none) entries

/-- Sets a value by a dotted key. Its tables may be extended only when dotted keys made them. -/
def setValue (path : List String) (key : String) (v : Json Float) (entries : Entries) :
    Option Entries :=
  match path with
  | [] => updateKey key (fun | none => some (.value v) | some _ => none) entries
  | k :: rest => updateKey k (fun
    | none => (setValue rest key v []).map (.table .dotted)
    | some (.table .dotted inner) => (setValue rest key v inner).map (.table .dotted)
    | some _ => none) entries

/-- Opens the table of a header, which may have been passed through before. -/
def openTable (path : List String) (key : String) : Entries → Option Entries :=
  updateTable path <| updateKey key fun
    | none => some (.table .header [])
    | some (.table .passing inner) => some (.table .header inner)
    | some _ => none

/-- Opens a further table of a repeated header. -/
def openItem (path : List String) (key : String) : Entries → Option Entries :=
  updateTable path <| updateKey key fun
    | none => some (.tables [[]])
    | some (.tables items) => some (.tables ([] :: items))
    | some _ => none

mutual

def Node.toJson : Node → Json Float
  | .value v => v
  | .table _ entries => .obj (entriesToJson entries)
  | .tables items => .arr (itemsToJson items).reverse

def entriesToJson : List (String × Node) → List (String × Json Float)
  | [] => []
  | (k, n) :: rest => (k, n.toJson) :: entriesToJson rest

def itemsToJson : List (List (String × Node)) → List (Json Float)
  | [] => []
  | entries :: rest => .obj (entriesToJson entries) :: itemsToJson rest

end

end BendersPlanning.Toml

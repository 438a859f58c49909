import BendersPlanning.Json.Value
import BendersPlanning.Scalar

/-!
# Reading records from JSON

A `Fields` reader takes a record apart: it knows the names of its fields and how each is read. Fields
that are not known are skipped, a known one may occur only once. Of several faults the one that comes
first in the text is reported, and a missing field only when there is no other fault. An array stands
for a record whose fields it holds in order.
-/

namespace BendersPlanning

variable {K ε α β : Type}

/-- Why a value could not be read: it has the wrong shape, or it was refused for a reason `ε`. -/
inductive LoadError (ε : Type) where
  | malformed
  | rejected (reason : ε)
  deriving DecidableEq, Repr

abbrev Reader (K ε α : Type) := Json K → Except (LoadError ε) α

namespace Json

/-- Whole numbers from zero and below a limit. -/
def readNat (limit : Nat) : Reader K ε Nat
  | .int i => if 0 ≤ i ∧ i.toNat < limit then .ok i.toNat else .error .malformed
  | _ => .error .malformed

/-- Positions and counts: 64 bits. -/
def readIndex : Reader K ε Nat := readNat wordLimit

def readNumber [Scalar K] : Reader K ε K
  | .num x => .ok x
  | .int i => .ok (Scalar.ofInt i)
  | _ => .error .malformed

def readBool : Reader K ε Bool
  | .bool b => .ok b
  | _ => .error .malformed

def readString : Reader K ε String
  | .str s => .ok s
  | _ => .error .malformed

/-- Reads `null` as nothing. -/
def readOption (read : Reader K ε α) : Reader K ε (Option α)
  | .null => .ok none
  | j => some <$> read j

def readList (read : Reader K ε α) : Reader K ε (List α)
  | .arr items => items.mapM read
  | _ => .error .malformed

def readArray (read : Reader K ε α) : Reader K ε (Array α)
  | .arr items => List.toArray <$> items.mapM read
  | _ => .error .malformed

/-- Reads an array of exactly two items. -/
def readPair (first : Reader K ε α) (second : Reader K ε β) : Reader K ε (α × β)
  | .arr [x, y] => return (← first x, ← second y)
  | .arr (x :: y :: _) => do
    let _ ← first x
    let _ ← second y
    .error .malformed
  | .arr [x] => do
    let _ ← first x
    .error .malformed
  | _ => .error .malformed

/-- Reads one of the listed names, as a string or as the key of `null`. -/
def readName (names : List (String × α)) : Reader K ε α
  | .str s | .obj [(s, .null)] =>
    match names.find? (·.1 == s) with
    | some (_, value) => .ok value
    | none => .error .malformed
  | _ => .error .malformed

/-- Reads an object of any keys in the order of the text. -/
def readEntries (read : Reader K ε α) : Reader K ε (List (String × α))
  | .obj fields => fields.mapM fun (k, j) => do return (k, ← read j)
  | _ => .error .malformed

end Json

/-- A fault together with the number of the field where it was found. -/
abbrev Located (ε : Type) := Nat × LoadError ε

/-- A reader of the fields of a record. -/
structure Fields (K ε α : Type) where
  names : List String
  read : List (String × Json K) → Except (Located ε) α

namespace Fields

/-- Both results, or the fault that comes first. -/
def both (x : Except (Located ε) (α → β)) (y : Except (Located ε) α) : Except (Located ε) β :=
  match x, y with
  | .ok f, .ok a => .ok (f a)
  | .error e, .ok _ => .error e
  | .ok _, .error e => .error e
  | .error e, .error e' => .error (if e'.1 < e.1 then e' else e)

instance : Functor (Fields K ε) where
  map f x := ⟨x.names, fun fields => f <$> x.read fields⟩

instance : Applicative (Fields K ε) where
  pure a := ⟨[], fun _ => .ok a⟩
  seq f x := ⟨f.names ++ (x ()).names, fun fields => both (f.read fields) ((x ()).read fields)⟩

/-- The occurrences of a field with their numbers. -/
def occurrences (name : String) (fields : List (String × Json K)) : List (Nat × Json K) :=
  fields.zipIdx.filterMap fun ((k, j), i) => if k = name then some (i, j) else none

/-- A field with a value for its absence; without such a value its absence is a fault. -/
def fieldOr (name : String) (read : Reader K ε α) (absent : Option α) : Fields K ε α where
  names := [name]
  read fields :=
    match occurrences name fields with
    | [] => match absent with
      | some a => .ok a
      | none => .error (fields.length, .malformed)
    | (i, j) :: more =>
      match read j, more with
      | .error e, _ => .error (i, e)
      | .ok _, (i', _) :: _ => .error (i', .malformed)
      | .ok a, [] => .ok a

def required (name : String) (read : Reader K ε α) : Fields K ε α := fieldOr name read none

def withDefault (name : String) (read : Reader K ε α) (absent : α) : Fields K ε α :=
  fieldOr name read (some absent)

/-- A field that may be missing or `null`. -/
def optional (name : String) (read : Reader K ε α) : Fields K ε (Option α) :=
  withDefault name (Json.readOption read) none

/-- Reads a record from an object, or from an array of its fields in order. -/
def reader (f : Fields K ε α) : Reader K ε α := fun j =>
  let located (fields : List (String × Json K)) : Except (LoadError ε) α :=
    match f.read fields with
    | .ok a => .ok a
    | .error (_, e) => .error e
  match j with
  | .obj fields => located fields
  | .arr items =>
    match located (f.names.zip items) with
    | .ok a => if items.length ≤ f.names.length then .ok a else .error .malformed
    | .error e => .error e
  | _ => .error .malformed

end Fields

/-- Passes on a value that was read to a step that may refuse it. -/
def Json.checked {γ : Type} (reason : γ → ε) (f : α → Except γ β) (read : Reader K ε α) :
    Reader K ε β := fun j => do
  match f (← read j) with
  | .ok b => .ok b
  | .error e => .error (.rejected (reason e))

end BendersPlanning

import BendersPlanning.Scalar
import BendersPlanning.SortedMap

/-!
# Linear expressions

An expression is a list of terms and a constant. Terms keep their order and may repeat a variable or
cancel; `coefficients` merges them into one coefficient per variable.
-/

namespace BendersPlanning

/-- The affine function `Σ coefficient · x_variable + constant`, as written. -/
structure Expression (K : Type) where
  terms : Array (Nat × K)
  constant : K
  deriving DecidableEq, Repr

namespace Expression

variable {K : Type} [Scalar K]

def ofConstant (c : K) : Expression K := ⟨#[], c⟩

def zero : Expression K := ofConstant 0.0

instance : Inhabited (Expression K) := ⟨zero⟩

def ofTerms (terms : Array (Nat × K)) : Expression K := ⟨terms, 0.0⟩

def addTerm (e : Expression K) (variableId : Nat) (coefficient : K) : Expression K :=
  { e with terms := e.terms.push (variableId, coefficient) }

def addConstant (e : Expression K) (c : K) : Expression K := { e with constant := e.constant + c }

def ofVariable (variableId : Nat) : Expression K := zero.addTerm variableId 1.0

/-- Appends `scale` times another expression, term by term. -/
def addScaled (e other : Expression K) (scale : K) : Expression K where
  terms := e.terms ++ other.terms.map fun (v, c) => (v, scale * c)
  constant := e.constant + scale * other.constant

/-- One coefficient per variable that occurs, in ascending order; repeated terms are added up in
their order. -/
def coefficients (e : Expression K) : SortedMap Nat K :=
  e.terms.foldl (fun m (v, c) => m.alter v fun old => old.getD 0.0 + c) .empty

/-- The value at a point, added up term by term from the constant. A variable outside the point
makes it undefined. -/
def evaluate (e : Expression K) (point : Array K) : K :=
  e.terms.foldl (fun acc (v, c) => acc + c * Scalar.entry point v) e.constant

def isEmpty (e : Expression K) : Bool := e.terms.isEmpty && e.constant == 0.0

end Expression

end BendersPlanning

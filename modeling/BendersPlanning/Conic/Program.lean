import BendersPlanning.Backend

/-!
# Conic programs

The form in which continuous models are solved: minimise `½ xᵀPx + qᵀx` subject to `Ax + s = b` with
`s` in a product of zero cones and nonnegative cones. Matrices are stored by columns, cones as runs.
-/

namespace BendersPlanning

/-- A matrix stored by columns: the entries of column `j` are those from `columnStart[j]` to before
`columnStart[j + 1]`. -/
structure SparseMatrix (K : Type) where
  rowCount : Nat
  columnCount : Nat
  columnStart : Array Nat
  rowIndex : Array Nat
  values : Array K
  deriving DecidableEq, Repr

namespace SparseMatrix

variable {K : Type}

/-- The matrix with the given columns, each a list of row and entry in ascending row order. -/
def ofColumns (rowCount : Nat) (columns : List (List (Nat × K))) : SparseMatrix K where
  rowCount := rowCount
  columnCount := columns.length
  columnStart := columns.foldl (fun starts c => starts.push (starts.back?.getD 0 + c.length)) #[0]
  rowIndex := (columns.flatMap fun c => c.map (·.1)).toArray
  values := (columns.flatMap fun c => c.map (·.2)).toArray

def column (a : SparseMatrix K) (j : Nat) : List (Nat × K) :=
  let start := a.columnStart[j]?.getD 0
  let stop := a.columnStart[j + 1]?.getD start
  ((a.rowIndex.extract start stop).zip (a.values.extract start stop)).toList

end SparseMatrix

/-- A run of rows of one kind. -/
inductive Cone where
  | zero (size : Nat)
  | nonnegative (size : Nat)
  deriving DecidableEq, Repr

namespace Cone

/-- Appends the cone of one row, joining it to a last run of its kind. -/
def push (cones : List Cone) (equality : Bool) : List Cone :=
  match cones.getLast?, equality with
  | some (.zero n), true => cones.dropLast ++ [.zero (n + 1)]
  | some (.nonnegative n), false => cones.dropLast ++ [.nonnegative (n + 1)]
  | _, true => cones ++ [.zero 1]
  | _, false => cones ++ [.nonnegative 1]

/-- Row by row, whether the slack must be zero. -/
def expand (cones : List Cone) : List Bool :=
  cones.flatMap fun
    | .zero n => List.replicate n true
    | .nonnegative n => List.replicate n false

end Cone

/-- Minimise `½ xᵀPx + qᵀx` subject to `Ax + s = b`, `s` in the product of the cones. -/
structure ConicProgram (K : Type) where
  P : SparseMatrix K
  q : Array K
  A : SparseMatrix K
  b : Array K
  cones : List Cone
  deriving DecidableEq, Repr

inductive ConicOutcome (K : Type) where
  /-- A minimiser and the multipliers of the rows. -/
  | optimal (x z : Array K)
  /-- Multipliers that no slack in the cones can balance. -/
  | infeasible (z : Array K)
  | unbounded
  | limit
  | failed
  deriving DecidableEq, Repr

/-- Outcome and iteration count of a conic solver. -/
abbrev ConicSolver (K : Type) := ConicProgram K → SolverSettings K → ConicOutcome K × Nat

end BendersPlanning

import BendersPlanning.Conic.Program

/-!
# Solving conic programs by pivoting

A minimiser `x` of `½ xᵀPx + qᵀx` subject to `Ax + s = b` and multipliers `z` of its rows are the
solutions of a complementarity system with one pair of variables per column and per row:

* `x_j` with the stationarity residual `r_j = (Px + Aᵀz + q)_j`, which is zero;
* `z_i` with the slack `s_i = (b − Ax)_i`; on a nonnegative row both are at least zero and one of them
  is zero, on an equation `s_i` is zero.

A `Tableau` solves the system for one variable of each pair. First the pairs with a residual that must
vanish are settled, then the remaining ones by the least-index criss-cross rule: take the first basic
variable below zero and exchange it with its partner, or with the first pair that can raise it. The
exchanges keep the matrix positive semidefinite up to signs, so the rule needs neither a feasible
start nor ratio tests. When nothing can raise the variable the system has no solution, and the row of
the tableau proves it.

The solver stands in for one that comes to a minimiser from the inside. Such a solver ends within
rounding of it and on a definite side, which shows where a minimiser is half way between two whole
numbers. The last tableau tells the side (`Tableau.drift`), and the answer keeps to it by as much as
rounding can hide: not at all over numbers without rounding.
-/

namespace BendersPlanning

/-- The complementarity system solved for one variable of each pair: the basic variable of pair `k`
is `constants[k] + Σ_l matrix[k][l] · (nonbasic variable of pair l)`. Before the first exchange the
basic variables are the residuals and slacks. -/
structure Tableau (K : Type) where
  matrix : Array (Array K)
  constants : Array K
  /-- Whether the primary variable of a pair, `x_j` or `z_i`, is basic. -/
  exchanged : Array Bool

inductive PivotEnd where
  /-- No basic variable is below zero. -/
  | complementary
  /-- The basic variable of a pair is below zero or must vanish, and nothing can move it. -/
  | blocked (pair : Nat)
  | outOfFuel
  deriving DecidableEq, Repr

namespace Tableau

variable {K : Type} [Scalar K]

/-- Sizes up to this count as zero in the matrix. -/
def tolerance : K := 1e-9

def coefficient (t : Tableau K) (k l : Nat) : K := (t.matrix[k]?.getD #[])[l]?.getD 0.0

def constant (t : Tableau K) (k : Nat) : K := t.constants[k]?.getD 0.0

def isExchanged (t : Tableau K) (k : Nat) : Bool := t.exchanged[k]?.getD false

/-- Exchanges the basic variable of row `k` with the nonbasic one of column `l`. -/
def pivot (t : Tableau K) (k l : Nat) : Tableau K :=
  let p := t.coefficient k l
  let pivotRow := (t.matrix[k]?.getD #[]).mapIdx fun j a => if j = l then 1.0 / p else -a / p
  let pivotConstant := -(t.constant k) / p
  { t with
    matrix := t.matrix.mapIdx fun i row =>
      if i = k then pivotRow
      else
        let a := row[l]?.getD 0.0
        if a == 0.0 then row
        else row.mapIdx fun j v =>
          let b := pivotRow[j]?.getD 0.0
          if j = l then a * b else v + a * b
    constants := t.constants.mapIdx fun i v =>
      if i = k then pivotConstant else v + t.coefficient i l * pivotConstant }

/-- Notes that the two variables of pair `k` have changed places. -/
def mark (t : Tableau K) (k : Nat) : Tableau K :=
  { t with exchanged := t.exchanged.modify k (!·) }

def exchange (t : Tableau K) (k : Nat) : Tableau K := (t.pivot k k).mark k

/-- Exchanges the variables of both pairs at once, for pairs that only move together. -/
def exchangeBoth (t : Tableau K) (k l : Nat) : Tableau K :=
  let t := (t.pivot k l).pivot l k
  let swapped := { t with
    matrix := (t.matrix.swapIfInBounds k l).map fun (row : Array K) => row.swapIfInBounds k l
    constants := t.constants.swapIfInBounds k l }
  (swapped.mark k).mark l

/-- The candidate of greatest size among those that do not count as zero. -/
def strongest (candidates : List (Nat × K)) : Option (Nat × K) :=
  candidates.foldl (fun best (l, a) =>
    let size := Scalar.abs a
    if tolerance < size && best.all (fun (_, b) => decide (b < size)) then some (l, size) else best)
    none

/-- Settles the pairs in `pending`, whose basic variable must vanish, each by itself, together with
another of them, or together with one of the pairs in `others`. A pair that nothing can move is
passed over where its constant vanishes, and blocks where it does not. -/
def settle (others : List Nat) (vanishes : Tableau K → Nat → Bool) :
    Nat → List Nat → Tableau K → Tableau K × PivotEnd
  | 0, _, t => (t, .outOfFuel)
  | fuel + 1, pending, t =>
    match strongest (pending.map fun k => (k, t.coefficient k k)) with
    | some (k, _) => settle others vanishes fuel (pending.filter (· ≠ k)) (t.exchange k)
    | none =>
      match pending with
      | [] => (t, .complementary)
      | k :: rest =>
        match strongest ((rest ++ others).map fun l => (l, t.coefficient k l)) with
        | some (l, _) => settle others vanishes fuel (rest.filter (· ≠ l)) (t.exchangeBoth k l)
        | none =>
          if vanishes t k then settle others vanishes fuel rest t else (t, .blocked k)

/-- The least-index criss-cross rule on the pairs `pairs`, together with the number of exchanges. -/
def crissCross (pairs : List Nat) (negative : Tableau K → Nat → Bool) :
    Nat → Tableau K → Nat → Tableau K × PivotEnd × Nat
  | 0, t, count => (t, .outOfFuel, count)
  | fuel + 1, t, count =>
    match pairs.find? (negative t) with
    | none => (t, .complementary, count)
    | some k =>
      if tolerance < t.coefficient k k then crissCross pairs negative fuel (t.exchange k) (count + 1)
      else match pairs.find? fun l => decide (tolerance < t.coefficient k l) with
        | some l => crissCross pairs negative fuel (t.exchangeBoth k l) (count + 1)
        | none => (t, .blocked k, count)

/-- The coefficients with which row `k` combines the rows of the starting system, with the sign that
makes its constant negative. -/
def combination (t : Tableau K) (k : Nat) : Array K :=
  let sign : K := if t.constant k < 0.0 then 1.0 else -1.0
  (Array.range t.constants.size).map fun i =>
    if t.isExchanged i then -(sign * t.coefficient k i) else if i = k then sign else 0.0

/-- The value of the primary variable of a pair. -/
def primary (t : Tableau K) (k : Nat) : K := if t.isExchanged k then t.constant k else 0.0

/-- How the basic variable of row `k` starts to move when the products of the pairs in `pairs` are
raised from zero by equal amounts. -/
def drift (t : Tableau K) (pairs : List Nat) (k : Nat) : K :=
  Scalar.sum <| (pairs.filter fun l => decide (tolerance < t.constant l)).map fun l =>
    t.coefficient k l / t.constant l

end Tableau

section Halves

variable {K : Type} [Scalar K]

/-- The distance from one to the next number: `2⁻⁵²` in double precision, and zero where numbers are
not rounded. -/
def roundingUnit : K := 1.0 - 3.0 * (4.0 / 3.0 - 1.0)

/-- A value half way between two whole numbers, moved off by a hair to the side that `drift` points
to, and down if it points nowhere; any other value. -/
def offHalf (drift x : K) : K :=
  let hair := 1024.0 * roundingUnit * Scalar.larger (Scalar.abs x) 1.0
  if hair < Scalar.abs (x - (Scalar.floor x + 0.5)) then x
  else if 0.0 < drift then x + 2.0 * hair else x - 2.0 * hair

end Halves

namespace ConicProgram

variable {K : Type} [Scalar K]

def columnCount (p : ConicProgram K) : Nat := p.q.size

def rowCount (p : ConicProgram K) : Nat := p.b.size

def withoutObjective (p : ConicProgram K) : ConicProgram K :=
  { p with
    P := .ofColumns p.columnCount (List.replicate p.columnCount [])
    q := Array.replicate p.columnCount 0.0 }

/-- The complementarity system of a program, solved for residuals and slacks. -/
def tableau (p : ConicProgram K) : Tableau K :=
  let n := p.columnCount
  let zero := Array.replicate (n + p.rowCount) (Array.replicate (n + p.rowCount) (0.0 : K))
  let put (m : Array (Array K)) (i j : Nat) (v : K) := m.modify i fun row => row.setIfInBounds j v
  let withP := (List.range n).foldl (fun m j =>
    (p.P.column j).foldl (fun m (i, v) => put m i j v) m) zero
  { matrix := (List.range n).foldl (fun m j =>
      (p.A.column j).foldl (fun m (i, v) => put (put m j (n + i) v) (n + i) j (-v)) m) withP
    constants := p.q ++ p.b
    exchanged := Array.replicate (n + p.rowCount) false }

/-- Whether a right-hand side is so large that an inequality with it never binds. -/
def isLoose (b : K) : Bool := decide (1e20 < b)

def pairCount (p : ConicProgram K) : Nat := p.columnCount + p.rowCount

/-- Whether the residual or slack of a pair must vanish: that of a column or of an equation. -/
def isFree (p : ConicProgram K) (k : Nat) : Bool :=
  decide (k < p.columnCount) || (Cone.expand p.cones)[k - p.columnCount]?.getD false

/-- The pairs of the inequalities that can bind. -/
def restricted (p : ConicProgram K) : List Nat :=
  (List.range p.pairCount).filter fun k =>
    !p.isFree k && !(p.b[k - p.columnCount]?.any isLoose)

/-- Pivots until the complementarity system is solved, a pair blocks or the fuel runs out. The answer
holds the last tableau and the number of exchanges. Inequalities that never bind are left alone: their
multipliers stay zero, and their right-hand sides say nothing about the size of the others. -/
def pivoted (p : ConicProgram K) : Tableau K × PivotEnd × Nat :=
  let n := p.columnCount
  let largest (xs : Array K) : K := xs.foldl (fun acc x => Scalar.larger acc (Scalar.abs x)) 1.0
  let dualTolerance : K := 1e-9 * largest p.q
  let primalTolerance : K := 1e-9 * largest (p.b.filter fun b => !isLoose b)
  let slackOf (t : Tableau K) (k : Nat) : K :=
    if (decide (k < n)) != t.isExchanged k then dualTolerance else primalTolerance
  let vanishes (t : Tableau K) (k : Nat) : Bool := decide (Scalar.abs (t.constant k) ≤ slackOf t k)
  let negative (t : Tableau K) (k : Nat) : Bool := decide (t.constant k < -slackOf t k)
  let free := (List.range p.pairCount).filter p.isFree
  match p.tableau.settle p.restricted vanishes (p.pairCount + 1) free with
  | (t, .complementary) => t.crissCross p.restricted negative (200 + 50 * p.pairCount) 0
  | (t, reason) => (t, reason, 0)

/-- Solves a conic program. One without a minimiser is infeasible if it has none without an
objective either, and unbounded otherwise. -/
def solveByPivoting (p : ConicProgram K) (settings : SolverSettings K) : ConicOutcome K × Nat :=
  if settings.tooShort then (.limit, 0)
  else
    let n := p.columnCount
    match p.pivoted with
    | (t, .complementary, count) =>
      let values := (Array.range t.constants.size).map t.primary
      let point := (values.extract 0 n).mapIdx fun k x => offHalf (t.drift p.restricted k) x
      (.optimal point (values.extract n values.size), count)
    | (_, .outOfFuel, count) => (.failed, count)
    | (_, .blocked _, count) =>
      match p.withoutObjective.pivoted with
      | (t, .blocked k, more) =>
        let rows := t.combination k
        (.infeasible (rows.extract n rows.size), count + more)
      | (_, .complementary, more) => (.unbounded, count + more)
      | (_, .outOfFuel, more) => (.failed, count + more)

end ConicProgram

end BendersPlanning

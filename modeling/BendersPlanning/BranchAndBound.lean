import BendersPlanning.Conic.Relaxation

/-!
# Branch and bound

Integer models are searched depth first. A node is a box; its relaxation is solved, a node that cannot
beat the incumbent is dropped, and otherwise the box is split at the most fractional integer variable.
The search is written against any answers to the relaxations, so that nothing in it depends on the
conic solver.
-/

namespace BendersPlanning

variable {K : Type} [Scalar K]

structure SearchNode (K : Type) where
  lower : Array K
  upper : Array K
  depth : Nat

structure Incumbent (K : Type) where
  point : Array K
  objective : K

/-- What a search has found so far. -/
structure SearchState (K : Type) where
  /-- Boxes still to be explored, the next one first. -/
  stack : List (SearchNode K)
  incumbent : Option (Incumbent K)
  explored : Nat
  /-- Nodes that were dropped because their relaxation was not solved. -/
  failed : Nat

inductive SearchEnd where
  | exhausted
  | nodeLimit
  | unbounded
  deriving DecidableEq, Repr

namespace Model

def fractionality (x : K) : K := Scalar.abs (x - Scalar.round x)

/-- The integer variable whose value is farthest from a whole number, the first of several, if any is
farther than the tolerance. -/
def mostFractional? (m : Model K) (tolerance : K) (point : Array K) : Option (Nat × K) :=
  let candidates := m.vars.toList.zipIdx.filterMap fun (v, j) =>
    let x := Scalar.entry point j
    if v.integer && !(decide (fractionality x ≤ tolerance)) then some (j, x) else none
  candidates.foldl (fun best (j, x) =>
    match best with
    | some (_, y) => if fractionality y < fractionality x then some (j, x) else best
    | none => some (j, x)) none

def roundIntegers (m : Model K) (point : Array K) : Array K :=
  point.mapIdx fun j x => if m.vars[j]?.any (·.integer) then Scalar.round x else x

end Model

namespace SearchNode

/-- Whether the whole number below a fractional value is tried first: it is when it is the nearer
one. -/
def isDownFirst (x : K) : Bool := decide (x - Scalar.floor x < 0.5)

/-- The halves of a box at a fractional value of variable `j`, the one to be tried first in front. -/
def split (node : SearchNode K) (j : Nat) (x : K) : List (SearchNode K) :=
  let down : SearchNode K :=
    ⟨node.lower, node.upper.setIfInBounds j (Scalar.floor x), node.depth + 1⟩
  let up : SearchNode K := ⟨node.lower.setIfInBounds j (Scalar.ceil x), node.upper, node.depth + 1⟩
  if isDownFirst x then [down, up] else [up, down]

end SearchNode

namespace SearchState

/-- Whether an objective is no better than the incumbent, up to a relative `1e-9`. -/
def prunes (s : SearchState K) (objective : K) : Bool :=
  s.incumbent.any fun best =>
    decide (best.objective - 1e-9 * Scalar.larger (Scalar.abs best.objective) 1.0 ≤ objective)

/-- Takes the next node, which has the given relaxation outcome, into account. Nothing is answered
when the whole search is unbounded. -/
def step (m : Model K) (tolerance : K) (node : SearchNode K) (rest : List (SearchNode K))
    (outcome : Solution K) (s : SearchState K) : Option (SearchState K) :=
  let s := { s with stack := rest, explored := s.explored + 1 }
  match outcome.status with
  | .optimal =>
    if s.prunes outcome.objective then some s
    else match m.mostFractional? tolerance outcome.primal with
      | some (j, x) => some { s with stack := node.split j x ++ rest }
      | none =>
        let point := m.roundIntegers outcome.primal
        some { s with incumbent := some ⟨point, m.objectiveValue point⟩ }
  | .infeasible => some s
  | .unbounded => if node.depth = 0 then none else some { s with failed := s.failed + 1 }
  | .iterationLimit | .numericalFailure => some { s with failed := s.failed + 1 }

/-- Explores at most `budget` further nodes. -/
def explore (m : Model K) (tolerance : K) (relax : SearchNode K → Solution K) :
    Nat → SearchState K → SearchState K × SearchEnd
  | budget, s =>
    match s.stack, budget with
    | [], _ => (s, .exhausted)
    | _ :: _, 0 => (s, .nodeLimit)
    | node :: rest, budget + 1 =>
      match s.step m tolerance node rest (relax node) with
      | some s => explore m tolerance relax budget s
      | none => (s, .unbounded)

/-- The explored nodes as a solution counts them: as far as 32 bits reach. -/
def nodeCount (s : SearchState K) : Nat := min s.explored 0xFFFFFFFF

def solution (s : SearchState K) : SearchEnd → Solution K
  | .unbounded => .without .unbounded 0
  | reason =>
    match s.incumbent with
    | some best =>
      { status := if reason = .nodeLimit then .iterationLimit else .optimal
        objective := best.objective
        primal := best.point
        duals := #[]
        certificate := none
        iterations := s.nodeCount }
    | none =>
      .without (if reason = .nodeLimit then .iterationLimit
        else if 0 < s.failed then .numericalFailure else .infeasible) s.nodeCount

end SearchState

namespace Model

/-- Searches a model with integer variables, given the outcome of the relaxation of every box. -/
def branchAndBound (m : Model K) (settings : SolverSettings K) (relax : SearchNode K → Solution K) :
    Solution K :=
  let root := Relaxation.ofModel m
  let start : SearchState K := ⟨[⟨root.lower, root.upper, 0⟩], none, 0, 0⟩
  let (s, reason) := start.explore m settings.integralityTol relax settings.maxNodes
  s.solution reason

end Model

end BendersPlanning

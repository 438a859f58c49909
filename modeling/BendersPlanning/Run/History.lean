import BendersPlanning.Planning.Problem

/-!
# Bounds of a run

A history is the list of iterations with their bounds: the lower bound is the best one so far, the
upper bound belongs to the evaluated candidate, and the candidate of the least upper bound is the
incumbent. Values that are no numbers never become a bound.

A run stores its history by columns, as `HistoryVectors`: each vector grows by itself when an iteration
is recorded. `History` is the same by rows, and what the rest of the library reads.
-/

namespace BendersPlanning

structure Iteration (K : Type) where
  /-- The greatest lower bound so far. -/
  lowerBound : K
  /-- The cost of the candidate; infinite where a subproblem was infeasible. -/
  upperBound : K
  /-- The least upper bound so far. -/
  bestUpperBound : K
  /-- Seconds since the start of the run. -/
  elapsed : K
  /-- The level-set parameter in use. -/
  gamma : K
  candidate : Candidate K
  deriving DecidableEq

/-- The vectors of a run. Entry `k` of each belongs to iteration `k + 1`. -/
structure HistoryVectors (K : Type) where
  lowerBounds : Array K
  upperBounds : Array K
  bestUpperBounds : Array K
  elapsed : Array K
  gammas : Array K
  candidates : Array (Candidate K)
  /-- Where the incumbent is among the candidates. -/
  best : Option Nat

/-- The iterations of a run in order, and which of them holds the incumbent. -/
structure History (K : Type) where
  iterations : Array (Iteration K)
  best : Option Nat
  deriving DecidableEq

variable {K : Type} [Scalar K]

/-- The distance of two bounds relative to the upper one, absolute where that is nearly zero, and
infinite unless both are finite. -/
def relativeGap (lower upper : K) : K :=
  if Scalar.isFinite upper && Scalar.isFinite lower then
    if Scalar.abs upper < 1e-10 then upper - lower else (upper - lower) / Scalar.abs upper
  else Scalar.infinity

namespace HistoryVectors

def empty : HistoryVectors K := ⟨#[], #[], #[], #[], #[], #[], none⟩

def count (v : HistoryVectors K) : Nat := v.lowerBounds.size

def lowerBound (v : HistoryVectors K) : K := v.lowerBounds.back?.getD (-Scalar.infinity)

def bestUpperBound (v : HistoryVectors K) : K := v.bestUpperBounds.back?.getD Scalar.infinity

def incumbent? (v : HistoryVectors K) : Option (Candidate K) := v.best.bind (v.candidates[·]?)

def gap (v : HistoryVectors K) : K := relativeGap v.lowerBound v.bestUpperBound

/-- Appends an iteration, and tells whether it makes its candidate the incumbent. -/
def record (v : HistoryVectors K) (lowerBound upperBound elapsed gamma : K)
    (candidate : Candidate K) : HistoryVectors K × Bool :=
  let improves := decide (upperBound < v.bestUpperBound)
  let candidates := v.candidates.push candidate
  ({ lowerBounds := v.lowerBounds.push (Scalar.larger v.lowerBound lowerBound)
     upperBounds := v.upperBounds.push upperBound
     bestUpperBounds := v.bestUpperBounds.push (Scalar.smaller v.bestUpperBound upperBound)
     elapsed := v.elapsed.push elapsed
     gammas := v.gammas.push gamma
     candidates := candidates
     best := if improves then some (candidates.size - 1) else v.best }, improves)

end HistoryVectors

namespace History

def empty : History K := ⟨#[], none⟩

instance : Inhabited (History K) := ⟨empty⟩

def count (h : History K) : Nat := h.iterations.size

def lowerBound (h : History K) : K :=
  (h.iterations.back?.map (·.lowerBound)).getD (-Scalar.infinity)

def bestUpperBound (h : History K) : K :=
  (h.iterations.back?.map (·.bestUpperBound)).getD Scalar.infinity

/-- The candidate of the least upper bound; none while no upper bound is finite. -/
def incumbent? (h : History K) : Option (Candidate K) :=
  h.best.bind fun i => h.iterations[i]?.map (·.candidate)

def improves (h : History K) (upperBound : K) : Bool := decide (upperBound < h.bestUpperBound)

def record (h : History K) (lowerBound upperBound elapsed gamma : K) (candidate : Candidate K) :
    History K where
  iterations := h.iterations.push {
    lowerBound := Scalar.larger h.lowerBound lowerBound
    upperBound := upperBound
    bestUpperBound := Scalar.smaller h.bestUpperBound upperBound
    elapsed := elapsed
    gamma := gamma
    candidate := candidate }
  best := if h.improves upperBound then some h.count else h.best

def gap (h : History K) : K := relativeGap h.lowerBound h.bestUpperBound

end History

end BendersPlanning

import BendersPlanning.Operation.Subproblem
import BendersPlanning.Planning.Problem

/-!
# Decomposed problems

A planning problem, the subproblems that evaluate its candidates, and the linking variables between
them. `validate` checks the contract: proxies, names and indices have to match.
-/

namespace BendersPlanning

/-- A planning problem with its subproblems. -/
structure DecomposedProblem (K : Type) where
  planning : PlanningProblem K
  linking : List String
  subproblems : List (Subproblem K)
  deriving DecidableEq

variable {K : Type} [Scalar K]

/-- The first fault of a subproblem that is to link some of the names `linking`. -/
def Subproblem.fault? (s : Subproblem K) (linking : List String) : Option (ProblemFault K) :=
  let nameFault? (name : String) : Option (ProblemFault K) :=
    if !linking.contains name then some (.unlinked s.index name)
    else if (s.model.variableNamed? name).isNone then some (.missingVariable s.index name)
    else none
  (s.linking.findSome? nameFault?).or <| s.slackPenalty.bind fun penalty =>
    if Scalar.isFinite penalty && 0.0 < penalty then none else some (.penalty s.index penalty)

namespace DecomposedProblem

/-- Replaces the linking variables of the subproblems whose index has an entry. -/
def withLinking (p : DecomposedProblem K) (subsets : SortedMap Nat (List String)) :
    DecomposedProblem K :=
  { p with subproblems := p.subproblems.map fun s =>
      { s with linking := (subsets.find? s.index).getD s.linking } }

/-- The first linking variable that is listed a second time or unknown to the planning model, given
those listed before. -/
def linkFault? (model : Model K) : List String → List String → Option (ProblemFault K)
  | _, [] => none
  | seen, name :: rest =>
    if seen.contains name then some (.repeatedLink name)
    else if (model.variableNamed? name).isNone then some (.unknownLink name)
    else linkFault? model (name :: seen) rest

/-- Whether the indices of `n` subproblems are the numbers below `n`. -/
def coversIndices (indices : List Nat) (n : Nat) : Bool :=
  indices.eraseDups.length == n && indices.foldl max 0 == n - 1

def fault? (p : DecomposedProblem K) : Option (ProblemFault K) :=
  let n := p.subproblems.length
  let proxies := p.planning.theta.size
  (p.planning.model.proxyFault? p.planning.theta).or <|
    if n = 0 then some .noSubproblems
    else if proxies ≠ 1 ∧ proxies ≠ n then some (.proxyCount n proxies)
    else (linkFault? p.planning.model [] p.linking).or <|
      if !coversIndices (p.subproblems.map (·.index)) n then some (.indices n)
      else p.subproblems.findSome? (·.fault? p.linking)

def validate (p : DecomposedProblem K) : Except (RunError K) Unit :=
  match p.fault? with
  | some fault => .error (.problem fault)
  | none => .ok ()

end DecomposedProblem

end BendersPlanning

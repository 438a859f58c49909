import BendersPlanning.Conic.Pivoting
import BendersPlanning.BranchAndBound
import BendersPlanning.Proofs.FeasiblePoints

/-!
# Steps and runs of a search

`SearchState.StepsTo` lists what exploring one node can do, `SearchState.Explores` follows a search
from node to node and notes the nodes whose relaxations it asks for. Both are read off the search
once; whatever holds of all searches is then an induction over `Explores`.

The last part says how the status of a search comes about. A node that is given up because its
relaxation was not solved is counted, and the count decides the status only where no integer point
was found. With an incumbent the search reports an optimum whatever it has given up.
-/

namespace BendersPlanning

variable {K : Type} [Scalar K]

/-- Whether a node is given up because its relaxation was not solved. An unbounded root is not: it
ends the search. -/
def SearchNode.isDropped (node : SearchNode K) (outcome : Solution K) : Bool :=
  match outcome.status with
  | .optimal | .infeasible => false
  | .unbounded => node.depth ≠ 0
  | .iterationLimit | .numericalFailure => true

/-- Whether the relaxation of a node has a minimiser without a fractional integer variable. -/
def Model.isWhole (m : Model K) (tolerance : K) (outcome : Solution K) : Bool :=
  outcome.status = .optimal && (m.mostFractional? tolerance outcome.primal).isNone

/-- What a search makes of a minimiser: the point with its integer entries rounded. -/
def Model.rounding (m : Model K) (outcome : Solution K) : Incumbent K :=
  ⟨m.roundIntegers outcome.primal, m.objectiveValue (m.roundIntegers outcome.primal)⟩

namespace SearchState

/-- Whether a search stores what it makes of the minimiser of its next node. -/
def improves (s : SearchState K) (m : Model K) (tolerance : K) (outcome : Solution K) : Bool :=
  m.isWhole tolerance outcome && !s.prunes outcome.objective

variable {m : Model K} {tolerance : K} {s s' final : SearchState K} {node : SearchNode K}
  {rest nodes : List (SearchNode K)} {outcome : Solution K} {relax : SearchNode K → Solution K}
  {budget : Nat} {reason : SearchEnd}

/-- What exploring the node in front of `rest` can do. -/
inductive StepsTo (m : Model K) (tolerance : K) (s : SearchState K) (node : SearchNode K)
    (rest : List (SearchNode K)) (outcome : Solution K) : SearchState K → Prop
  | pruned (hoptimal : outcome.status = .optimal) (hprunes : s.prunes outcome.objective = true) :
    StepsTo m tolerance s node rest outcome ⟨rest, s.incumbent, s.explored + 1, s.failed⟩
  | branched (hoptimal : outcome.status = .optimal) (hkept : s.prunes outcome.objective = false)
      {j : Nat} {x : K} (hsplit : m.mostFractional? tolerance outcome.primal = some (j, x)) :
    StepsTo m tolerance s node rest outcome
      ⟨node.split j x ++ rest, s.incumbent, s.explored + 1, s.failed⟩
  | improved (hoptimal : outcome.status = .optimal) (hkept : s.prunes outcome.objective = false)
      (hwhole : m.mostFractional? tolerance outcome.primal = none) :
    StepsTo m tolerance s node rest outcome
      ⟨rest, some ⟨m.roundIntegers outcome.primal, m.objectiveValue (m.roundIntegers outcome.primal)⟩,
        s.explored + 1, s.failed⟩
  | emptied (hinfeasible : outcome.status = .infeasible) :
    StepsTo m tolerance s node rest outcome ⟨rest, s.incumbent, s.explored + 1, s.failed⟩
  | dropped (hdropped : node.isDropped outcome = true) :
    StepsTo m tolerance s node rest outcome ⟨rest, s.incumbent, s.explored + 1, s.failed + 1⟩

theorem stepsTo_of_step (h : s.step m tolerance node rest outcome = some s') :
    StepsTo m tolerance s node rest outcome s' := by
  unfold step at h
  cases hstatus : outcome.status with
  | optimal =>
    simp only [hstatus] at h
    split at h
    case isTrue hprunes => exact Option.some.inj h ▸ .pruned hstatus hprunes
    case isFalse hprunes =>
      have hkept : s.prunes outcome.objective = false := Bool.eq_false_iff.mpr hprunes
      split at h
      case h_1 j x hsplit => exact Option.some.inj h ▸ .branched hstatus hkept hsplit
      case h_2 hwhole => exact Option.some.inj h ▸ .improved hstatus hkept hwhole
  | infeasible =>
    simp only [hstatus] at h
    exact Option.some.inj h ▸ .emptied hstatus
  | unbounded =>
    simp only [hstatus] at h
    split at h
    case isTrue => cases h
    case isFalse hroot =>
      exact Option.some.inj h ▸ .dropped (by simp [SearchNode.isDropped, hstatus, hroot])
  | iterationLimit | numericalFailure =>
    simp only [hstatus] at h
    exact Option.some.inj h ▸ .dropped (by simp [SearchNode.isDropped, hstatus])

theorem StepsTo.incumbent_eq (h : StepsTo m tolerance s node rest outcome s') :
    s'.incumbent =
      if s.improves m tolerance outcome then some (m.rounding outcome) else s.incumbent := by
  cases h with
  | pruned hoptimal hprunes => simp [improves, hprunes]
  | branched hoptimal hkept hsplit => simp [improves, Model.isWhole, hsplit]
  | improved hoptimal hkept hwhole =>
    simp [improves, Model.isWhole, Model.rounding, hoptimal, hkept, hwhole]
  | emptied hinfeasible => simp [improves, Model.isWhole, hinfeasible]
  | dropped hdropped =>
    have hnot : outcome.status ≠ .optimal := by
      intro hoptimal
      simp [SearchNode.isDropped, hoptimal] at hdropped
    simp [improves, Model.isWhole, hnot]

/-- Only an unbounded root ends a search before its nodes do. -/
theorem step_eq_none (h : s.step m tolerance node rest outcome = none) :
    outcome.status = .unbounded ∧ node.depth = 0 := by
  unfold step at h
  cases hstatus : outcome.status with
  | optimal =>
    simp only [hstatus] at h
    split at h
    · cases h
    · split at h <;> cases h
  | infeasible | iterationLimit | numericalFailure =>
    simp only [hstatus] at h
    cases h
  | unbounded =>
    simp only [hstatus] at h
    split at h
    case isTrue hroot => exact ⟨rfl, hroot⟩
    case isFalse => cases h

/-- A search with a budget of nodes: the nodes whose relaxations it asks for, in that order, the
state it ends in and why it ends there. -/
inductive Explores (m : Model K) (tolerance : K) (relax : SearchNode K → Solution K) :
    Nat → SearchState K → List (SearchNode K) → SearchState K → SearchEnd → Prop
  | exhausted {budget : Nat} {s : SearchState K} (hstack : s.stack = []) :
    Explores m tolerance relax budget s [] s .exhausted
  | nodeLimit {s : SearchState K} (hstack : s.stack ≠ []) :
    Explores m tolerance relax 0 s [] s .nodeLimit
  | unbounded {budget : Nat} {s : SearchState K} {node : SearchNode K} {rest : List (SearchNode K)}
      (hstack : s.stack = node :: rest) (hnone : s.step m tolerance node rest (relax node) = none) :
    Explores m tolerance relax (budget + 1) s [node] s .unbounded
  | explored {budget : Nat} {s s' final : SearchState K} {node : SearchNode K}
      {rest nodes : List (SearchNode K)} {reason : SearchEnd} (hstack : s.stack = node :: rest)
      (hsome : s.step m tolerance node rest (relax node) = some s')
      (hrun : Explores m tolerance relax budget s' nodes final reason) :
    Explores m tolerance relax (budget + 1) s (node :: nodes) final reason

def solvedNodes (m : Model K) (tolerance : K) (relax : SearchNode K → Solution K) :
    Nat → SearchState K → List (SearchNode K)
  | budget, s =>
    match s.stack, budget with
    | [], _ => []
    | _ :: _, 0 => []
    | node :: rest, budget + 1 =>
      node :: match s.step m tolerance node rest (relax node) with
        | some s => solvedNodes m tolerance relax budget s
        | none => []

theorem explores_explore (m : Model K) (tolerance : K) (relax : SearchNode K → Solution K)
    (budget : Nat) (s : SearchState K) :
    Explores m tolerance relax budget s (solvedNodes m tolerance relax budget s)
      (s.explore m tolerance relax budget).1 (s.explore m tolerance relax budget).2 := by
  induction budget generalizing s with
  | zero =>
    unfold explore solvedNodes
    cases hstack : s.stack with
    | nil => exact .exhausted hstack
    | cons node rest => exact .nodeLimit (hstack ▸ List.cons_ne_nil node rest)
  | succ budget ih =>
    unfold explore solvedNodes
    cases hstack : s.stack with
    | nil => exact .exhausted hstack
    | cons node rest =>
      simp only
      cases hstep : s.step m tolerance node rest (relax node) with
      | none => exact .unbounded hstack hstep
      | some s' => exact .explored hstack hstep (ih s')

namespace Explores

theorem preserves {P : SearchState K → Prop}
    (h : Explores m tolerance relax budget s nodes final reason)
    (hstep : ∀ (node : SearchNode K) (rest : List (SearchNode K)) (s s' : SearchState K),
      node ∈ nodes → s.stack = node :: rest → StepsTo m tolerance s node rest (relax node) s' →
        P s → P s')
    (hstart : P s) : P final := by
  induction h with
  | exhausted hstack | nodeLimit hstack | unbounded hstack hnone => exact hstart
  | explored hstack hsome hrun ih =>
    refine ih (fun node rest s s' hnode => hstep node rest s s' (List.mem_cons_of_mem _ hnode)) ?_
    exact hstep _ _ _ _ List.mem_cons_self hstack (stepsTo_of_step hsome) hstart

theorem length_le (h : Explores m tolerance relax budget s nodes final reason) :
    nodes.length ≤ budget := by
  induction h with
  | exhausted hstack | nodeLimit hstack => exact Nat.zero_le _
  | unbounded hstack hnone => exact Nat.succ_le_succ (Nat.zero_le _)
  | explored hstack hsome hrun ih => exact Nat.succ_le_succ ih

/-- Why a search ends, in terms of what is left to explore. -/
theorem ending (h : Explores m tolerance relax budget s nodes final reason) :
    (reason = .exhausted → final.stack = []) ∧
      (reason = .nodeLimit → final.stack ≠ [] ∧ nodes.length = budget) ∧
      (reason = .unbounded → ∃ node ∈ nodes, (relax node).status = .unbounded) := by
  induction h with
  | exhausted hstack => exact ⟨fun _ => hstack, nofun, nofun⟩
  | nodeLimit hstack => exact ⟨nofun, fun _ => ⟨hstack, rfl⟩, nofun⟩
  | unbounded hstack hnone =>
    exact ⟨nofun, nofun, fun _ => ⟨_, List.mem_cons_self, (step_eq_none hnone).1⟩⟩
  | explored hstack hsome hrun ih =>
    obtain ⟨hexhausted, hlimit, hunbounded⟩ := ih
    refine ⟨hexhausted, fun hreason => ?_, fun hreason => ?_⟩
    · exact ⟨(hlimit hreason).1, congrArg (· + 1) (hlimit hreason).2⟩
    · obtain ⟨node, hnode, hstatus⟩ := hunbounded hreason
      exact ⟨node, List.mem_cons_of_mem _ hnode, hstatus⟩

/-- A search that its root does not end stops for want of budget when it has used it up with a box
left. -/
theorem nodeLimit_iff (h : Explores m tolerance relax budget s nodes final reason)
    (hbounded : reason ≠ .unbounded) :
    reason = .nodeLimit ↔ nodes.length = budget ∧ final.stack ≠ [] := by
  obtain ⟨hexhausted, hlimit, -⟩ := h.ending
  cases reason with
  | exhausted => simp [hexhausted rfl]
  | nodeLimit => simp [hlimit rfl]
  | unbounded => exact absurd rfl hbounded

theorem failed_eq (h : Explores m tolerance relax budget s nodes final reason) :
    final.failed = s.failed + nodes.countP fun node => node.isDropped (relax node) := by
  induction h with
  | exhausted hstack | nodeLimit hstack => rfl
  | @unbounded _ s node rest hstack hnone =>
    obtain ⟨hunbounded, hroot⟩ := step_eq_none hnone
    have hkept : node.isDropped (relax node) = false := by
      simp [SearchNode.isDropped, hunbounded, hroot]
    simp [hkept]
  | @explored _ s s' _ node _ _ _ hstack hsome hrun ih =>
    have hcount : s'.failed = s.failed + (node.isDropped (relax node)).toNat := by
      cases stepsTo_of_step hsome with
      | pruned hstatus | branched hstatus | improved hstatus | emptied hstatus =>
        simp [SearchNode.isDropped, hstatus]
      | dropped hdropped => simp [hdropped]
    rw [ih, hcount, List.countP_cons]
    cases node.isDropped (relax node) <;> simp; omega

theorem explored_eq (h : Explores m tolerance relax budget s nodes final reason)
    (hreason : reason ≠ .unbounded) : final.explored = s.explored + nodes.length := by
  induction h with
  | exhausted hstack | nodeLimit hstack => rfl
  | unbounded hstack hnone => exact absurd rfl hreason
  | @explored _ s s' _ node _ _ _ hstack hsome hrun ih =>
    have hcount : s'.explored = s.explored + 1 := by
      cases stepsTo_of_step hsome <;> rfl
    rw [ih hreason, hcount, List.length_cons]
    omega

theorem incumbent_isSome_iff (h : Explores m tolerance relax budget s nodes final reason) :
    final.incumbent.isSome = true ↔ s.incumbent.isSome = true ∨
      ∃ node ∈ nodes, m.isWhole tolerance (relax node) = true := by
  induction h with
  | exhausted hstack | nodeLimit hstack => simp
  | @unbounded _ s node rest hstack hnone =>
    have hnot : m.isWhole tolerance (relax node) = false := by
      simp [Model.isWhole, (step_eq_none hnone).1]
    simp [hnot]
  | @explored _ s s' _ node _ _ _ hstack hsome hrun ih =>
    have hfirst : s'.incumbent.isSome = true ↔
        s.incumbent.isSome = true ∨ m.isWhole tolerance (relax node) = true := by
      rw [(stepsTo_of_step hsome).incumbent_eq]
      by_cases himproves : s.improves m tolerance (relax node) = true
      · obtain ⟨hwhole, -⟩ := Bool.and_eq_true_iff.mp himproves
        simp [himproves, hwhole]
      · -- A whole minimiser is passed over only in favour of an incumbent.
        rw [if_neg himproves]
        refine ⟨.inl, fun h => h.elim id fun hwhole => ?_⟩
        have hprunes : s.prunes (relax node).objective = true := by
          simpa [improves, hwhole] using himproves
        obtain ⟨best, hbest, -⟩ := (Option.any_eq_true _ _).mp hprunes
        simp [hbest]
    rw [ih, hfirst]
    simp [or_assoc]

end Explores

/-- The status of a search by its end and by what it has found. -/
theorem status_solution (s : SearchState K) (reason : SearchEnd) :
    ((s.solution reason).status = .iterationLimit ↔ reason = .nodeLimit) ∧
      ((s.solution reason).status = .optimal ↔
        reason = .exhausted ∧ s.incumbent.isSome = true) ∧
      ((s.solution reason).status = .numericalFailure ↔
        reason = .exhausted ∧ ¬s.incumbent.isSome = true ∧ 0 < s.failed) ∧
      ((s.solution reason).status = .infeasible ↔
        reason = .exhausted ∧ ¬s.incumbent.isSome = true ∧ ¬0 < s.failed) := by
  unfold solution
  cases reason with
  | unbounded => simp [Solution.without]
  | nodeLimit => cases s.incumbent <;> simp [Solution.without]
  | exhausted =>
    cases s.incumbent with
    | some best => simp
    | none => by_cases hfailed : 0 < s.failed <;> simp [Solution.without, hfailed]

theorem iterations_solution (s : SearchState K) (hreason : reason ≠ .unbounded) :
    (s.solution reason).iterations = s.nodeCount := by
  unfold solution
  cases reason with
  | unbounded => exact absurd rfl hreason
  | nodeLimit | exhausted => cases s.incumbent <;> rfl

theorem solution_of_incumbent {best : Incumbent K} (hbest : s.incumbent = some best)
    (hreason : reason ≠ .unbounded) :
    (s.solution reason).primal = best.point ∧ (s.solution reason).objective = best.objective := by
  unfold solution
  rw [hbest]
  cases reason with
  | unbounded => exact absurd rfl hreason
  | nodeLimit | exhausted => exact ⟨rfl, rfl⟩

end SearchState

namespace Model

/-- The state in which a search starts: only the box of the model is to be explored. -/
def searchStart (m : Model K) : SearchState K :=
  ⟨[⟨(Relaxation.ofModel m).lower, (Relaxation.ofModel m).upper, 0⟩], none, 0, 0⟩

/-- The state that the search of a model ends in, and why it ends. -/
def searched (m : Model K) (settings : SolverSettings K) (relax : SearchNode K → Solution K) :
    SearchState K × SearchEnd :=
  m.searchStart.explore m settings.integralityTol relax settings.maxNodes

def solvedNodes (m : Model K) (settings : SolverSettings K) (relax : SearchNode K → Solution K) :
    List (SearchNode K) :=
  SearchState.solvedNodes m settings.integralityTol relax settings.maxNodes m.searchStart

theorem branchAndBound_eq (m : Model K) (settings : SolverSettings K)
    (relax : SearchNode K → Solution K) :
    m.branchAndBound settings relax =
      (m.searched settings relax).1.solution (m.searched settings relax).2 := rfl

theorem explores_searched (m : Model K) (settings : SolverSettings K)
    (relax : SearchNode K → Solution K) :
    SearchState.Explores m settings.integralityTol relax settings.maxNodes m.searchStart
      (m.solvedNodes settings relax) (m.searched settings relax).1 (m.searched settings relax).2 :=
  SearchState.explores_explore ..

/-- The status of a search in terms of the relaxations that it asked for. Nodes that were given up
matter only where no relaxation had a whole minimiser. -/
theorem status_branchAndBound (m : Model K) (settings : SolverSettings K)
    (relax : SearchNode K → Solution K) :
    let nodes := m.solvedNodes settings relax
    let status := (m.branchAndBound settings relax).status
    let reason := (m.searched settings relax).2
    let found := ∃ node ∈ nodes, m.isWhole settings.integralityTol (relax node) = true
    let dropped := ∃ node ∈ nodes, node.isDropped (relax node) = true
    (status = .iterationLimit ↔ reason = .nodeLimit) ∧
      (status = .optimal ↔ reason = .exhausted ∧ found) ∧
      (status = .numericalFailure ↔ reason = .exhausted ∧ ¬found ∧ dropped) ∧
      (status = .infeasible ↔ reason = .exhausted ∧ ¬found ∧ ¬dropped) := by
  intro nodes status reason found dropped
  have hrun := m.explores_searched settings relax
  have hfound : (m.searched settings relax).1.incumbent.isSome = true ↔ found := by
    simpa [searchStart] using hrun.incumbent_isSome_iff
  have hdropped : 0 < (m.searched settings relax).1.failed ↔ dropped := by
    rw [hrun.failed_eq, searchStart, Nat.zero_add, List.countP_pos_iff]
  have hstatus := SearchState.status_solution (m.searched settings relax).1
    (m.searched settings relax).2
  rwa [hfound, hdropped] at hstatus

open Exact (number)

/-- Lots at a cost of `x² − 2.8 x`, so that one lot is the best whole number. -/
def lots : Model Exact where
  vars := #[⟨"lots", some (number 0), some (number 10), true⟩]
  constraints := #[]
  objective := ⟨#[(0, number (-14 / 5))], number 0⟩
  quadratic := #[(0, number 1)]
  expressions := .empty

/-- Relaxations of the lots that are solved except where at most one lot is allowed. -/
def lotsUnsolvedBelow (node : SearchNode Exact) : Solution Exact :=
  if node.upper = #[number 1] then .without .numericalFailure 0
  else Relaxation.solve ConicProgram.solveByPivoting
    { Relaxation.ofModel lots with lower := node.lower, upper := node.upper } .default

/-- The search gives up the half with the best number of lots and reports two lots as an optimum. -/
theorem lots_optimal_despite_dropped_node :
    lots.WellFormed ∧ lots.hasInteger = true ∧
      (∃ node ∈ lots.solvedNodes .default lotsUnsolvedBelow,
        node.isDropped (lotsUnsolvedBelow node) = true) ∧
      (lots.branchAndBound .default lotsUnsolvedBelow).status = .optimal ∧
      (lots.branchAndBound .default lotsUnsolvedBelow).primal = #[number 2] ∧
      lots.Feasible #[number 1] ∧
      lots.objectiveValue #[number 1] <
        (lots.branchAndBound .default lotsUnsolvedBelow).objective := by
  decide +kernel

end Model

end BendersPlanning

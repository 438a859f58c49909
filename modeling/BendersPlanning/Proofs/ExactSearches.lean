import BendersPlanning.Proofs.CheckedRelaxations
import BendersPlanning.Proofs.SearchSteps

/-!
# Exact searches

A search whose relaxations are answered truthfully keeps an invariant: its incumbent meets the
model, its boxes lie in the box of the model, and every point of the model is in a box still to be
explored, in one that was given up, or not better than the incumbent by more than the relative
`1e-9` at which nodes are pruned. The bound at which a node was pruned stays good while the incumbent
improves, for the bound of a better incumbent is lower.

With nothing left to explore the incumbent is therefore an optimum outside the boxes that were given
up, and an optimum of the model if there were none.
-/

namespace BendersPlanning

open Exact (number)

variable {m : Model Exact} {tolerance : Exact} {point : Array Exact}

/-- The objective from which on nodes are pruned. -/
def pruningBound (objective : ℚ) : ℚ := objective - 1 / 10 ^ 9 * max |objective| 1

theorem pruningBound_le (objective : ℚ) : pruningBound objective ≤ objective := by
  unfold pruningBound
  have : 0 ≤ max |objective| 1 := le_max_of_le_right zero_le_one
  linarith

theorem pruningBound_mono {a b : ℚ} (h : a ≤ b) : pruningBound a ≤ pruningBound b := by
  unfold pruningBound
  have habs : |b| ≤ |a| + (b - a) := by
    have := abs_add_le a (b - a)
    rwa [add_sub_cancel, abs_of_nonneg (sub_nonneg.mpr h)] at this
  have hmax : max |b| 1 ≤ max |a| 1 + (b - a) := by
    apply max_le
    · linarith [le_max_left |a| 1]
    · linarith [le_max_right |a| 1]
  linarith

namespace SearchState

variable {s s' : SearchState Exact} {best : Incumbent Exact} {b v : ℚ}

theorem prunes_iff (hbest : s.incumbent = some best) (hb : best.objective = number b) :
    s.prunes (number v) = true ↔ pruningBound b ≤ v := by
  rw [prunes, hbest, Option.any_some, decide_eq_true_iff, hb, Exact.abs_number, Exact.one_eq,
    Exact.larger_number, Exact.nano_eq, Exact.number_mul, Exact.number_sub, Exact.number_le,
    pruningBound]

/-- What is known of a search: its boxes lie in the box of the model, its incumbent meets the model,
and every point of the model that is not given up is in one of the boxes or no better than the
incumbent. -/
structure Covers (m : Model Exact) (givenUp : Array Exact → Prop) (s : SearchState Exact) :
    Prop where
  boxes : ∀ node ∈ s.stack, ∀ point, (node.relaxation m).Feasible point →
    (Relaxation.ofModel m).Feasible point
  incumbent : ∀ best, s.incumbent = some best →
    m.Feasible best.point ∧ best.objective = m.objectiveValue best.point
  covered : ∀ point, m.Feasible point → ¬givenUp point →
    (∃ node ∈ s.stack, (node.relaxation m).Feasible point) ∨
      s.prunes (m.objectiveValue point) = true

variable {givenUp : Array Exact → Prop} {node : SearchNode Exact} {rest : List (SearchNode Exact)}
  {outcome : Solution Exact}

theorem covers_start (m : Model Exact) (givenUp : Array Exact → Prop) :
    m.searchStart.Covers m givenUp where
  boxes := by
    intro node hnode point h
    obtain rfl := List.mem_singleton.mp hnode
    exact h
  incumbent := nofun
  covered := by
    intro point hpoint _
    exact .inl ⟨_, List.mem_cons_self, (Model.feasible_iff.mp hpoint).1⟩

namespace Covers

theorem exists_number (hm : m.WellFormed) (h : s.Covers m givenUp)
    (hbest : s.incumbent = some best) : ∃ b, best.objective = number b := by
  obtain ⟨hfeasible, hvalue⟩ := h.incumbent best hbest
  exact ⟨_, hvalue.trans (Model.objectiveValue_eq hm hfeasible.toIsFiniteVector)⟩

/-- Without the node in front, a search still covers what it covered if all points of that node are
given up or no better than the incumbent. -/
theorem tail (h : s.Covers m givenUp) (hstack : s.stack = node :: rest)
    (hdone : ∀ point, m.Feasible point → ¬givenUp point → (node.relaxation m).Feasible point →
      s.prunes (m.objectiveValue point) = true) (explored failed : ℕ) :
    (SearchState.mk rest s.incumbent explored failed).Covers m givenUp where
  boxes := fun node hnode => h.boxes node (hstack ▸ List.mem_cons_of_mem _ hnode)
  incumbent := h.incumbent
  covered := by
    intro point hpoint hkept
    rcases h.covered point hpoint hkept with ⟨child, hchild, hin⟩ | hpruned
    · rcases List.mem_cons.mp (hstack ▸ hchild) with rfl | hrest
      · exact .inr (hdone point hpoint hkept hin)
      · exact .inl ⟨child, hrest, hin⟩
    · exact .inr hpruned

theorem prunes_of_pruned (hm : m.WellFormed) (h : s.Covers m givenUp)
    (htruthful : outcome.IsTruthfulFor (node.relaxation m)) (hoptimal : outcome.status = .optimal)
    (hprunes : s.prunes outcome.objective = true) (hpoint : (node.relaxation m).Feasible point) :
    s.prunes (m.objectiveValue point) = true := by
  obtain ⟨best, hbest, -⟩ := (Option.any_eq_true _ _).mp hprunes
  obtain ⟨b, hb⟩ := h.exists_number hm hbest
  have hleast := htruthful.least hoptimal point hpoint
  rw [htruthful.value hoptimal] at hprunes hleast
  change s.prunes (m.objectiveValue outcome.primal) = true at hprunes
  change m.objectiveValue outcome.primal ≤ m.objectiveValue point at hleast
  rw [Model.objectiveValue_eq hm (htruthful.feasible hoptimal).toIsFiniteVector] at hprunes hleast
  rw [Model.objectiveValue_eq hm hpoint.toIsFiniteVector] at hleast ⊢
  exact (prunes_iff hbest hb).mpr
    (((prunes_iff hbest hb).mp hprunes).trans (Exact.number_le.mp hleast))

/-- The halves of a node cover what the node covered. -/
theorem branched (h : s.Covers m givenUp) (hstack : s.stack = node :: rest)
    (htruthful : outcome.IsTruthfulFor (node.relaxation m)) (hoptimal : outcome.status = .optimal)
    {j : ℕ} {x : Exact} (hsplit : m.mostFractional? tolerance outcome.primal = some (j, x))
    (explored failed : ℕ) :
    (SearchState.mk (node.split j x ++ rest) s.incumbent explored failed).Covers m givenUp := by
  obtain ⟨⟨v, hv, hinteger⟩, rfl⟩ := Model.eq_of_mostFractional?_eq_some hsplit
  obtain ⟨hj, -⟩ := Array.getElem?_eq_some_iff.mp hv
  have hprimal := htruthful.feasible hoptimal
  refine ⟨?_, h.incumbent, fun point hpoint hkept => ?_⟩
  · have hinside : SearchNode.AreInside m (node :: rest) := hstack ▸ h.boxes
    exact SearchNode.areInside_split hinside hprimal hj
  · rcases h.covered point hpoint hkept with ⟨child, hchild, hin⟩ | hpruned
    · left
      rcases List.mem_cons.mp (hstack ▸ hchild) with rfl | hrest
      · -- A point of the node has a whole value at `j`, so it is on one of the two sides.
        rw [hprimal.entry_eq hj]
        obtain ⟨half, hhalf, hinhalf⟩ :=
          SearchNode.exists_mem_split hin _ ((Model.feasible_iff.mp hpoint).2 j v hv hinteger)
        exact ⟨half, List.mem_append_left _ hhalf, hinhalf⟩
      · exact ⟨child, List.mem_append_right _ hrest, hin⟩
    · exact .inr hpruned

/-- A whole minimiser of a node that is not pruned is a new incumbent: it meets the model, nothing
in its node is better, and what the old one pruned it prunes as well. -/
theorem improved (hm : m.WellFormed) (h : s.Covers m givenUp) (hstack : s.stack = node :: rest)
    (htruthful : outcome.IsTruthfulFor (node.relaxation m)) (hoptimal : outcome.status = .optimal)
    (hkept : s.prunes outcome.objective = false) (hseparated : m.IsSeparated tolerance outcome.primal)
    (hwhole : m.mostFractional? tolerance outcome.primal = none) (explored failed : ℕ) :
    (SearchState.mk rest (some ⟨m.roundIntegers outcome.primal,
      m.objectiveValue (m.roundIntegers outcome.primal)⟩) explored failed).Covers m givenUp := by
  have hprimal := htruthful.feasible hoptimal
  have hintegral := Model.isIntegral_of_isSeparated hseparated hprimal.toIsFiniteVector hwhole
  have hfeasible : m.Feasible outcome.primal := Model.feasible_iff.mpr
    ⟨h.boxes node (hstack ▸ List.mem_cons_self) _ hprimal, hintegral⟩
  have hvalue := Model.objectiveValue_eq hm hprimal.toIsFiniteVector
  rw [Model.roundIntegers_eq hintegral]
  refine ⟨fun child hchild => h.boxes child (hstack ▸ List.mem_cons_of_mem _ hchild), ?_, ?_⟩
  · intro best hbest
    obtain rfl := Option.some.inj hbest
    exact ⟨hfeasible, rfl⟩
  · intro point hpoint hgiven
    have hcost := Model.objectiveValue_eq hm hpoint.toIsFiniteVector
    rw [hcost, prunes_iff rfl hvalue]
    rcases h.covered point hpoint hgiven with ⟨child, hchild, hin⟩ | hpruned
    · rcases List.mem_cons.mp (hstack ▸ hchild) with rfl | hrest
      · right
        have hleast := htruthful.least hoptimal point hin
        rw [htruthful.value hoptimal] at hleast
        change m.objectiveValue outcome.primal ≤ m.objectiveValue point at hleast
        rw [hvalue, hcost, Exact.number_le] at hleast
        exact (pruningBound_le _).trans hleast
      · exact .inl ⟨child, hrest, hin⟩
    · -- The node was not pruned, so the new incumbent is better and prunes from a lower bound on.
      right
      obtain ⟨best, hbest, -⟩ := (Option.any_eq_true _ _).mp hpruned
      obtain ⟨b, hb⟩ := h.exists_number hm hbest
      rw [htruthful.value hoptimal] at hkept
      change s.prunes (m.objectiveValue outcome.primal) = false at hkept
      rw [hvalue, Bool.eq_false_iff, ne_eq, prunes_iff hbest hb, not_le] at hkept
      rw [hcost, prunes_iff hbest hb] at hpruned
      have hbetter : m.cost (coordinate outcome.primal) ≤ b := hkept.le.trans (pruningBound_le b)
      exact (pruningBound_mono hbetter).trans hpruned

theorem step (hm : m.WellFormed) (h : s.Covers m givenUp) (hstack : s.stack = node :: rest)
    (htruthful : outcome.IsTruthfulFor (node.relaxation m))
    (hseparated : outcome.status = .optimal → m.IsSeparated tolerance outcome.primal)
    (hgiven : node.isDropped outcome = true →
      ∀ point, (node.relaxation m).Feasible point → givenUp point)
    (hstep : StepsTo m tolerance s node rest outcome s') : s'.Covers m givenUp := by
  cases hstep with
  | pruned hoptimal hprunes =>
    apply h.tail hstack
    intro point _ _ hin
    exact h.prunes_of_pruned hm htruthful hoptimal hprunes hin
  | branched hoptimal hkept hsplit => exact h.branched hstack htruthful hoptimal hsplit _ _
  | improved hoptimal hkept hwhole =>
    exact h.improved hm hstack htruthful hoptimal hkept (hseparated hoptimal) hwhole _ _
  | emptied hinfeasible =>
    apply h.tail hstack
    intro point _ _ hin
    exact absurd hin (htruthful.infeasible hinfeasible point)
  | dropped hdropped =>
    apply h.tail hstack
    intro point _ hkept hin
    exact absurd (hgiven hdropped point hin) hkept

end Covers

end SearchState

namespace Model

variable {settings : SolverSettings Exact} {relax : SearchNode Exact → Solution Exact}

/-- Whether a point lies in a box that a search gave up. -/
def IsGivenUp (m : Model Exact) (settings : SolverSettings Exact)
    (relax : SearchNode Exact → Solution Exact) (point : Array Exact) : Prop :=
  ∃ node ∈ m.solvedNodes settings relax, node.isDropped (relax node) = true ∧
    (node.relaxation m).Feasible point

theorem covers_searched (hm : m.WellFormed)
    (htruthful : ∀ node ∈ m.solvedNodes settings relax,
      (relax node).IsTruthfulFor (node.relaxation m))
    (hseparated : ∀ node ∈ m.solvedNodes settings relax, (relax node).status = .optimal →
      m.IsSeparated settings.integralityTol (relax node).primal) :
    (m.searched settings relax).1.Covers m (m.IsGivenUp settings relax) := by
  apply (m.explores_searched settings relax).preserves
  · intro node rest s s' hnode hstack hstep hcovers
    apply hcovers.step hm hstack (htruthful node hnode) (hseparated node hnode) _ hstep
    exact fun hdropped point hpoint => ⟨node, hnode, hdropped, hpoint⟩
  · exact SearchState.covers_start m _

/-- An answer that is called optimal is one, up to the pruning tolerance, outside the boxes that the
search gave up. -/
theorem optimal_outside_given_up (hm : m.WellFormed)
    (htruthful : ∀ node ∈ m.solvedNodes settings relax,
      (relax node).IsTruthfulFor (node.relaxation m))
    (hseparated : ∀ node ∈ m.solvedNodes settings relax, (relax node).status = .optimal →
      m.IsSeparated settings.integralityTol (relax node).primal)
    (hoptimal : (m.branchAndBound settings relax).status = .optimal) :
    m.Feasible (m.branchAndBound settings relax).primal ∧
      (m.branchAndBound settings relax).objective =
        m.objectiveValue (m.branchAndBound settings relax).primal ∧
      ∀ point, m.Feasible point → ¬m.IsGivenUp settings relax point →
        (m.branchAndBound settings relax).objective -
            1e-9 * Scalar.larger (Scalar.abs (m.branchAndBound settings relax).objective) 1.0 ≤
          m.objectiveValue point := by
  have hcovers := covers_searched hm htruthful hseparated
  rw [branchAndBound_eq] at hoptimal ⊢
  obtain ⟨hexhausted, hfound⟩ := (SearchState.status_solution _ _).2.1.mp hoptimal
  have hempty := (m.explores_searched settings relax).ending.1 hexhausted
  rw [hexhausted]
  obtain ⟨best, hbest⟩ := Option.isSome_iff_exists.mp hfound
  obtain ⟨hfeasible, hvalue⟩ := hcovers.incumbent best hbest
  simp only [SearchState.solution, hbest]
  refine ⟨hfeasible, hvalue, fun point hpoint hkept => ?_⟩
  rcases hcovers.covered point hpoint hkept with ⟨node, hnode, -⟩ | hprunes
  · simp [hempty] at hnode
  · simpa only [SearchState.prunes, hbest, Option.any_some, decide_eq_true_iff] using hprunes

/-- A search that calls a model infeasible has given up all its points. -/
theorem given_up_of_infeasible (hm : m.WellFormed)
    (htruthful : ∀ node ∈ m.solvedNodes settings relax,
      (relax node).IsTruthfulFor (node.relaxation m))
    (hseparated : ∀ node ∈ m.solvedNodes settings relax, (relax node).status = .optimal →
      m.IsSeparated settings.integralityTol (relax node).primal)
    (hinfeasible : (m.branchAndBound settings relax).status = .infeasible)
    (hpoint : m.Feasible point) : m.IsGivenUp settings relax point := by
  have hcovers := covers_searched hm htruthful hseparated
  rw [branchAndBound_eq] at hinfeasible
  obtain ⟨hexhausted, hnone, -⟩ := (SearchState.status_solution _ _).2.2.2.mp hinfeasible
  have hempty := (m.explores_searched settings relax).ending.1 hexhausted
  by_contra hkept
  rcases hcovers.covered point hpoint hkept with ⟨node, hnode, -⟩ | hprunes
  · simp [hempty] at hnode
  · obtain ⟨best, hbest, -⟩ := (Option.any_eq_true _ _).mp hprunes
    simp [hbest] at hnone

section Answered

variable (hanswered : ∀ node ∈ m.solvedNodes settings relax,
  (relax node).status = .optimal ∨ (relax node).status = .infeasible)
include hanswered

theorem not_isDropped {node : SearchNode Exact} (hnode : node ∈ m.solvedNodes settings relax) :
    ¬node.isDropped (relax node) = true := by
  rcases hanswered node hnode with hstatus | hstatus <;> simp [SearchNode.isDropped, hstatus]

theorem not_isGivenUp (point : Array Exact) : ¬m.IsGivenUp settings relax point := by
  rintro ⟨node, hnode, hdropped, -⟩
  exact not_isDropped hanswered hnode hdropped

theorem searched_ne_unbounded : (m.searched settings relax).2 ≠ .unbounded := by
  intro hreason
  obtain ⟨node, hnode, hstatus⟩ := (m.explores_searched settings relax).ending.2.2 hreason
  rcases hanswered node hnode with hanswer | hanswer <;> simp [hstatus] at hanswer

/-- With an answer for every box a search finds an optimum, finds out that there is none, or is
stopped by its budget. -/
theorem status_of_answered :
    (m.branchAndBound settings relax).status = .optimal ∨
      (m.branchAndBound settings relax).status = .infeasible ∨
      (m.branchAndBound settings relax).status = .iterationLimit := by
  obtain ⟨hlimit, hoptimal, -, hinfeasible⟩ := m.status_branchAndBound settings relax
  cases hreason : (m.searched settings relax).2 with
  | exhausted =>
    by_cases hfound : ∃ node ∈ m.solvedNodes settings relax,
        m.isWhole settings.integralityTol (relax node) = true
    · exact .inl (hoptimal.mpr ⟨hreason, hfound⟩)
    · refine .inr (.inl (hinfeasible.mpr ⟨hreason, hfound, ?_⟩))
      rintro ⟨node, hnode, hdropped⟩
      exact not_isDropped hanswered hnode hdropped
  | nodeLimit => exact .inr (.inr (hlimit.mpr hreason))
  | unbounded => exact absurd hreason (searched_ne_unbounded hanswered)

end Answered

/-- A search whose relaxations are all answered truthfully, by a minimiser without values that are
almost whole or by infeasibility, is right: an optimum meets the model and is undercut by no point
of it beyond the pruning tolerance, and a model that is called infeasible has no points. It solves
no more relaxations than it is allowed to, and stops for want of more exactly when it has used them
up with a box left. -/
theorem branchAndBound_isExact (hm : m.WellFormed)
    (hanswered : ∀ node ∈ m.solvedNodes settings relax,
      (relax node).status = .optimal ∨ (relax node).status = .infeasible)
    (htruthful : ∀ node ∈ m.solvedNodes settings relax,
      (relax node).IsTruthfulFor (node.relaxation m))
    (hseparated : ∀ node ∈ m.solvedNodes settings relax, (relax node).status = .optimal →
      m.IsSeparated settings.integralityTol (relax node).primal) :
    let outcome := m.branchAndBound settings relax
    let nodes := m.solvedNodes settings relax
    (outcome.status = .optimal → m.Feasible outcome.primal ∧
        outcome.objective = m.objectiveValue outcome.primal ∧
        ∀ point, m.Feasible point →
          outcome.objective - 1e-9 * Scalar.larger (Scalar.abs outcome.objective) 1.0 ≤
            m.objectiveValue point) ∧
      (outcome.status = .infeasible → ∀ point, ¬m.Feasible point) ∧
      nodes.length ≤ settings.maxNodes ∧ outcome.iterations = min nodes.length 0xFFFFFFFF ∧
      (outcome.status = .iterationLimit ↔
        nodes.length = settings.maxNodes ∧ (m.searched settings relax).1.stack ≠ []) ∧
      (outcome.status = .optimal ∨ outcome.status = .infeasible ∨
        outcome.status = .iterationLimit) := by
  intro outcome nodes
  have hrun := m.explores_searched settings relax
  have hbounded := searched_ne_unbounded hanswered
  refine ⟨fun hoptimal => ?_, fun hinfeasible point hpoint => ?_, hrun.length_le, ?_, ?_,
    status_of_answered hanswered⟩
  · obtain ⟨hfeasible, hvalue, hleast⟩ :=
      optimal_outside_given_up hm htruthful hseparated hoptimal
    refine ⟨hfeasible, hvalue, fun point hpoint => ?_⟩
    exact hleast point hpoint (not_isGivenUp hanswered point)
  · apply not_isGivenUp hanswered point
    exact given_up_of_infeasible hm htruthful hseparated hinfeasible hpoint
  · have hcount := hrun.explored_eq hbounded
    rw [searchStart, Nat.zero_add] at hcount
    rw [← hcount]
    exact SearchState.iterations_solution _ hbounded
  · exact (SearchState.status_solution _ _).1.trans (hrun.nodeLimit_iff hbounded)

/-- A reservoir whose level is set in whole steps, down to three below the mark, and a pump that can
lower the need by up to half a step. -/
def reservoir : Model Exact where
  vars := #[⟨"level", some (number (-3)), some (number 3), true⟩,
    .continuous "pumped" (some (number 0)) (some (number (1 / 2)))]
  constraints := #[⟨"need", ⟨#[(0, number 3), (1, number 2)], number 0⟩, .atLeast, number (-4)⟩]
  objective := ⟨#[(0, number 2), (1, number 3)], number 0⟩
  quadratic := #[]
  expressions := .empty

def reservoirOutcome (node : SearchNode Exact) : Solution Exact :=
  (node.relaxation reservoir).solve ConicProgram.solveByPivoting .default

/-- The search of the reservoir branches once, between the levels minus two and minus one. -/
theorem reservoir_search :
    (reservoir.branchAndBound .default reservoirOutcome).status = .optimal ∧
      (reservoir.branchAndBound .default reservoirOutcome).primal = #[number (-1), number 0] ∧
      (reservoir.solvedNodes .default reservoirOutcome).length = 3 ∧
      ∀ point, reservoir.Feasible point →
        number (-2) - 1e-9 * number 2 ≤ reservoir.objectiveValue point := by
  obtain ⟨hm, hnodes, hstatus, hprimal, hobjective, hcount⟩ : reservoir.WellFormed ∧
      (∀ node ∈ reservoir.solvedNodes .default reservoirOutcome,
        (node.relaxation reservoir).IsChecked ConicProgram.solveByPivoting .default ∧
          ((reservoirOutcome node).status = .optimal →
            IsFiniteVector reservoir.vars.size (reservoirOutcome node).primal ∧
              ∀ j, ∀ hj : j < reservoir.vars.size, reservoir.vars[j].integer = true →
                Scalar.round (Scalar.entry (reservoirOutcome node).primal j) =
                    Scalar.entry (reservoirOutcome node).primal j ∨
                  1e-6 < fractionality (Scalar.entry (reservoirOutcome node).primal j))) ∧
      (reservoir.branchAndBound .default reservoirOutcome).status = .optimal ∧
      (reservoir.branchAndBound .default reservoirOutcome).primal = #[number (-1), number 0] ∧
      (reservoir.branchAndBound .default reservoirOutcome).objective = number (-2) ∧
      (reservoir.solvedNodes .default reservoirOutcome).length = 3 := by decide +kernel
  obtain ⟨hoptimal, -⟩ := branchAndBound_isExact hm
    (fun node hnode => (Relaxation.solve_isTruthfulFor (hnodes node hnode).1).2)
    (fun node hnode => (Relaxation.solve_isTruthfulFor (hnodes node hnode).1).1)
    (fun node hnode hnodeOptimal => isSeparated_of_fractionality
      ((hnodes node hnode).2 hnodeOptimal).1 ((hnodes node hnode).2 hnodeOptimal).2)
  obtain ⟨-, -, hleast⟩ := hoptimal hstatus
  refine ⟨hstatus, hprimal, hcount, fun point hpoint => ?_⟩
  have hscale : Scalar.larger (Scalar.abs (number (-2))) 1.0 = number 2 := by decide +kernel
  have hbound := hleast point hpoint
  rwa [hobjective, hscale] at hbound

end Model

end BendersPlanning

import BendersPlanning.Proofs.AssembledPrograms
import BendersPlanning.Proofs.BranchedBoxes
import BendersPlanning.Proofs.CheckedAnswers

/-!
# Checked outcomes of relaxations

The answer of a conic solver about a relaxation proves itself when a minimiser comes with its
multipliers and infeasibility with a ray. The outcome that a relaxation makes of such an answer is
truthful, as is the one that crossed bounds have without any solver.
-/

namespace BendersPlanning

open Exact (number)

namespace Relaxation

variable {r : Relaxation Exact} {conic : ConicSolver Exact} {settings : SolverSettings Exact}
  {point x z : Array Exact}

/-- Whether an answer about the conic program of a relaxation proves itself. -/
def IsProvedBy (r : Relaxation Exact) : ConicOutcome Exact → Prop
  | .optimal x z => r.Feasible x ∧ r.program.IsOptimal x (r.program.slack x) z
  | .infeasible z => r.program.IsRay z
  | .unbounded | .limit | .failed => False

instance (r : Relaxation Exact) (outcome : ConicOutcome Exact) : Decidable (r.IsProvedBy outcome) :=
  match outcome with
  | .optimal _ _ => inferInstanceAs (Decidable (_ ∧ _))
  | .infeasible z => inferInstanceAs (Decidable (r.program.IsRay z))
  | .unbounded | .limit | .failed => inferInstanceAs (Decidable False)

/-- Whether a relaxation has crossed bounds or gets an answer that proves itself. -/
def IsChecked (r : Relaxation Exact) (conic : ConicSolver Exact) (settings : SolverSettings Exact) :
    Prop :=
  r.lower.size = r.model.vars.size ∧ r.isCrossed = true ∨
    r.WellFormed ∧ r.feasibilityOnly = false ∧ r.model.vars.isEmpty = false ∧
      r.rows.isEmpty = false ∧ r.IsProvedBy (conic r.program settings).1

instance (r : Relaxation Exact) (conic : ConicSolver Exact) (settings : SolverSettings Exact) :
    Decidable (r.IsChecked conic settings) :=
  inferInstanceAs (Decidable (_ ∨ _))

theorem Feasible.withRhs (h : r.Feasible point) :
    (r.withRhs r.model.rightHandSides).Feasible point := by
  unfold Relaxation.withRhs
  rwa [r.model.withRhs_rightHandSides]

/-- At the right-hand sides of the model itself, prices say that nothing is below the objective. -/
theorem IsPricedBy.least {objective : Exact} {duals : Array Exact}
    (h : r.IsPricedBy objective duals) (hr : r.WellFormed) (hpoint : r.Feasible point) :
    objective ≤ r.model.objectiveValue point := by
  have hbound := h.supports _ point hr.model.rightHandSides hpoint.withRhs
  rwa [Model.changeAlong_self hr.model h.toIsFiniteVector, Exact.add_number_zero] at hbound

theorem IsRefutedBy.not_feasible {c : Certificate Exact} (h : r.IsRefutedBy c)
    (hr : r.WellFormed) : ¬r.Feasible point := by
  intro hpoint
  have hbound := h.supports _ point hr.model.rightHandSides hpoint.withRhs
  rw [Model.changeAlong_self hr.model h.toIsFiniteVector, Exact.add_number_zero] at hbound
  exact Exact.not_lt_of_le hbound h.margin.2

theorem not_feasible_of_isCrossed (hsize : r.lower.size = r.model.vars.size)
    (h : r.isCrossed = true) : ¬r.Feasible point := by
  intro hpoint
  obtain ⟨⟨l, u⟩, hmem, hcrossed⟩ := List.any_eq_true.mp h
  obtain ⟨j, hj⟩ := List.mem_iff_getElem?.mp hmem
  rw [box, List.getElem?_zip_eq_some, Array.getElem?_toList, Array.getElem?_toList] at hj
  have hlt : j < r.model.vars.size := hsize ▸ (Array.getElem?_eq_some_iff.mp hj.1).choose
  obtain ⟨hlower, hupper⟩ := hpoint.box j hlt
  simp only [Scalar.entry, hj.1, hj.2, Option.getD_some] at hlower hupper
  exact Exact.not_lt_of_le (Exact.le_trans hlower hupper) (of_decide_eq_true hcrossed)

theorem isTruthfulFor_of_infeasible {s : Solution Exact} (hstatus : s.status = .infeasible)
    (h : ∀ point, ¬r.Feasible point) : s.IsTruthfulFor r := by
  constructor <;> simp [hstatus, h]

/-- The outcome of a checked relaxation is truthful, and it is a minimiser or infeasibility. -/
theorem solve_isTruthfulFor (h : r.IsChecked conic settings) :
    (r.solve conic settings).IsTruthfulFor r ∧
      ((r.solve conic settings).status = .optimal ∨
        (r.solve conic settings).status = .infeasible) := by
  rcases h with ⟨hsize, hcrossed⟩ | ⟨hr, hobjective, hvars, hrows, hproved⟩
  · have hstatus : (r.solve conic settings).status = .infeasible := by
      simp [solve, hcrossed, Solution.without]
    exact ⟨isTruthfulFor_of_infeasible hstatus fun _ => not_feasible_of_isCrossed hsize hcrossed,
      .inr hstatus⟩
  · cases hanswer : conic r.program settings with
    | mk outcome iterations =>
      rw [hanswer] at hproved
      cases outcome with
      | optimal x z =>
        obtain ⟨hfeasible, hoptimal⟩ := hproved
        have hvalue : r.objectiveAt x = r.model.objectiveValue x := by
          simp [objectiveAt, hobjective]
        rw [solve_of_optimal hr hanswer hvars hrows]
        refine ⟨⟨?_, fun _ => hfeasible, fun _ => hvalue, fun _ point hpoint => ?_⟩, .inl rfl⟩
        · rintro ⟨⟩
        · exact hvalue.trans_le ((isPricedBy_prices hr hobjective hoptimal).least hr hpoint)
      | infeasible z =>
        obtain ⟨hcertificate, hrefuted⟩ := isRefutedBy_of_isRay hr hproved
        have hstatus : (r.solve conic settings).status = .infeasible := by
          simp [solve, isCrossed_eq_false hr, hvars, hrows, hanswer, hcertificate, Solution.without]
        exact ⟨isTruthfulFor_of_infeasible hstatus fun _ => hrefuted.not_feasible hr, .inr hstatus⟩
      | unbounded | limit | failed => exact hproved.elim

end Relaxation

end BendersPlanning

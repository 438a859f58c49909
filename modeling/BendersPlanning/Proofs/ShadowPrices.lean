import BendersPlanning.Proofs.RowMultipliers
import Mathlib.Algebra.Order.BigOperators.Group.Finset

/-!
# Shadow prices of relaxations

The prices that a relaxation reports from an optimal solution of its conic program support the
optimal value from below at all right-hand sides at once: the objective is convex, its gradient at
the optimum is balanced by the multipliers of the rows, and the multipliers bound what other points
gain.
-/

namespace BendersPlanning

/-- Prices that support an objective from below at all right-hand sides; rows that are switched off
have no price. -/
structure Relaxation.IsPricedBy {K : Type} [Scalar K] (r : Relaxation K) (objective : K)
    (duals : Array K) : Prop extends IsFiniteVector r.model.constraints.size duals where
  supports : ∀ rhs point, IsFiniteVector r.model.constraints.size rhs →
    (r.withRhs rhs).Feasible point →
    objective + changeAlong duals r.model.rightHandSides rhs ≤ r.model.objectiveValue point
  inactive : ∀ c < r.model.constraints.size, r.active[c]?.getD false = false →
    duals[c]? = some 0.0

open Exact (number)

namespace Relaxation

variable {r : Relaxation Exact} {x s z : Array Exact} {δ y : ℕ → ℚ}

/-- At an optimum the multipliers weigh the activities like the right-hand sides. -/
theorem combine_activity_eq (hr : r.WellFormed) (h : r.program.IsOptimal x s z)
    (hx : IsFiniteVector r.model.vars.size x) :
    r.combine (coordinate z) (·.activity (coordinate x)) =
      r.combine (coordinate z) (·.b.toRat) := by
  have hlength := size_b r
  have hs : IsFiniteVector r.rows.length s := hlength ▸ h.slack
  have hz : IsFiniteVector r.rows.length z := hlength ▸ h.multipliers
  have hslack : ∀ (i : ℕ) (row : ConicRow Exact), r.rows[i]? = some row →
      coordinate s i = row.b.toRat - row.activity (coordinate x) := by
    intro i row hrow
    have hi : i < r.rows.length := (List.getElem?_eq_some_iff.mp hrow).choose
    have hbalanced := h.balanced i (hi.trans_eq hlength.symm)
    rw [mulVec_program hr hx hrow, hs.entry_eq hi, (isFiniteVector_b hr).entry_eq hi,
      coordinate_b hrow, Exact.number_add, Exact.number.injEq] at hbalanced
    linarith
  have hcomplementary := h.complementary
  rw [hlength, dot_eq hs hz, Exact.zero_eq, Exact.number.injEq] at hcomplementary
  have hsum := combine_eq_sum (r := r) (coordinate z)
    (fun row => row.b.toRat - row.activity (coordinate x)) (coordinate s) hslack
  have hcommuted : ∑ i ∈ Finset.range r.rows.length, coordinate z i * coordinate s i = 0 := by
    simpa only [mul_comm] using hcomplementary
  have hadd := combine_add (r := r) (coordinate z)
    (fun row => row.b.toRat - row.activity (coordinate x)) (·.activity (coordinate x))
  simp only [sub_add_cancel] at hadd
  rw [hadd, hsum, hcommuted, zero_add]

/-- The objective at any point exceeds the optimum by at least what the multipliers give away. -/
theorem cost_ge_of_isOptimal (hr : r.WellFormed) (hobjective : r.feasibilityOnly = false)
    (h : r.program.IsOptimal x s z) (hrows : ∀ row ∈ r.rows, row.HoldsAt δ y) :
    r.model.cost (coordinate x) - r.combine (coordinate z) (·.shift δ) ≤ r.model.cost y := by
  obtain ⟨hcosts, -⟩ := linearCosts_eq hr hobjective
  have hx : IsFiniteVector r.model.vars.size x := size_q r ▸ h.point
  have hz : IsFiniteVector r.rows.length z := size_b r ▸ h.multipliers
  have hweak := combine_le (nonneg_of_dualContains hz h.dualCone) hrows
  rw [combine_add, ← combine_activity_eq hr h hx] at hweak
  have hstationary : ∀ j < r.model.vars.size,
      2 * coordinate r.squareWeights j * coordinate x j + coordinate r.linearCosts j +
        r.combine (coordinate z) (fun row => coefficientOf row.coefficients j) = 0 := by
    intro j hj
    have hj' := h.stationary j (hj.trans_eq hcosts.size.symm)
    have hq : Scalar.entry r.program.q j = number (coordinate r.linearCosts j) :=
      hcosts.entry_eq hj
    rwa [mulVec_quadratic hr hobjective hx hj, hq, vecMul_program hr hz hj, Exact.number_add,
      Exact.number_add, Exact.zero_eq, Exact.number.injEq] at hj'
  -- The gradient at the optimum underestimates every part of the convex objective.
  have hconvex : ∀ j ∈ Finset.range r.model.vars.size,
      coordinate r.linearCosts j * coordinate x j +
          coordinate r.squareWeights j * (coordinate x j * coordinate x j) +
          (r.combine (coordinate z) (fun row => coefficientOf row.coefficients j) *
            coordinate x j -
          r.combine (coordinate z) (fun row => coefficientOf row.coefficients j) * y j) ≤
        coordinate r.linearCosts j * y j + coordinate r.squareWeights j * (y j * y j) := by
    intro j hj
    have hsquare : 0 ≤ coordinate r.squareWeights j * (y j - coordinate x j) ^ 2 :=
      mul_nonneg ((squareWeights_eq hr hobjective).2 j (Finset.mem_range.mp hj)).2 (sq_nonneg _)
    have hbalance := eq_neg_of_add_eq_zero_right (hstationary j (Finset.mem_range.mp hj))
    rw [hbalance]
    linarith [hsquare]
  have htotal := Finset.sum_le_sum hconvex
  rw [Finset.sum_add_distrib, Finset.sum_sub_distrib, sum_combine_coefficients hr,
    sum_combine_coefficients hr] at htotal
  rw [cost_eq hr hobjective, cost_eq hr hobjective]
  linarith

theorem sum_prices (hz : IsFiniteVector r.rows.length z) (δ : ℕ → ℚ) :
    IsFiniteVector r.model.constraints.size (r.prices z) ∧
      ∑ c ∈ Finset.range r.model.constraints.size, coordinate (r.prices z) c * δ c =
        -r.combine (coordinate z) (·.shift δ) := by
  have h := sum_perConstraint hz (fun row x => -row.sign * x) 1 (by
    intro row hrow q
    obtain ⟨t, ht, -⟩ := sign_of_mem_rows hrow
    simp [ht]) δ
  rwa [div_one] at h

theorem prices_inactive {c : ℕ} (hc : c < r.model.constraints.size)
    (hinactive : r.active[c]?.getD false = false)
    (hfinite : IsFiniteVector r.model.constraints.size (r.prices z)) :
    (r.prices z)[c]? = some 0.0 := by
  have hlt : c < (r.prices z).size := hc.trans_eq hfinite.size.symm
  rw [Array.getElem?_eq_getElem hlt, Exact.zero_eq]
  rcases getElem?_perConstraint (Array.getElem?_eq_getElem hlt) with hzero | ⟨p, hp, hrow, -⟩
  · exact congrArg some hzero
  · have hactive := (constraint_lt_and_active (List.of_mem_zip hp).1 hrow).2
    rw [hinactive] at hactive
    cases hactive

/-- The prices read from an optimal solution of the conic program support its objective. -/
theorem isPricedBy_prices (hr : r.WellFormed) (hobjective : r.feasibilityOnly = false)
    (h : r.program.IsOptimal x s z) : r.IsPricedBy (r.model.objectiveValue x) (r.prices z) := by
  have hx : IsFiniteVector r.model.vars.size x := size_q r ▸ h.point
  have hz : IsFiniteVector r.rows.length z := size_b r ▸ h.multipliers
  have hprices := sum_prices hz
  refine ⟨(hprices 0).1, fun rhs point hrhs hpoint => ?_, fun c hc hinactive =>
    prices_inactive hc hinactive (hprices 0).1⟩
  have hy : IsFiniteVector r.model.vars.size point := hpoint.toIsFiniteVector
  have hbound := cost_ge_of_isOptimal hr hobjective h fun row hrow =>
    holdsAt_of_feasible hr hrhs hpoint hrow
  rw [Model.objectiveValue_eq hr.model hx, Model.objectiveValue_eq hr.model hy,
    changeAlong_eq (hprices 0).1 hr.model.rightHandSides hrhs, (hprices _).2, Exact.number_add,
    Exact.number_le]
  linarith

theorem isCrossed_eq_false (hr : r.WellFormed) : r.isCrossed = false := by
  refine List.any_eq_false.mpr fun ⟨l, u⟩ hmem => ?_
  obtain ⟨j, hj⟩ := List.mem_iff_getElem?.mp hmem
  rw [box, List.getElem?_zip_eq_some, Array.getElem?_toList, Array.getElem?_toList] at hj
  have hlt : j < r.model.vars.size :=
    hr.lowerSize ▸ (Array.getElem?_eq_some_iff.mp hj.1).choose
  have hle := hr.ordered j hlt
  simp only [Scalar.entry, hj.1, hj.2, Option.getD_some] at hle
  simpa using Exact.not_lt_of_le hle

/-- What a relaxation with variables and rows makes of an optimal answer of the conic solver. -/
theorem solve_of_optimal (hr : r.WellFormed) {conic : ConicSolver Exact}
    {settings : SolverSettings Exact} {iterations : ℕ}
    (hconic : conic r.program settings = (.optimal x z, iterations))
    (hvars : r.model.vars.isEmpty = false) (hrows : r.rows.isEmpty = false) :
    r.solve conic settings = r.optimum x (r.prices z) iterations := by
  unfold solve
  simp [isCrossed_eq_false hr, hvars, hrows, hconic]

/-- An optimal solution of the conic program gives prices that support the optimal value at all
right-hand sides, and these prices are the ones reported. -/
theorem solve_reports_supporting_prices (hr : r.WellFormed) (hobjective : r.feasibilityOnly = false)
    (h : r.program.IsOptimal x s z) :
    r.IsPricedBy (r.model.objectiveValue x) (r.prices z) ∧
      ∀ (conic : ConicSolver Exact) (settings : SolverSettings Exact) (iterations : ℕ),
        conic r.program settings = (.optimal x z, iterations) →
        r.model.vars.isEmpty = false → r.rows.isEmpty = false →
        (r.solve conic settings).status = .optimal ∧ (r.solve conic settings).primal = x ∧
          (r.solve conic settings).objective = r.model.objectiveValue x ∧
          (r.solve conic settings).duals = r.prices z := by
  refine ⟨isPricedBy_prices hr hobjective h, fun conic settings iterations hconic hvars hrows => ?_⟩
  rw [solve_of_optimal hr hconic hvars hrows]
  exact ⟨rfl, rfl, by simp [optimum, objectiveAt, hobjective], rfl⟩

/-- A demand of three is met at a quadratic cost by one source and at a linear cost by another; a
row that would close the first source is switched off. -/
def sharedDemand : Relaxation Exact where
  model :=
    { vars := #[.continuous "convex" (some (number 0)) (some (number 10)),
        .continuous "linear" (some (number 0)) none]
      constraints := #[
        ⟨"demand", ⟨#[(0, number 1), (1, number 1)], number 1⟩, .atLeast, number 4⟩,
        ⟨"limit", ⟨#[(1, number 1)], number 0⟩, .atMost, number 5⟩,
        ⟨"closed", ⟨#[(0, number 1)], number 0⟩, .equal, number 0⟩]
      objective := ⟨#[(1, number 2)], number 0⟩
      quadratic := #[(0, number 1)]
      expressions := .empty }
  lower := #[number 0, number 0]
  upper := #[number 10, .infinity]
  active := #[true, true, false]
  feasibilityOnly := false

theorem sharedDemand_prices_support :
    sharedDemand.prices #[number 2, number 0, number 0, number 0, number 0] =
        #[number 2, number 0, number 0] ∧
      sharedDemand.IsPricedBy (number 5) #[number 2, number 0, number 0] := by
  have h : sharedDemand.program.IsOptimal #[number 1, number 2]
      #[number 0, number 3, number 1, number 9, number 2]
      #[number 2, number 0, number 0, number 0, number 0] := by decide +kernel
  have hprices : sharedDemand.prices #[number 2, number 0, number 0, number 0, number 0] =
      #[number 2, number 0, number 0] := by decide +kernel
  have hobjective : sharedDemand.model.objectiveValue #[number 1, number 2] = number 5 := by
    decide +kernel
  have hpriced := (solve_reports_supporting_prices (by decide +kernel) rfl h).1
  rw [hprices, hobjective] at hpriced
  exact ⟨hprices, hpriced⟩

end Relaxation

end BendersPlanning

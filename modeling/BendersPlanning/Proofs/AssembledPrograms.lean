import BendersPlanning.Proofs.RelaxationPrograms
import Mathlib.Algebra.BigOperators.Field

/-!
# Relaxations and their conic programs

A conic program admits a point when some slack in its cones balances the rows there. The program of
a relaxation admits exactly the points of the relaxation, and its form is the objective without the
constant: nothing is lost or gained between a model and what is handed to a solver.
-/

namespace BendersPlanning

section Meaning
variable {K : Type} [Scalar K]

open Scalar (entry)

namespace ConicProgram

/-- Whether some slack in the cones balances the rows at a point. -/
def Admits (p : ConicProgram K) (x : Array K) : Prop :=
  ∃ s, IsFiniteVector p.b.size s ∧ Cone.Contains p.cones s ∧
    ∀ i < p.b.size, p.A.mulVec x i + entry s i = entry p.b i

/-- The form `½ xᵀPx + qᵀx`. -/
def form (p : ConicProgram K) (x : Array K) : K :=
  Scalar.sum ((List.range p.q.size).map fun j => entry x j * p.P.mulVec x j) / 2.0 +
    dot p.q.size p.q x

end ConicProgram

end Meaning

instance {K : Type} [Scalar K] (r : Relaxation K) (point : Array K) :
    Decidable (r.Feasible point) :=
  decidable_of_iff
    (IsFiniteVector r.model.vars.size point ∧
      (∀ j < r.model.vars.size, Scalar.entry r.lower j ≤ Scalar.entry point j ∧
        Scalar.entry point j ≤ Scalar.entry r.upper j) ∧
      ∀ i, ∀ h : i < r.model.constraints.size, r.active[i]?.getD false = true →
        r.model.constraints[i].Holds point)
    ⟨fun ⟨hfinite, hbox, hrows⟩ => ⟨hfinite, hbox, fun i c hc hactive => by
        obtain ⟨hi, rfl⟩ := Array.getElem?_eq_some_iff.mp hc
        exact hrows i hi hactive⟩,
      fun h => ⟨h.toIsFiniteVector, h.box, fun i hi hactive =>
        h.rows i _ (Array.getElem?_eq_getElem hi) hactive⟩⟩

open Exact (number)

namespace ConicRow

/-- Which rows bounds give: one equation, or one row for each bound that is a number. -/
theorem ofBounds_eq (j : ℕ) (l u : ℚ) :
    ofBounds j (number l) (number u) =
        (if l = u then [⟨none, number 1, [(j, number 1)], number l, true⟩]
        else [⟨none, number 1, [(j, number (-1))], number (-l), false⟩,
          ⟨none, number 1, [(j, number 1)], number u, false⟩]) ∧
      ofBounds j (number l) .infinity =
        [⟨none, number 1, [(j, number (-1))], number (-l), false⟩] ∧
      ofBounds j .negInfinity (number u) =
        [⟨none, number 1, [(j, number 1)], number u, false⟩] := by
  have hinfinite : Scalar.isFinite Exact.infinity = false ∧
      Scalar.isFinite Exact.negInfinity = false := by decide
  have hdifferent : (number l == Exact.infinity) = false := rfl
  refine ⟨?_, ?_, ?_⟩
  · by_cases h : l = u <;> simp [ofBounds, h]
  · simp [ofBounds, hinfinite, hdifferent]
  · simp [ofBounds, hinfinite]

/-- The rows of ordered bounds hold exactly at the values between them, unless a bound is infinite
on the wrong side, for such a bound has no row. -/
theorem holdsAt_ofBounds_iff {j : ℕ} {lower upper : Exact} {δ x : ℕ → ℚ}
    (hordered : lower ≤ upper) (hlower : lower ≠ .infinity) (hupper : upper ≠ .negInfinity) :
    (∀ row ∈ ofBounds j lower upper, row.HoldsAt δ x) ↔
      lower ≤ number (x j) ∧ number (x j) ≤ upper := by
  refine ⟨fun h => ?_, fun ⟨hl, hu⟩ row hrow => holdsAt_of_mem_ofBounds hrow hl hu⟩
  have hbelow : ∀ a : ℚ, number a ≤ .infinity := fun a => .inl rfl
  cases lower with
  | number l =>
    cases upper with
    | number u =>
      rw [(ofBounds_eq j l u).1] at h
      split_ifs at h with hsame
      · simpa [HoldsAt, activity, shift, ← hsame, le_antisymm_iff, and_comm] using h
      · simpa [HoldsAt, activity, shift] using h
    | infinity =>
      rw [(ofBounds_eq j l 0).2.1] at h
      refine ⟨?_, hbelow _⟩
      simpa [HoldsAt, activity, shift] using h
    | negInfinity => exact (hupper rfl).elim
    | undefined => rcases hordered with h | h <;> cases h
  | infinity => exact (hlower rfl).elim
  | negInfinity =>
    refine ⟨Exact.negInfinity_le_number _, ?_⟩
    cases upper with
    | number u =>
      rw [(ofBounds_eq j 0 u).2.2] at h
      simpa [HoldsAt, activity, shift] using h
    | infinity => exact hbelow _
    | negInfinity => exact (hupper rfl).elim
    | undefined => rcases hordered with h | h <;> cases h
  | undefined => rcases hordered with h | h <;> cases upper <;> cases h

end ConicRow

namespace Relaxation

variable {r : Relaxation Exact} {point s : Array Exact}

theorem exists_row (r : Relaxation Exact) {i : ℕ} (hi : i < r.program.b.size) :
    ∃ row, r.rows[i]? = some row :=
  ⟨_, List.getElem?_eq_getElem (hi.trans_eq (size_b r))⟩

theorem contains_cones_iff (hs : IsFiniteVector r.rows.length s) :
    Cone.Contains r.program.cones s ↔ ∀ (i : ℕ) (row : ConicRow Exact), r.rows[i]? = some row →
      if row.equality then coordinate s i = 0 else 0 ≤ coordinate s i := by
  have hkind : ∀ (i : ℕ) (kind : Bool), (kind, i) ∈ (Cone.expand r.program.cones).zipIdx ↔
      ∃ row, r.rows[i]? = some row ∧ row.equality = kind := by
    intro i kind
    rw [List.mem_zipIdx_iff_getElem?, expand_cones, List.getElem?_map, Option.map_eq_some_iff]
  have hentry : ∀ (i : ℕ) (row : ConicRow Exact), r.rows[i]? = some row →
      Scalar.entry s i = number (coordinate s i) := fun i row hrow =>
    hs.entry_eq (List.getElem?_eq_some_iff.mp hrow).choose
  constructor
  · intro h i row hrow
    have hcone := h (row.equality, i) ((hkind i _).mpr ⟨row, hrow, rfl⟩)
    simpa only [hentry i row hrow, Exact.zero_eq, Exact.number.injEq, Exact.number_le] using hcone
  · rintro h ⟨kind, i⟩ hmem
    obtain ⟨row, hrow, rfl⟩ := (hkind i kind).mp hmem
    simpa only [hentry i row hrow, Exact.zero_eq, Exact.number.injEq, Exact.number_le]
      using h i row hrow

/-- A slack balances the rows when it is what the activities leave of the right-hand sides. -/
theorem balanced_iff (hr : r.WellFormed) (hpoint : IsFiniteVector r.model.vars.size point)
    (hs : IsFiniteVector r.rows.length s) :
    (∀ i < r.program.b.size,
      r.program.A.mulVec point i + Scalar.entry s i = Scalar.entry r.program.b i) ↔
    ∀ (i : ℕ) (row : ConicRow Exact), r.rows[i]? = some row →
      coordinate s i = row.b.toRat - row.activity (coordinate point) := by
  have hrow : ∀ (i : ℕ) (row : ConicRow Exact), r.rows[i]? = some row →
      (r.program.A.mulVec point i + Scalar.entry s i = Scalar.entry r.program.b i ↔
        coordinate s i = row.b.toRat - row.activity (coordinate point)) := by
    intro i row hget
    have hi : i < r.rows.length := (List.getElem?_eq_some_iff.mp hget).choose
    rw [mulVec_program hr hpoint hget, hs.entry_eq hi, (isFiniteVector_b hr).entry_eq hi,
      coordinate_b hget, Exact.number_add, Exact.number.injEq, eq_sub_iff_add_eq, add_comm]
  constructor
  · intro h i row hget
    exact (hrow i row hget).mp (h i ((List.getElem?_eq_some_iff.mp hget).choose.trans_eq
      (size_b r).symm))
  · intro h i hi
    obtain ⟨row, hget⟩ := exists_row r hi
    exact (hrow i row hget).mpr (h i row hget)

/-- What the activities at a point leave of the right-hand sides. -/
def slackAt (r : Relaxation Exact) (x : ℕ → ℚ) : Array Exact :=
  (r.rows.map fun row => number (row.b.toRat - row.activity x)).toArray

theorem isFiniteVector_slackAt (r : Relaxation Exact) (x : ℕ → ℚ) :
    IsFiniteVector r.rows.length (r.slackAt x) := by
  refine ⟨by simp [slackAt], fun y hy => ?_⟩
  rw [slackAt, List.mem_toArray] at hy
  obtain ⟨row, -, rfl⟩ := List.mem_map.mp hy
  exact Exact.isFinite_number _

theorem coordinate_slackAt {i : ℕ} {row : ConicRow Exact} (h : r.rows[i]? = some row) (x : ℕ → ℚ) :
    coordinate (r.slackAt x) i = row.b.toRat - row.activity x := by
  simp [coordinate, Scalar.entry, slackAt, h]

theorem holdsAt_zero_iff {row : ConicRow Exact} {x : ℕ → ℚ} :
    row.HoldsAt (fun _ => 0) x ↔ if row.equality then row.b.toRat - row.activity x = 0
      else 0 ≤ row.b.toRat - row.activity x := by
  have hshift : row.shift (fun _ => 0) = 0 := by
    unfold ConicRow.shift
    split <;> simp
  unfold ConicRow.HoldsAt
  rw [hshift, add_zero, sub_nonneg, sub_eq_zero]
  split_ifs
  · exact eq_comm
  · exact Iff.rfl

/-- Some slack in the cones balances the rows exactly when all of them hold. -/
theorem admits_iff_rows_hold (hr : r.WellFormed)
    (hpoint : IsFiniteVector r.model.vars.size point) :
    r.program.Admits point ↔ ∀ row ∈ r.rows, row.HoldsAt (fun _ => 0) (coordinate point) := by
  constructor
  · rintro ⟨s, hs, hcones, hbalanced⟩ row hrow
    rw [size_b] at hs
    obtain ⟨i, hget⟩ := List.mem_iff_getElem?.mp hrow
    rw [holdsAt_zero_iff, ← (balanced_iff hr hpoint hs).mp hbalanced i row hget]
    exact (contains_cones_iff hs).mp hcones i row hget
  · intro hrows
    have hs := isFiniteVector_slackAt r (coordinate point)
    refine ⟨r.slackAt (coordinate point), (size_b r).symm ▸ hs, ?_, ?_⟩
    · refine (contains_cones_iff hs).mpr fun i row hget => ?_
      rw [coordinate_slackAt hget]
      exact holdsAt_zero_iff.mp (hrows row (List.mem_of_getElem? hget))
    · exact (balanced_iff hr hpoint hs).mpr fun i row hget => coordinate_slackAt hget _

theorem ofConstraint_mem_rows {i : ℕ} {c : Constraint Exact} (h : r.model.constraints[i]? = some c)
    (hactive : r.active[i]?.getD false = true) : ConicRow.ofConstraint i c ∈ r.rows := by
  refine List.mem_append_left _ (List.mem_map.mpr ⟨(c, i), List.mem_filter.mpr ⟨?_, hactive⟩, rfl⟩)
  rw [List.mem_zipIdx_iff_getElem?, Array.getElem?_toList, h]

theorem ofBounds_subset_rows (hr : r.WellFormed) {j : ℕ} (hj : j < r.model.vars.size) :
    ConicRow.ofBounds j (Scalar.entry r.lower j) (Scalar.entry r.upper j) ⊆ r.rows := by
  intro row hrow
  have hl : j < r.lower.size := hj.trans_eq hr.lowerSize.symm
  have hu : j < r.upper.size := hj.trans_eq hr.upperSize.symm
  refine List.mem_append_right _ (List.mem_flatMap.mpr ⟨((r.lower[j], r.upper[j]), j), ?_, ?_⟩)
  · rw [List.mem_zipIdx_iff_getElem?, box, List.getElem?_zip_eq_some]
    simp [hl, hu]
  · simpa [Scalar.entry, hl, hu] using hrow

/-- The rows hold exactly at the points of the relaxation. -/
theorem rows_hold_iff (hr : r.WellFormed) (hpoint : IsFiniteVector r.model.vars.size point)
    (hlower : ∀ j < r.model.vars.size, Scalar.entry r.lower j ≠ Scalar.infinity)
    (hupper : ∀ j < r.model.vars.size, Scalar.entry r.upper j ≠ -Scalar.infinity) :
    (∀ row ∈ r.rows, row.HoldsAt (fun _ => 0) (coordinate point)) ↔ r.Feasible point := by
  constructor
  · refine fun h => ⟨hpoint, fun j hj => ?_, fun i c hc hactive => ?_⟩
    · rw [hpoint.entry_eq hj]
      exact (ConicRow.holdsAt_ofBounds_iff (hr.ordered j hj) (hlower j hj) (hupper j hj)).mp
        fun row hrow => h row (ofBounds_subset_rows hr hj hrow)
    · obtain ⟨hover, hrhs⟩ := hr.model.rows c (Array.mem_of_getElem? hc)
      have hrow := (ConicRow.holdsAt_ofConstraint hover hrhs).mp
        (h _ (ofConstraint_mem_rows hc hactive))
      rw [add_zero] at hrow
      exact (Constraint.holds_iff hover hrhs hpoint).mpr hrow
  · intro h row hrow
    have hsame : r.withRhs r.model.rightHandSides = r := by
      rw [withRhs, Model.withRhs_rightHandSides]
    have hmoved := holdsAt_of_feasible hr hr.model.rightHandSides (hsame.symm ▸ h) hrow
    simpa only [sub_self] using hmoved

/-- The form of the program is the objective without its constant. -/
theorem form_add_constant (hr : r.WellFormed) (hobjective : r.feasibilityOnly = false)
    (hpoint : IsFiniteVector r.model.vars.size point) :
    r.program.form point + r.model.objective.constant = r.model.objectiveValue point := by
  obtain ⟨hcosts, -⟩ := linearCosts_eq hr hobjective
  obtain ⟨k, hk⟩ := Exact.isFinite_iff.mp hr.model.objective.constant
  have hsquares : ∀ j ∈ List.range r.model.vars.size,
      Scalar.entry point j * r.program.P.mulVec point j =
        number (coordinate point j * (2 * coordinate r.squareWeights j * coordinate point j)) := by
    intro j hj
    have hlt : j < r.model.vars.size := List.mem_range.mp hj
    rw [mulVec_quadratic hr hobjective hpoint hlt, hpoint.entry_eq hlt, Exact.number_mul]
  have hlinear : dot r.model.vars.size r.program.q point = number (∑ j ∈ Finset.range
      r.model.vars.size, coordinate r.linearCosts j * coordinate point j) := dot_eq hcosts hpoint
  rw [Model.objectiveValue_eq hr.model hpoint, cost_eq hr hobjective, ConicProgram.form, size_q,
    List.map_congr_left hsquares, Exact.sum_map_number, sum_map_range, hlinear, Exact.two_eq,
    Exact.number_div _ two_ne_zero, hk, Exact.number_add, Exact.number_add, Exact.toRat_number,
    Finset.sum_div, ← Finset.sum_add_distrib, add_comm]
  congr 2
  refine Finset.sum_congr rfl fun j _ => ?_
  ring

theorem costs_eq_zero (hobjective : r.feasibilityOnly = true) {j : ℕ}
    (hj : j < r.model.vars.size) :
    Scalar.entry r.program.q j = 0.0 ∧ ∀ i, r.program.P.get i j = 0.0 := by
  have hzero := isFiniteVector_replicate r.model.vars.size
  have hcosts : r.program.q = Array.replicate r.model.vars.size (number 0) := by
    simp [program, linearCosts, hobjective]
  have hweights : r.squareWeights = Array.replicate r.model.vars.size (number 0) := by
    simp [squareWeights, hobjective]
  refine ⟨?_, fun i => ?_⟩
  · rw [hcosts, hzero.entry_eq hj, coordinate_replicate, Exact.zero_eq]
  · have hcolumn := column_squares (hweights ▸ hzero) hj
    rw [hweights, coordinate_replicate, if_neg (lt_irrefl 0)] at hcolumn
    rw [SparseMatrix.get, hcolumn]
    rfl

/-- The conic program of a relaxation stands for it: it admits exactly the points that meet the
active rows and the box, and its form is the objective without the constant, or nothing where the
objective is dropped. -/
theorem program_stands_for_relaxation (hr : r.WellFormed)
    (hlower : ∀ j < r.model.vars.size, Scalar.entry r.lower j ≠ Scalar.infinity)
    (hupper : ∀ j < r.model.vars.size, Scalar.entry r.upper j ≠ -Scalar.infinity)
    (hpoint : IsFiniteVector r.model.vars.size point) :
    (r.program.Admits point ↔ r.Feasible point) ∧
      (r.feasibilityOnly = false →
        r.program.form point + r.model.objective.constant = r.model.objectiveValue point) ∧
      (r.feasibilityOnly = true → ∀ j < r.model.vars.size,
        Scalar.entry r.program.q j = 0.0 ∧ ∀ i, r.program.P.get i j = 0.0) :=
  ⟨(admits_iff_rows_hold hr hpoint).trans (rows_hold_iff hr hpoint hlower hupper),
    fun hobjective => form_add_constant hr hobjective hpoint,
    fun hobjective _ hj => costs_eq_zero hobjective hj⟩

/-- Five sources with a free, a fixed, a boxed and two half-open outputs. The demand names its first
source twice and cancels its last one, the costs repeat a square, and the row between two others is
switched off. -/
def mixedSources : Relaxation Exact where
  model :=
    { vars := #[.continuous "free" none none, .continuous "fixed" none none,
        .continuous "boxed" (some (number 0)) none, .continuous "lower" (some (number 0)) none,
        .continuous "upper" none (some (number 9))]
      constraints := #[
        ⟨"demand", ⟨#[(0, number 1), (4, number 1), (0, number 1), (4, number (-1))], number 1⟩,
          .atLeast, number 5⟩,
        ⟨"closed", ⟨#[(2, number 1)], number 0⟩, .equal, number 0⟩,
        ⟨"balance", ⟨#[(2, number 1), (3, number (-1)), (1, number 0)], number 0⟩, .equal,
          number 1⟩,
        ⟨"limit", ⟨#[(4, number 1)], number (-2)⟩, .atMost, number 3⟩]
      objective := ⟨#[(0, number 3), (3, number 1), (0, number (-1))], number 7⟩
      quadratic := #[(2, number 1), (2, number 2)]
      expressions := .empty }
  lower := #[.negInfinity, number 4, number 0, number 1, .negInfinity]
  upper := #[.infinity, number 4, number 6, .infinity, number 9]
  active := #[true, false, true, true]
  feasibilityOnly := false

/-- The program of the sources admits a point that meets them, none that misses the demand, and none
that leaves the box. -/
theorem mixedSources_program :
    mixedSources.program.Admits #[number 2, number 4, number 2, number 1, number 5] ∧
      ¬mixedSources.program.Admits #[number 1, number 4, number 2, number 1, number 5] ∧
      ¬mixedSources.program.Admits #[number 2, number 3, number 2, number 1, number 5] ∧
      mixedSources.program.form #[number 2, number 4, number 2, number 1, number 5] + number 7 =
        number 24 := by
  have hr : mixedSources.WellFormed := by decide +kernel
  have hlower : ∀ j < mixedSources.model.vars.size,
      Scalar.entry mixedSources.lower j ≠ Scalar.infinity := by decide +kernel
  have hupper : ∀ j < mixedSources.model.vars.size,
      Scalar.entry mixedSources.upper j ≠ -Scalar.infinity := by decide +kernel
  have hmet : IsFiniteVector mixedSources.model.vars.size
      #[number 2, number 4, number 2, number 1, number 5] := by decide +kernel
  have hvalue : mixedSources.model.objectiveValue
      #[number 2, number 4, number 2, number 1, number 5] = number 24 := by decide +kernel
  obtain ⟨hadmits, hform, -⟩ := program_stands_for_relaxation hr hlower hupper hmet
  refine ⟨hadmits.mpr (by decide +kernel), ?_, ?_, (hform rfl).trans hvalue⟩
  · rw [(program_stands_for_relaxation hr hlower hupper (by decide +kernel)).1]
    decide +kernel
  · rw [(program_stands_for_relaxation hr hlower hupper (by decide +kernel)).1]
    decide +kernel

end Relaxation

end BendersPlanning

import BendersPlanning.Conic.Relaxation
import BendersPlanning.Proofs.ConicPrograms
import BendersPlanning.Proofs.FeasiblePoints

/-!
# The conic program of a relaxation in rationals

Every row of the program is `activity ≤ b` or `activity = b`, where the activity of a constraint is
the value of its expression without the constant, reversed for `≥`. Moving the right-hand side of a
constraint moves `b` by `ConicRow.shift`. The entries of `A`, `P` and `q` are the merged
coefficients of rows, squares and costs, so matrix products are activities and the quadratic form is
the objective without its constant.
-/

namespace BendersPlanning

section Meaning
variable {K : Type} [Scalar K]

open Scalar (entry isFinite)

namespace Relaxation

/-- A well-formed model under a box of its size with ordered bounds and a mask of its size. -/
structure WellFormed (r : Relaxation K) : Prop where
  model : r.model.WellFormed
  lowerSize : r.lower.size = r.model.vars.size
  upperSize : r.upper.size = r.model.vars.size
  activeSize : r.active.size = r.model.constraints.size
  ordered : ∀ j < r.model.vars.size, entry r.lower j ≤ entry r.upper j

instance (r : Relaxation K) : Decidable r.WellFormed :=
  decidable_of_iff
    (r.model.WellFormed ∧ (r.lower.size = r.model.vars.size ∧ r.upper.size = r.model.vars.size ∧
      r.active.size = r.model.constraints.size) ∧
      ∀ j < r.model.vars.size, entry r.lower j ≤ entry r.upper j)
    ⟨fun ⟨hm, ⟨hl, hu, ha⟩, ho⟩ => ⟨hm, hl, hu, ha, ho⟩,
      fun h => ⟨h.model, ⟨h.lowerSize, h.upperSize, h.activeSize⟩, h.ordered⟩⟩

/-- Whether a finite point meets the box and all active rows. -/
structure Feasible (r : Relaxation K) (point : Array K) : Prop extends
    IsFiniteVector r.model.vars.size point where
  box : ∀ j < r.model.vars.size,
    entry r.lower j ≤ entry point j ∧ entry point j ≤ entry r.upper j
  rows : ∀ (i : ℕ) (c : Constraint K), r.model.constraints[i]? = some c →
    r.active[i]?.getD false = true → c.Holds point

def withRhs (r : Relaxation K) (rhs : Array K) : Relaxation K :=
  { r with model := r.model.withRhs rhs }

end Relaxation

/-- A row over the first `count` variables with finite numbers. -/
structure ConicRow.IsOver (row : ConicRow K) (count : ℕ) : Prop where
  terms : ∀ t ∈ row.coefficients, t.1 < count ∧ isFinite t.2 = true
  b : isFinite row.b = true

end Meaning

open Exact (number)

namespace ConicRow

variable {row : ConicRow Exact} {count i j : ℕ} {δ x : ℕ → ℚ}

def activity (row : ConicRow Exact) (x : ℕ → ℚ) : ℚ := termSum row.coefficients x

/-- What the right-hand side of a row gains when those of the constraints gain `δ`. -/
def shift (row : ConicRow Exact) (δ : ℕ → ℚ) : ℚ :=
  match row.constraint with
  | some c => row.sign.toRat * δ c
  | none => 0

/-- Whether a row holds when the right-hand sides of the constraints gain `δ`. -/
def HoldsAt (row : ConicRow Exact) (δ x : ℕ → ℚ) : Prop :=
  if row.equality then row.activity x = row.b.toRat + row.shift δ
  else row.activity x ≤ row.b.toRat + row.shift δ

theorem sign_ofConstraint (i : ℕ) (c : Constraint Exact) :
    (ofConstraint i c).sign = number (if c.sense = .atLeast then -1 else 1) := by
  unfold ofConstraint
  split_ifs <;> simp

theorem termSum_filter_ne_zero (terms : List (ℕ × Exact)) (x : ℕ → ℚ) :
    termSum (terms.filter fun t => !(t.2 == 0.0)) x = termSum terms x := by
  induction terms with
  | nil => rfl
  | cons t terms ih =>
    rw [List.filter_cons]
    split_ifs with h
    · rw [termSum_cons, termSum_cons, ih]
    · rw [Exact.zero_eq, Bool.not_eq_true', Bool.not_eq_false] at h
      have hzero : t.2.toRat = 0 := by
        cases ht : t.2 <;> rw [ht] at h <;> simp_all [Exact.toRat]
      rw [ih, termSum_cons, hzero, zero_mul, zero_add]

theorem termSum_scale {terms : List (ℕ × Exact)} (h : AreFiniteTerms terms) (s : ℚ) (x : ℕ → ℚ) :
    termSum (terms.map fun t => (t.1, number s * t.2)) x = s * termSum terms x := by
  induction terms with
  | nil => simp
  | cons t terms ih =>
    obtain ⟨ht, hrest⟩ := h.of_cons
    obtain ⟨q, hq⟩ := Exact.isFinite_iff.mp ht
    simp only [List.map_cons, termSum_cons, ih hrest, hq, Exact.number_mul, Exact.toRat_number]
    ring

section OfConstraint
variable {c : Constraint Exact}

theorem isOver_ofConstraint (hover : c.expression.IsOver count)
    (hrhs : Scalar.isFinite c.rhs = true) : (ofConstraint i c).IsOver count := by
  obtain ⟨b, hb⟩ := Exact.isFinite_iff.mp hrhs
  obtain ⟨k, hk⟩ := Exact.isFinite_iff.mp hover.constant
  have hsign := sign_ofConstraint i c
  have hterms : (ofConstraint i c).coefficients =
      (c.expression.coefficients.entries.filter fun t => !(t.2 == 0.0)).map
        fun t => (t.1, (ofConstraint i c).sign * t.2) := rfl
  have hconstant : (ofConstraint i c).b =
      (ofConstraint i c).sign * (c.rhs - c.expression.constant) := rfl
  refine ⟨fun t ht => ?_, ?_⟩
  · rw [hterms, hsign] at ht
    obtain ⟨u, hu, rfl⟩ := List.mem_map.mp ht
    have hmem : u ∈ c.expression.coefficients.entries := (List.mem_filter.mp hu).1
    obtain ⟨q, hq⟩ := Exact.isFinite_iff.mp
      ((Expression.termSum_coefficients hover fun _ => 0).1 u hmem)
    have hlt : u.1 < count := Expression.lt_of_mem_coefficients hover hmem
    exact ⟨hlt, by simp [hq]⟩
  · rw [hconstant, hsign, hb, hk]
    simp

/-- The row of a constraint holds exactly when the constraint does at its new right-hand side. -/
theorem holdsAt_ofConstraint (hover : c.expression.IsOver count)
    (hrhs : Scalar.isFinite c.rhs = true) :
    (ofConstraint i c).HoldsAt δ x ↔ c.HoldsAt (c.rhs.toRat + δ i) x := by
  obtain ⟨b, hb⟩ := Exact.isFinite_iff.mp hrhs
  obtain ⟨k, hk⟩ := Exact.isFinite_iff.mp hover.constant
  have hmerged := Expression.termSum_coefficients hover x
  have hsign := sign_ofConstraint i c
  have hactivity : (ofConstraint i c).activity x =
      (if c.sense = .atLeast then -1 else 1) * (c.expression.valueAt x - k) := by
    have hterms : (ofConstraint i c).coefficients =
        (c.expression.coefficients.entries.filter fun t => !(t.2 == 0.0)).map
          fun t => (t.1, (ofConstraint i c).sign * t.2) := rfl
    have hfinite : AreFiniteTerms (c.expression.coefficients.entries.filter
        fun t => !(t.2 == 0.0)) := fun t ht => hmerged.1 t (List.mem_filter.mp ht).1
    rw [activity, hterms, hsign, termSum_scale hfinite, termSum_filter_ne_zero, hmerged.2,
      Expression.valueAt, hk, Exact.toRat_number]
    ring
  have hbound : (ofConstraint i c).b.toRat + (ofConstraint i c).shift δ =
      (if c.sense = .atLeast then -1 else 1) * (c.rhs.toRat + δ i - k) := by
    have hconstant : (ofConstraint i c).b =
        (ofConstraint i c).sign * (c.rhs - c.expression.constant) := rfl
    have hconstraint : (ofConstraint i c).constraint = some i := rfl
    rw [shift, hconstraint, hconstant, hsign, hb, hk]
    simp only [Exact.number_sub, Exact.number_mul, Exact.toRat_number]
    ring
  have hequality : (ofConstraint i c).equality = decide (c.sense = .equal) := rfl
  rw [HoldsAt, hactivity, hbound, hequality, Constraint.HoldsAt]
  cases c.sense with
  | atMost => simp
  | atLeast =>
    simp only [reduceCtorEq, decide_false, Bool.false_eq_true, if_false, if_true]
    constructor <;> intro h <;> linarith
  | equal => simp

end OfConstraint

section OfBounds
variable {lower upper : Exact}

/-- The three kinds of rows that bounds give: a fixed value, a lower and an upper bound. -/
theorem eq_of_mem_ofBounds (h : row ∈ ofBounds j lower upper) :
    (∃ q, lower = number q ∧ upper = number q ∧
      row = ⟨none, number 1, [(j, number 1)], number q, true⟩) ∨
    (∃ q, lower = number q ∧ row = ⟨none, number 1, [(j, number (-1))], number (-q), false⟩) ∨
    ∃ q, upper = number q ∧ row = ⟨none, number 1, [(j, number 1)], number q, false⟩ := by
  unfold ofBounds at h
  rw [Exact.one_eq, Exact.neg_number] at h
  by_cases hfixed : (Scalar.isFinite lower && lower == upper) = true
  · rw [if_pos hfixed] at h
    obtain ⟨hfinite, hsame⟩ := Bool.and_eq_true_iff.mp hfixed
    obtain ⟨q, rfl⟩ := Exact.isFinite_iff.mp hfinite
    cases upper with
    | number u =>
      obtain rfl : q = u := by simpa using hsame
      exact .inl ⟨q, rfl, rfl, List.mem_singleton.mp h⟩
    | _ => cases hsame
  · rw [if_neg hfixed] at h
    rcases List.mem_append.mp h with h | h <;> split_ifs at h with hfinite
    · obtain ⟨q, rfl⟩ := Exact.isFinite_iff.mp hfinite
      exact .inr (.inl ⟨q, rfl, List.mem_singleton.mp h⟩)
    · cases h
    · obtain ⟨q, rfl⟩ := Exact.isFinite_iff.mp hfinite
      exact .inr (.inr ⟨q, rfl, List.mem_singleton.mp h⟩)
    · cases h

theorem isOver_ofBounds (hj : j < count) (h : row ∈ ofBounds j lower upper) :
    row.IsOver count := by
  obtain ⟨q, -, -, rfl⟩ | ⟨q, -, rfl⟩ | ⟨q, -, rfl⟩ := eq_of_mem_ofBounds h <;>
    exact ⟨by simpa using hj, Exact.isFinite_number _⟩

theorem constraint_of_mem_ofBounds (h : row ∈ ofBounds j lower upper) : row.constraint = none := by
  obtain ⟨q, -, -, rfl⟩ | ⟨q, -, rfl⟩ | ⟨q, -, rfl⟩ := eq_of_mem_ofBounds h <;> rfl

/-- A value within bounds satisfies their rows, whatever happens to the constraints. -/
theorem holdsAt_of_mem_ofBounds (h : row ∈ ofBounds j lower upper) (hl : lower ≤ number (x j))
    (hu : number (x j) ≤ upper) : row.HoldsAt δ x := by
  obtain ⟨q, rfl, rfl, rfl⟩ | ⟨q, rfl, rfl⟩ | ⟨q, rfl, rfl⟩ := eq_of_mem_ofBounds h
  · rw [Exact.number_le] at hl hu
    simp [HoldsAt, activity, shift, le_antisymm hu hl]
  · rw [Exact.number_le] at hl
    simpa [HoldsAt, activity, shift] using hl
  · rw [Exact.number_le] at hu
    simpa [HoldsAt, activity, shift] using hu

end OfBounds

end ConicRow

end BendersPlanning

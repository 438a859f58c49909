import BendersPlanning.Operation.Subproblem
import BendersPlanning.Proofs.WellFormedModels
import BendersPlanning.Proofs.LinearExpressions
import Mathlib.Order.Bounds.Basic

/-!
# Automatic penalties

An automatic penalty is a thousand times the largest coefficient among the terms of the objective as
they are written. Terms on one variable can add up to more than each of them, as often as the
variable occurs, or cancel. Without repeated variables the terms are the unit costs, and the penalty
depends on the linear function only.
-/

namespace BendersPlanning

open Exact (number)
open Scalar (isFinite)

section Meaning

namespace Expression

/-- How many terms a variable has. -/
def occurrences {K : Type} (e : Expression K) (variableId : ℕ) : ℕ :=
  e.terms.toList.countP (·.1 = variableId)

/-- One and the magnitudes of all coefficients as written. -/
def writtenMagnitudes (e : Expression Exact) : Set ℚ :=
  {q | q = 1 ∨ q ∈ e.terms.toList.map fun t => |t.2.toRat|}

/-- One and the magnitudes of the coefficients of all variables. -/
def unitMagnitudes (e : Expression Exact) : Set ℚ :=
  {q | q = 1 ∨ ∃ j, q = |coefficientOf e.terms.toList j|}

end Expression

end Meaning

section Maxima

theorem isGreatest_foldl_max (a : ℚ) (qs : List ℚ) :
    IsGreatest {q | q = a ∨ q ∈ qs} (qs.foldl max a) := by
  induction qs generalizing a with
  | nil => simp
  | cons b qs ih =>
    obtain ⟨hmem, hupper⟩ := ih (max a b)
    rw [List.foldl_cons]
    constructor
    · rcases hmem with hstart | hlater
      · rcases max_choice a b with hmax | hmax
        · exact .inl (hstart.trans hmax)
        · exact .inr (List.mem_cons.mpr (.inl (hstart.trans hmax)))
      · exact .inr (List.mem_cons_of_mem b hlater)
    · have hstart : max a b ≤ qs.foldl max (max a b) := hupper (.inl rfl)
      rintro q (rfl | hq)
      · exact (le_max_left q b).trans hstart
      · rcases List.mem_cons.mp hq with rfl | hlater
        · exact (le_max_right a q).trans hstart
        · exact hupper (.inr hlater)

/-- The largest magnitude of finite coefficients, taken up term by term. -/
theorem foldl_larger_abs {terms : List (ℕ × Exact)} (h : AreFiniteTerms terms) (a : ℚ) :
    terms.foldl (fun largest t => Scalar.larger largest (Scalar.abs t.2)) (number a) =
      number ((terms.map fun t => |t.2.toRat|).foldl max a) := by
  induction terms generalizing a with
  | nil => rfl
  | cons t terms ih =>
    obtain ⟨ht, hrest⟩ := h.of_cons
    obtain ⟨q, hq⟩ := Exact.isFinite_iff.mp ht
    rw [List.foldl_cons, hq, Exact.abs_number, Exact.larger_number, ih hrest, List.map_cons,
      List.foldl_cons, hq, Exact.toRat_number]

theorem Exact.thousand_eq : (1e3 : Exact) = number 1000 := by
  change number (Rat.ofScientific 1 false 3) = number 1000
  norm_num [Rat.ofScientific_def]

end Maxima

section Coefficients
variable {terms : List (ℕ × Exact)} {j : ℕ} {q : ℚ}

/-- A variable costs at most as much per unit as all its terms could at their largest. -/
theorem abs_coefficientOf_le (h : ∀ t ∈ terms, |t.2.toRat| ≤ q) :
    |coefficientOf terms j| ≤ terms.countP (·.1 = j) * q := by
  induction terms with
  | nil => simp [coefficientOf]
  | cons t terms ih =>
    obtain ⟨ht, hrest⟩ := List.forall_mem_cons.mp h
    rw [coefficientOf_cons, List.countP_cons]
    by_cases htj : t.1 = j
    · calc |(if t.1 = j then t.2.toRat else 0) + coefficientOf terms j|
          ≤ |t.2.toRat| + |coefficientOf terms j| := by
            rw [if_pos htj]
            exact abs_add_le _ _
        _ ≤ q + terms.countP (·.1 = j) * q := add_le_add ht (ih hrest)
        _ = _ := by
            simp only [htj, decide_true, if_true]
            push_cast
            ring
    · simpa [htj] using ih hrest

/-- Without terms a variable has no coefficient. -/
theorem coefficientOf_eq_zero (h : terms.countP (·.1 = j) = 0) : coefficientOf terms j = 0 := by
  apply List.sum_eq_zero
  intro q hq
  obtain ⟨t, ht, rfl⟩ := List.mem_map.mp hq
  have hother : t.1 ≠ j := by simpa using List.countP_eq_zero.mp h t ht
  simp [hother]

/-- A variable with one term has the coefficient of that. -/
theorem coefficientOf_of_mem {t : ℕ × Exact} (hunrepeated : ∀ j, terms.countP (·.1 = j) ≤ 1)
    (ht : t ∈ terms) : coefficientOf terms t.1 = t.2.toRat := by
  induction terms with
  | nil => cases ht
  | cons s terms ih =>
    have hcount (j : ℕ) : terms.countP (·.1 = j) + (if s.1 = j then 1 else 0) ≤ 1 := by
      simpa [List.countP_cons] using hunrepeated j
    have hfirst : terms.countP (·.1 = s.1) = 0 := by
      have hone := hcount s.1
      rw [if_pos rfl] at hone
      omega
    rw [coefficientOf_cons]
    rcases List.mem_cons.mp ht with rfl | hlater
    · rw [if_pos rfl, coefficientOf_eq_zero hfirst, add_zero]
    · have hother : s.1 ≠ t.1 := by
        intro hsame
        have hnone := List.countP_eq_zero.mp hfirst t hlater
        simp [hsame] at hnone
      rw [if_neg hother, zero_add]
      exact ih (fun j => by have hj := hcount j; omega) hlater

end Coefficients

namespace Expression

variable {e : Expression Exact} {q : ℚ}

/-- Without repeated variables the magnitudes as written are those of the variables, but for that of
a variable without a term. -/
theorem isGreatest_unitMagnitudes (hunrepeated : ∀ j, e.occurrences j ≤ 1)
    (h : IsGreatest e.writtenMagnitudes q) : IsGreatest e.unitMagnitudes q := by
  obtain ⟨hmem, hupper⟩ := h
  constructor
  · rcases hmem with hone | hwritten
    · exact .inl hone
    · obtain ⟨t, ht, rfl⟩ := List.mem_map.mp hwritten
      exact .inr ⟨t.1, by rw [coefficientOf_of_mem hunrepeated ht]⟩
  · rintro r (rfl | ⟨j, rfl⟩)
    · exact hupper (.inl rfl)
    · by_cases hj : e.occurrences j = 0
      · rw [coefficientOf_eq_zero hj, abs_zero]
        exact zero_le_one.trans (hupper (.inl rfl))
      · obtain ⟨t, ht, htj⟩ := List.countP_pos_iff.mp (Nat.pos_of_ne_zero hj)
        obtain rfl : t.1 = j := by simpa using htj
        rw [coefficientOf_of_mem hunrepeated ht]
        exact hupper (.inr (List.mem_map_of_mem ht))

theorem abs_coefficientOf_le_occurrences (h : IsGreatest e.writtenMagnitudes q) (j : ℕ) :
    |coefficientOf e.terms.toList j| ≤ e.occurrences j * q :=
  abs_coefficientOf_le fun _ ht => h.2 (.inr (List.mem_map_of_mem ht))

end Expression

section Penalties
variable {m : Model Exact}

theorem Model.automaticSlackPenalty_eq {count : ℕ} (h : m.objective.IsOver count) :
    ∃ q, m.automaticSlackPenalty = number (1000 * q) ∧
      IsGreatest m.objective.writtenMagnitudes q := by
  refine ⟨_, ?_, isGreatest_foldl_max 1 _⟩
  rw [Model.automaticSlackPenalty, ← Array.foldl_toList, Exact.one_eq, Exact.thousand_eq,
    ← Exact.number_mul, ← foldl_larger_abs h.finiteTerms]

/-- The automatic penalty of a well-formed model is a thousand times the largest coefficient as
written, at least a thousand. A variable costs per unit at most as often that coefficient as it
occurs. Without repeated variables it is a thousand times the largest unit cost; then models with
the same unit costs have the same penalty, and so do models whose terms differ in their order. -/
theorem automatic_penalty_follows_terms (hm : m.WellFormed) :
    ∃ q, m.automaticSlackPenalty = number (1000 * q) ∧
      IsGreatest m.objective.writtenMagnitudes q ∧
      (∀ j, |coefficientOf m.objective.terms.toList j| ≤ m.objective.occurrences j * q) ∧
      ((∀ j, m.objective.occurrences j ≤ 1) → IsGreatest m.objective.unitMagnitudes q) ∧
      ∀ m' : Model Exact, m'.WellFormed →
        m'.objective.terms.toList.Perm m.objective.terms.toList ∨
          ((∀ j, m.objective.occurrences j ≤ 1) ∧ (∀ j, m'.objective.occurrences j ≤ 1) ∧
            ∀ j, coefficientOf m'.objective.terms.toList j =
              coefficientOf m.objective.terms.toList j) →
        m'.automaticSlackPenalty = m.automaticSlackPenalty := by
  obtain ⟨q, hq, hgreatest⟩ := Model.automaticSlackPenalty_eq hm.objective
  refine ⟨q, hq, hgreatest, Expression.abs_coefficientOf_le_occurrences hgreatest,
    fun hunrepeated => Expression.isGreatest_unitMagnitudes hunrepeated hgreatest,
    fun m' hm' hsame => ?_⟩
  obtain ⟨q', hq', hgreatest'⟩ := Model.automaticSlackPenalty_eq hm'.objective
  suffices hqs : q' = q by rw [hq, hq', hqs]
  rcases hsame with hperm | ⟨hunrepeated, hunrepeated', hcoefficients⟩
  · have hwritten : m'.objective.writtenMagnitudes = m.objective.writtenMagnitudes := by
      ext r
      simp only [Expression.writtenMagnitudes, (hperm.map _).mem_iff]
    exact (hwritten ▸ hgreatest').unique hgreatest
  · have hunits : m'.objective.unitMagnitudes = m.objective.unitMagnitudes := by
      simp only [Expression.unitMagnitudes, hcoefficients]
    have hunit' := Expression.isGreatest_unitMagnitudes hunrepeated' hgreatest'
    exact (hunits ▸ hunit').unique (Expression.isGreatest_unitMagnitudes hunrepeated hgreatest)

/-- One variable, with a unit cost that is written as given terms. -/
def pricedAs (terms : Array (ℕ × Exact)) : Model Exact where
  vars := #[.continuous "power" (some (number 0)) none]
  constraints := #[⟨"demand", .ofVariable 0, .atLeast, number 3⟩]
  objective := .ofTerms terms
  quadratic := #[]
  expressions := .empty

theorem pricedAs_one_term_penalty :
    (pricedAs #[(0, number 1200)]).automaticSlackPenalty = number 1200000 ∧
      IsGreatest (pricedAs #[(0, number 1200)]).objective.unitMagnitudes 1200 := by
  obtain ⟨q, hq, -, -, hunits, -⟩ := automatic_penalty_follows_terms
    (m := pricedAs #[(0, number 1200)]) (by decide +kernel)
  have hpenalty : (pricedAs #[(0, number 1200)]).automaticSlackPenalty = number 1200000 := by
    decide +kernel
  obtain rfl : q = 1200 := by
    have hqs := hq.symm.trans hpenalty
    rw [Exact.number.injEq] at hqs
    linarith
  refine ⟨hpenalty, hunits fun j => ?_⟩
  exact (List.countP_le_length).trans (by simp [pricedAs, Expression.ofTerms])

/-- The same unit cost in two terms halves the penalty, to less than a thousand times that cost. -/
theorem pricedAs_two_terms_penalty :
    (pricedAs #[(0, number 600), (0, number 600)]).WellFormed ∧
      (pricedAs #[(0, number 1200)]).WellFormed ∧
      (∀ j, coefficientOf (pricedAs #[(0, number 600), (0, number 600)]).objective.terms.toList j =
        coefficientOf (pricedAs #[(0, number 1200)]).objective.terms.toList j) ∧
      coefficientOf (pricedAs #[(0, number 1200)]).objective.terms.toList 0 = 1200 ∧
      (pricedAs #[(0, number 600), (0, number 600)]).automaticSlackPenalty = number 600000 ∧
      (pricedAs #[(0, number 1200)]).automaticSlackPenalty = number 1200000 := by
  refine ⟨by decide +kernel, by decide +kernel, fun j => ?_, ?_, by decide +kernel,
    by decide +kernel⟩
  · rcases eq_or_ne j 0 with rfl | hj
    · norm_num [pricedAs, Expression.ofTerms, coefficientOf]
    · simp [pricedAs, Expression.ofTerms, coefficientOf, hj.symm]
  · simp [pricedAs, Expression.ofTerms, coefficientOf]

end Penalties

end BendersPlanning

import BendersPlanning.Proofs.CheckedAnswers
import BendersPlanning.Proofs.SolutionShapes
import Mathlib.Data.Real.Basic

/-!
# Minima of models without rows

Where neither rows nor bounds hold a variable back, the objective is a sum of one parabola or line per
variable, of which the coefficients are the merged ones. The closed form takes the vertex of every
parabola and zero for every constant line; a line with a slope makes the objective unbounded. Values
are compared with the objective at all real coordinates.
-/

namespace BendersPlanning

open Exact (number)

section Meaning

/-- The sum of terms at real coordinates. -/
def realSum (terms : List (ℕ × Exact)) (x : ℕ → ℝ) : ℝ :=
  (terms.map fun t => (t.2.toRat : ℝ) * x t.1).sum

/-- The value that the closed form gives a variable with a merged cost and a merged weight. -/
def best? {K : Type} [Scalar K] : K × K → Option K := fun (q, w) =>
  if 0.0 < w then some (-q / (2.0 * w)) else if q == 0.0 then some 0.0 else none

namespace Model

/-- The objective at real coordinates. -/
def realObjective (m : Model Exact) (x : ℕ → ℝ) : ℝ :=
  m.objective.constant.toRat + realSum m.objective.terms.toList x +
    realSum m.quadratic.toList fun v => x v * x v

def slope (m : Model Exact) (j : ℕ) : ℚ := coefficientOf m.objective.terms.toList j

def curvature (m : Model Exact) (j : ℕ) : ℚ := coefficientOf m.quadratic.toList j

/-- The value at which a variable costs least, if there is one. -/
def cheapest? (m : Model Exact) (j : ℕ) : Option ℚ :=
  if 0 < m.curvature j then some (-m.slope j / (2 * m.curvature j))
  else if m.slope j = 0 then some 0 else none

end Model

/-- A solution whose point and objective are a minimum over all real points. -/
structure Solution.IsFreeMinimumOf (s : Solution Exact) (m : Model Exact) : Prop extends
    IsFiniteVector m.vars.size s.primal where
  objectiveValue : s.objective = m.objectiveValue s.primal
  finiteObjective : Scalar.isFinite s.objective = true
  attained : m.realObjective (fun j => coordinate s.primal j) = s.objective.toRat
  least : IsLeast (Set.range m.realObjective) (s.objective.toRat : ℝ)
  cheapest : ∀ j < m.vars.size, m.cheapest? j = some (coordinate s.primal j)

end Meaning

section RealSums
variable {terms : List (ℕ × Exact)} {count : ℕ}

theorem cast_termSum (terms : List (ℕ × Exact)) (x : ℕ → ℚ) :
    ((termSum terms x : ℚ) : ℝ) = realSum terms fun j => (x j : ℝ) := by
  induction terms with
  | nil => simp [realSum]
  | cons t terms ih =>
    rw [termSum_cons, Rat.cast_add, ih]
    simp [realSum]

/-- Terms at real coordinates are a sum over the variables as well. -/
theorem realSum_eq (h : ∀ t ∈ terms, t.1 < count) (x : ℕ → ℝ) :
    realSum terms x = ∑ j ∈ Finset.range count, (coefficientOf terms j : ℝ) * x j := by
  induction terms with
  | nil => simp [realSum, coefficientOf]
  | cons t terms ih =>
    obtain ⟨ht, hrest⟩ := List.forall_mem_cons.mp h
    have hfirst : ∑ j ∈ Finset.range count, (((if t.1 = j then t.2.toRat else 0 : ℚ)) : ℝ) * x j =
        (t.2.toRat : ℝ) * x t.1 := by
      rw [Finset.sum_eq_single_of_mem t.1 (Finset.mem_range.mpr ht)]
      · rw [if_pos rfl]
      · intro j _ hj
        rw [if_neg hj.symm, Rat.cast_zero, zero_mul]
    have hsum : realSum (t :: terms) x = (t.2.toRat : ℝ) * x t.1 + realSum terms x := by
      simp [realSum]
    rw [hsum, ih hrest, ← hfirst, ← Finset.sum_add_distrib]
    refine Finset.sum_congr rfl fun j _ => ?_
    rw [coefficientOf_cons, Rat.cast_add, add_mul]

end RealSums

namespace Model

variable {m : Model Exact} {j : ℕ} {b : ℚ}

theorem cast_cost (m : Model Exact) (x : ℕ → ℚ) :
    ((m.cost x : ℚ) : ℝ) = m.realObjective fun j => (x j : ℝ) := by
  rw [cost, Expression.valueAt, Rat.cast_add, Rat.cast_add, cast_termSum, cast_termSum]
  simp only [realObjective, Rat.cast_mul]

section Curves
variable (hm : m.WellFormed)
include hm

/-- The objective is a constant and one curve per variable, of merged coefficients. -/
theorem realObjective_eq (x : ℕ → ℝ) : m.realObjective x = m.objective.constant.toRat +
    ∑ j ∈ Finset.range m.vars.size,
      ((m.slope j : ℝ) * x j + (m.curvature j : ℝ) * (x j * x j)) := by
  have hlinear : realSum m.objective.terms.toList x =
      ∑ j ∈ Finset.range m.vars.size, (m.slope j : ℝ) * x j :=
    realSum_eq (fun t ht => (hm.objective.terms t (Array.mem_toList_iff.mp ht)).1) x
  have hsquares : realSum m.quadratic.toList (fun j => x j * x j) =
      ∑ j ∈ Finset.range m.vars.size, (m.curvature j : ℝ) * (x j * x j) :=
    realSum_eq (fun t ht => (hm.quadratic t (Array.mem_toList_iff.mp ht)).1) _
  rw [realObjective, hlinear, hsquares, Finset.sum_add_distrib, add_assoc]

theorem curvature_nonneg (j : ℕ) : 0 ≤ m.curvature j := by
  apply List.sum_nonneg
  intro q hq
  obtain ⟨t, ht, rfl⟩ := List.mem_map.mp hq
  obtain ⟨-, hfinite, hnonneg⟩ := hm.quadratic t (Array.mem_toList_iff.mp ht)
  obtain ⟨w, hw⟩ := Exact.isFinite_iff.mp hfinite
  rw [hw, Exact.zero_eq, Exact.number_lt, not_lt] at hnonneg
  rw [hw, Exact.toRat_number]
  by_cases htj : t.1 = j
  · simpa [htj] using hnonneg
  · simp [htj]

theorem cheapest?_eq_none_iff : m.cheapest? j = none ↔ m.curvature j = 0 ∧ m.slope j ≠ 0 := by
  have hnonneg := curvature_nonneg hm j
  unfold cheapest?
  split_ifs with hcurved hflat
  · exact iff_of_false nofun fun h => hcurved.ne' h.1
  · exact iff_of_false nofun fun h => h.2 hflat
  · exact iff_of_true rfl ⟨le_antisymm (not_lt.mp hcurved) hnonneg, hflat⟩

/-- No real value of a variable costs less than the one that is chosen. -/
theorem curve_le (h : m.cheapest? j = some b) (x : ℝ) :
    (m.slope j : ℝ) * b + (m.curvature j : ℝ) * (b * b) ≤
      (m.slope j : ℝ) * x + (m.curvature j : ℝ) * (x * x) := by
  unfold cheapest? at h
  split_ifs at h with hcurved hflat
  · obtain rfl := Option.some.inj h
    have hpositive : (0 : ℝ) < m.curvature j := by exact_mod_cast hcurved
    have hvertex : (m.slope j : ℝ) =
        -(2 * m.curvature j) * ((-m.slope j / (2 * m.curvature j) : ℚ) : ℝ) := by
      have htwice : 2 * (m.curvature j : ℝ) ≠ 0 := (mul_pos two_pos hpositive).ne'
      push_cast
      rw [neg_mul, mul_div_cancel₀ _ htwice, neg_neg]
    have hsquare : 0 ≤ (m.curvature j : ℝ) *
        (x - ((-m.slope j / (2 * m.curvature j) : ℚ) : ℝ)) ^ 2 :=
      mul_nonneg hpositive.le (sq_nonneg _)
    rw [hvertex]
    linarith
  · obtain rfl := Option.some.inj h
    have hstraight : m.curvature j = 0 := le_antisymm (not_lt.mp hcurved) (curvature_nonneg hm j)
    simp [hflat, hstraight]

/-- The values that cost least on their own cost least together. -/
theorem isLeast_realObjective {y : ℕ → ℚ} (h : ∀ j < m.vars.size, m.cheapest? j = some (y j)) :
    IsLeast (Set.range m.realObjective) (m.cost y : ℝ) := by
  rw [cast_cost]
  refine ⟨⟨_, rfl⟩, ?_⟩
  rintro _ ⟨x, rfl⟩
  rw [realObjective_eq hm, realObjective_eq hm]
  refine add_le_add_right (Finset.sum_le_sum fun j hj => ?_) _
  exact curve_le hm (h j (Finset.mem_range.mp hj)) (x j)

/-- Along a line with a slope the objective falls below any bound. -/
theorem not_bddBelow_realObjective (hj : j < m.vars.size) (h : m.cheapest? j = none) :
    ¬BddBelow (Set.range m.realObjective) := by
  obtain ⟨hstraight, hsteep⟩ := (cheapest?_eq_none_iff hm).mp h
  rintro ⟨bound, hbound⟩
  have hslope : (m.slope j : ℝ) ≠ 0 := by exact_mod_cast hsteep
  let x : ℕ → ℝ := fun k =>
    if k = j then (bound - m.objective.constant.toRat - 1) / m.slope j else 0
  have hvalue : m.realObjective x = bound - 1 := by
    rw [realObjective_eq hm, Finset.sum_eq_single_of_mem j (Finset.mem_range.mpr hj)]
    · simp only [x, if_true, hstraight, Rat.cast_zero, zero_mul, add_zero]
      rw [mul_div_cancel₀ _ hslope]
      ring
    · intro k _ hk
      simp [x, hk]
  have hle := hbound ⟨x, hvalue⟩
  linarith

end Curves

end Model

section Choices
variable {α β : Type} {f : α → Option β} {xs : List α}

theorem mapM_eq_some_of_forall {g : α → β} (h : ∀ a ∈ xs, f a = some (g a)) :
    xs.mapM f = some (xs.map g) := by
  induction xs with
  | nil => rfl
  | cons a xs ih =>
    obtain ⟨ha, hrest⟩ := List.forall_mem_cons.mp h
    rw [List.mapM_cons, ha, ih hrest]
    rfl

theorem mapM_eq_none_of_mem {a : α} (ha : a ∈ xs) (h : f a = none) : xs.mapM f = none := by
  induction xs with
  | nil => cases ha
  | cons b xs ih =>
    rw [List.mapM_cons]
    rcases List.mem_cons.mp ha with rfl | hlater
    · rw [h]
      rfl
    · cases f b with
      | none => rfl
      | some c =>
        rw [ih hlater]
        rfl

end Choices

namespace Relaxation

variable {r : Relaxation Exact} {conic : ConicSolver Exact} {settings : SolverSettings Exact}

theorem solveWithoutRows_eq {K : Type} [Scalar K] (r : Relaxation K) : r.solveWithoutRows =
    match (r.linearCosts.toList.zip r.squareWeights.toList).mapM best? with
    | some point => r.optimum point.toArray (Array.replicate r.model.constraints.size 0.0) 0
    | none => .without .unbounded 0 := rfl

theorem best?_number (q w : ℚ) : best? (number q, number w) =
    (if 0 < w then some (-q / (2 * w)) else if q = 0 then some 0 else none).map number := by
  simp only [best?, Exact.zero_eq, Exact.two_eq, Exact.number_lt, Exact.number_mul,
    Exact.neg_number, Exact.number_beq, decide_eq_true_eq]
  split_ifs with hcurved hflat
  · have htwice : 2 * w ≠ 0 := (mul_pos two_pos hcurved).ne'
    rw [Exact.number_div _ htwice]
    rfl
  · rfl
  · rfl

/-- Costs and weights side by side are the merged coefficients, variable by variable. -/
theorem zip_costs (hr : r.WellFormed) (hobjective : r.feasibilityOnly = false) :
    r.linearCosts.toList.zip r.squareWeights.toList =
      (List.range r.model.vars.size).map fun j =>
        (number (r.model.slope j), number (r.model.curvature j)) := by
  obtain ⟨hcosts, hslope⟩ := linearCosts_eq hr hobjective
  obtain ⟨hweights, hcurvature⟩ := squareWeights_eq hr hobjective
  refine List.ext_getElem (by simp [hcosts.size, hweights.size]) fun j hj hj' => ?_
  have hlt : j < r.model.vars.size := by simpa using hj'
  have hq := hcosts.getElem_eq (hlt.trans_eq hcosts.size.symm)
  have hw := hweights.getElem_eq (hlt.trans_eq hweights.size.symm)
  simp only [List.getElem_zip, Array.getElem_toList, List.getElem_map, List.getElem_range, hq, hw,
    hslope j hlt, (hcurvature j hlt).1]
  rfl

theorem best?_slope (m : Model Exact) (j : ℕ) :
    best? (number (m.slope j), number (m.curvature j)) = (m.cheapest? j).map number :=
  best?_number _ _

theorem solve_eq_solveWithoutRows (hr : r.WellFormed) (hvars : r.model.vars.isEmpty = false)
    (hrows : r.rows = []) : r.solve conic settings = r.solveWithoutRows := by
  simp [solve, isCrossed_eq_false hr, hvars, hrows]

/-- Without an objective every variable is zero. -/
theorem solveWithoutRows_feasibilityOnly (hobjective : r.feasibilityOnly = true) :
    r.solveWithoutRows.status = .optimal ∧ r.solveWithoutRows.objective = number 0 := by
  have hzero : ∀ entry ∈ r.linearCosts.toList.zip r.squareWeights.toList,
      best? entry = some (number 0) := by
    rintro ⟨q, w⟩ hentry
    obtain ⟨hq, hw⟩ := List.of_mem_zip hentry
    rw [Array.mem_toList_iff] at hq hw
    rw [linearCosts, hobjective] at hq
    rw [squareWeights, hobjective] at hw
    obtain rfl := Array.eq_of_mem_replicate hq
    obtain rfl := Array.eq_of_mem_replicate hw
    rw [Exact.zero_eq, best?_number]
    rfl
  rw [solveWithoutRows_eq, mapM_eq_some_of_forall hzero]
  simp [optimum, objectiveAt, hobjective]

section Objective
variable (hr : r.WellFormed) (hobjective : r.feasibilityOnly = false)
include hr hobjective

/-- Where every variable has a cheapest value, the closed form takes these. -/
theorem solveWithoutRows_of_cheapest {y : ℕ → ℚ}
    (h : ∀ j < r.model.vars.size, r.model.cheapest? j = some (y j)) :
    r.solveWithoutRows = r.optimum ((List.range r.model.vars.size).map fun j => number (y j)).toArray
      (Array.replicate r.model.constraints.size 0.0) 0 := by
  rw [solveWithoutRows_eq, zip_costs hr hobjective, List.mapM_map,
    mapM_eq_some_of_forall (g := fun j => number (y j))]
  intro j hj
  rw [Function.comp_apply, best?_slope, h j (List.mem_range.mp hj)]
  rfl

theorem solveWithoutRows_of_steep {j : ℕ} (hj : j < r.model.vars.size)
    (h : r.model.cheapest? j = none) : r.solveWithoutRows = .without .unbounded 0 := by
  rw [solveWithoutRows_eq, zip_costs hr hobjective, List.mapM_map,
    mapM_eq_none_of_mem (List.mem_range.mpr hj)]
  rw [Function.comp_apply, best?_slope, h]
  rfl

theorem isFreeMinimumOf_optimum {y : ℕ → ℚ} {duals : Array Exact}
    (h : ∀ j < r.model.vars.size, r.model.cheapest? j = some (y j)) :
    (r.optimum ((List.range r.model.vars.size).map fun j => number (y j)).toArray
      duals 0).IsFreeMinimumOf r.model := by
  let point := ((List.range r.model.vars.size).map fun j => number (y j)).toArray
  have hpoint : IsFiniteVector r.model.vars.size point := by
    refine ⟨by simp [point], fun x hx => ?_⟩
    obtain ⟨j, -, rfl⟩ := List.mem_map.mp (List.mem_toArray.mp hx)
    exact Exact.isFinite_number _
  have hcoordinate : ∀ j < r.model.vars.size, coordinate point j = y j := by
    intro j hj
    simp [point, coordinate, Scalar.entry, hj]
  have hcheapest : ∀ j < r.model.vars.size, r.model.cheapest? j = some (coordinate point j) :=
    fun j hj => (hcoordinate j hj).symm ▸ h j hj
  have hobjective : r.objectiveAt point = number (r.model.cost (coordinate point)) := by
    rw [← Model.objectiveValue_eq hr.model hpoint]
    simp [objectiveAt, hobjective]
  exact { hpoint with
    objectiveValue := hobjective.trans (Model.objectiveValue_eq hr.model hpoint).symm
    finiteObjective := Exact.isFinite_iff.mpr ⟨_, hobjective⟩
    attained := by
      rw [← Model.cast_cost]
      exact congrArg (fun value : Exact => (value.toRat : ℝ)) hobjective.symm
    least := by
      have hleast := Model.isLeast_realObjective hr.model hcheapest
      rwa [show r.model.cost (coordinate point) = (r.objectiveAt point).toRat by
        rw [hobjective, Exact.toRat_number]] at hleast
    cheapest := hcheapest }

/-- A cheapest value for every variable makes an optimum. -/
theorem isFreeMinimumOf_of_cheapest (h : ∀ j < r.model.vars.size, r.model.cheapest? j ≠ none) :
    r.solveWithoutRows.status = .optimal ∧ r.solveWithoutRows.IsFreeMinimumOf r.model := by
  have hchosen : ∀ j < r.model.vars.size,
      r.model.cheapest? j = some ((r.model.cheapest? j).getD 0) := by
    intro j hj
    obtain ⟨b, hb⟩ := Option.ne_none_iff_exists'.mp (h j hj)
    rw [hb, Option.getD_some]
  rw [solveWithoutRows_of_cheapest hr hobjective hchosen]
  exact ⟨rfl, isFreeMinimumOf_optimum hr hobjective hchosen⟩

/-- A variable without a cheapest value makes the objective unbounded. -/
theorem unbounded_of_steep (h : ∃ j < r.model.vars.size, r.model.cheapest? j = none) :
    r.solveWithoutRows.status = .unbounded ∧ ¬BddBelow (Set.range r.model.realObjective) := by
  obtain ⟨j, hj, hnone⟩ := h
  rw [solveWithoutRows_of_steep hr hobjective hj hnone]
  exact ⟨rfl, Model.not_bddBelow_realObjective hr.model hj hnone⟩

end Objective

/-- The solution of a relaxation with variables, but without active constraints and finite bounds.
It is the solution of the model for a continuous one. Without an objective it is optimal with the
objective zero. Otherwise it is a minimum over all real points exactly where there is one, and
unbounded exactly where the objective is, which is where a variable has a merged cost but no merged
weight. -/
theorem solve_minimises_without_rows (hr : r.WellFormed) (hvars : 0 < r.model.vars.size)
    (hactive : ∀ i < r.model.constraints.size, r.active[i]?.getD false = false)
    (hbounds : ∀ j < r.model.vars.size, Scalar.isFinite (Scalar.entry r.lower j) = false ∧
      Scalar.isFinite (Scalar.entry r.upper j) = false)
    (conic : ConicSolver Exact) (settings : SolverSettings Exact) :
    let s := r.solve conic settings
    (∀ m : Model Exact, m.hasInteger = false → r = .ofModel m → m.solve conic settings = s) ∧
      (r.feasibilityOnly = true → s.status = .optimal ∧ s.objective = number 0) ∧
      (r.feasibilityOnly = false →
        (s.status = .optimal ∨ s.status = .unbounded) ∧
        (s.status = .optimal ↔ ∃ least, IsLeast (Set.range r.model.realObjective) least) ∧
        (s.status = .optimal → s.IsFreeMinimumOf r.model) ∧
        (s.status = .unbounded ↔ ¬BddBelow (Set.range r.model.realObjective)) ∧
        (s.status = .unbounded ↔
          ∃ j < r.model.vars.size, r.model.curvature j = 0 ∧ r.model.slope j ≠ 0)) := by
  intro s
  have hs : s = r.solveWithoutRows := solve_eq_solveWithoutRows hr
    (by simpa using Array.size_pos_iff.mp hvars) ((rows_eq_nil_iff hr).mpr ⟨hactive, hbounds⟩)
  refine ⟨?_, fun hobjective => ?_, fun hobjective => ?_⟩
  · rintro m hcontinuous rfl
    simp [Model.solve, hcontinuous, s]
  · rw [hs]
    exact solveWithoutRows_feasibilityOnly hobjective
  · have hsteep : (∃ j < r.model.vars.size, r.model.curvature j = 0 ∧ r.model.slope j ≠ 0) ↔
        ∃ j < r.model.vars.size, r.model.cheapest? j = none := by
      simp only [Model.cheapest?_eq_none_iff hr.model]
    rw [hs, hsteep]
    by_cases hall : ∃ j < r.model.vars.size, r.model.cheapest? j = none
    · obtain ⟨hstatus, hfalls⟩ := unbounded_of_steep hr hobjective hall
      rw [hstatus]
      refine ⟨.inr rfl, iff_of_false nofun ?_, nofun, iff_of_true rfl hfalls, iff_of_true rfl hall⟩
      exact fun ⟨least, hleast⟩ => hfalls ⟨least, hleast.2⟩
    · obtain ⟨hstatus, hminimum⟩ := isFreeMinimumOf_of_cheapest hr hobjective (by simpa using hall)
      have hbounded : BddBelow (Set.range r.model.realObjective) := ⟨_, hminimum.least.2⟩
      rw [hstatus]
      exact ⟨.inl rfl, iff_of_true rfl ⟨_, hminimum.least⟩, fun _ => hminimum,
        iff_of_false nofun (not_not.mpr hbounded), iff_of_false nofun hall⟩

end Relaxation

/-- Three free variables: a cost and a weight that are each given in two parts, a cost that cancels,
and a weight of zero beside one that is not. -/
def splitCosts : Model Exact where
  vars := #[.continuous "load" none none, .continuous "exchange" none none,
    .continuous "drift" none none]
  constraints := #[]
  objective := ⟨#[(0, number 3), (1, number 5), (0, number 1), (1, number (-5))], number 7⟩
  quadratic := #[(0, number 1), (2, number 0), (0, number 1), (2, number 4)]
  expressions := .empty

theorem splitCosts_minimum :
    let s := splitCosts.solve (fun _ _ => (.failed, 0)) .default
    s.status = .optimal ∧ s.primal = #[number (-1), number 0, number 0] ∧ s.objective = number 5 ∧
      s.IsFreeMinimumOf splitCosts := by
  intro s
  have hm : splitCosts.WellFormed := by decide +kernel
  obtain ⟨hsolve, -, hminimises⟩ := Relaxation.solve_minimises_without_rows hm.relaxation
    (by decide) (by decide) (by decide +kernel) (fun _ _ => (.failed, 0)) .default
  have hs : s = _ := hsolve splitCosts (by decide +kernel) rfl
  obtain ⟨-, -, hminimum, -, -⟩ := hminimises rfl
  have hstatus : s.status = .optimal := by decide +kernel
  refine ⟨hstatus, by decide +kernel, by decide +kernel, ?_⟩
  rw [hs] at hstatus ⊢
  exact hminimum hstatus

end BendersPlanning

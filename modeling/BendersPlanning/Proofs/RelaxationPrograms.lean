import BendersPlanning.Proofs.StoredPrograms
import Mathlib.Algebra.Order.BigOperators.Group.List

/-!
# The conic program of a relaxation

Which rows there are, and what the matrices of the program hold: the entries of `A` are the merged
coefficients of the rows, those of `P` twice the weights of the squares, and `q` the merged costs.
So the products with `A` are activities, and the objective splits into the constant, `q` and the
weights.
-/

namespace BendersPlanning

open Exact (number)

namespace Relaxation

variable {r : Relaxation Exact} {row : ConicRow Exact} {δ x : ℕ → ℚ}

def constraintRows (r : Relaxation Exact) : List (ConicRow Exact) :=
  (r.model.constraints.toList.zipIdx.filter fun (_, i) => r.active[i]?.getD false).map
    fun (c, i) => .ofConstraint i c

def boundRows (r : Relaxation Exact) : List (ConicRow Exact) :=
  r.box.zipIdx.flatMap fun ((l, u), j) => ConicRow.ofBounds j l u

theorem rows_eq (r : Relaxation Exact) : r.rows = r.constraintRows ++ r.boundRows := rfl

theorem mem_constraintRows (h : row ∈ r.constraintRows) :
    ∃ (i : ℕ) (c : Constraint Exact), r.model.constraints[i]? = some c ∧
      r.active[i]?.getD false = true ∧ row = .ofConstraint i c := by
  obtain ⟨⟨c, i⟩, hmem, rfl⟩ := List.mem_map.mp h
  obtain ⟨hzip, hactive⟩ := List.mem_filter.mp hmem
  refine ⟨i, c, ?_, hactive, rfl⟩
  rw [← Array.getElem?_toList]
  exact List.mem_zipIdx_iff_getElem?.mp hzip

theorem mem_boundRows (hr : r.WellFormed) (h : row ∈ r.boundRows) :
    ∃ j < r.model.vars.size, row ∈
      ConicRow.ofBounds j (Scalar.entry r.lower j) (Scalar.entry r.upper j) := by
  obtain ⟨⟨⟨l, u⟩, j⟩, hmem, hrow⟩ := List.mem_flatMap.mp h
  have hzip := List.mem_zipIdx_iff_getElem?.mp hmem
  rw [box, List.getElem?_zip_eq_some] at hzip
  obtain ⟨hl, hu⟩ := hzip
  rw [Array.getElem?_toList] at hl hu
  refine ⟨j, ?_, by simpa [Scalar.entry, hl, hu] using hrow⟩
  exact hr.lowerSize ▸ (Array.getElem?_eq_some_iff.mp hl).choose

theorem isOver_of_mem_rows (hr : r.WellFormed) (h : row ∈ r.rows) :
    row.IsOver r.model.vars.size := by
  rcases List.mem_append.mp h with h | h
  · obtain ⟨i, c, hc, -, rfl⟩ := mem_constraintRows h
    have hrow := hr.model.rows c (Array.mem_of_getElem? hc)
    exact ConicRow.isOver_ofConstraint hrow.1 hrow.2
  · obtain ⟨j, hj, hrow⟩ := mem_boundRows hr h
    exact ConicRow.isOver_ofBounds hj hrow

theorem sign_of_mem_rows (h : row ∈ r.rows) : ∃ s : ℚ, row.sign = number s ∧ |s| = 1 := by
  rcases List.mem_append.mp h with h | h
  · obtain ⟨i, c, -, -, rfl⟩ := mem_constraintRows h
    refine ⟨_, ConicRow.sign_ofConstraint i c, ?_⟩
    split_ifs <;> norm_num
  · obtain ⟨⟨⟨l, u⟩, j⟩, -, hmem⟩ := List.mem_flatMap.mp h
    obtain ⟨q, -, -, rfl⟩ | ⟨q, -, rfl⟩ | ⟨q, -, rfl⟩ := ConicRow.eq_of_mem_ofBounds hmem <;>
      exact ⟨1, rfl, abs_one⟩

theorem nodup_constraints (r : Relaxation Exact) : (r.rows.filterMap (·.constraint)).Nodup := by
  have hbounds : r.boundRows.filterMap (·.constraint) = [] := by
    refine List.filterMap_eq_nil_iff.mpr fun row hrow => ?_
    obtain ⟨⟨⟨l, u⟩, j⟩, -, hmem⟩ := List.mem_flatMap.mp hrow
    exact ConicRow.constraint_of_mem_ofBounds hmem
  have hconstraints : r.constraintRows.filterMap (·.constraint) =
      (r.model.constraints.toList.zipIdx.filter fun p => r.active[p.2]?.getD false).map (·.2) := by
    have hsome : (fun row : ConicRow Exact => row.constraint) ∘
        (fun (c, i) => ConicRow.ofConstraint i c) =
          some ∘ fun p : Constraint Exact × ℕ => p.2 := rfl
    rw [constraintRows, List.filterMap_map, hsome, List.filterMap_eq_map]
  rw [rows_eq, List.filterMap_append, hbounds, List.append_nil, hconstraints]
  have hsub := (List.filter_sublist (p := fun p : Constraint Exact × ℕ =>
    r.active[p.2]?.getD false) (l := r.model.constraints.toList.zipIdx)).map (·.2)
  refine hsub.nodup ?_
  rw [List.zipIdx_map_snd]
  exact List.nodup_range'

/-- A row for every active constraint, none for the others. -/
theorem constraint_lt_and_active (h : row ∈ r.rows) {c : ℕ} (hc : row.constraint = some c) :
    c < r.model.constraints.size ∧ r.active[c]?.getD false = true := by
  rcases List.mem_append.mp h with h | h
  · obtain ⟨i, constraint, hi, hactive, rfl⟩ := mem_constraintRows h
    obtain rfl : i = c := Option.some.inj hc
    exact ⟨(Array.getElem?_eq_some_iff.mp hi).choose, hactive⟩
  · obtain ⟨⟨⟨l, u⟩, j⟩, -, hmem⟩ := List.mem_flatMap.mp h
    rw [ConicRow.constraint_of_mem_ofBounds hmem] at hc
    cases hc

/-- A point of the relaxation under other right-hand sides satisfies all rows, moved by what the
right-hand sides gain. -/
theorem holdsAt_of_feasible (hr : r.WellFormed) {rhs point : Array Exact}
    (hrhs : IsFiniteVector r.model.constraints.size rhs)
    (hpoint : (r.withRhs rhs).Feasible point) (h : row ∈ r.rows) :
    row.HoldsAt (fun c => coordinate rhs c - coordinate r.model.rightHandSides c)
      (coordinate point) := by
  have hsize : IsFiniteVector r.model.vars.size point := hpoint.toIsFiniteVector
  rcases List.mem_append.mp h with h | h
  · obtain ⟨i, c, hc, hactive, rfl⟩ := mem_constraintRows h
    obtain ⟨hi, hget⟩ := Array.getElem?_eq_some_iff.mp hc
    obtain ⟨hover, hfinite⟩ := hr.model.rows c (Array.mem_of_getElem? hc)
    have hnew : (r.withRhs rhs).model.constraints[i]? =
        some { c with rhs := Scalar.entry rhs i } := by
      simp [withRhs, Model.withRhs, hc]
    have hholds := hpoint.rows i _ hnew hactive
    have hentry : Scalar.isFinite (Scalar.entry rhs i) = true := by
      rw [hrhs.entry_eq hi]
      exact Exact.isFinite_number _
    replace hholds := (Constraint.holds_iff (c := { c with rhs := Scalar.entry rhs i })
      hover hentry hsize).mp hholds
    rw [ConicRow.holdsAt_ofConstraint hover hfinite]
    have hold : coordinate r.model.rightHandSides i = c.rhs.toRat := by
      simp [coordinate, Scalar.entry, Model.rightHandSides, hc]
    rw [hold, add_sub_cancel]
    exact hholds
  · obtain ⟨j, hj, hrow⟩ := mem_boundRows hr h
    obtain ⟨hl, hu⟩ := hpoint.box j hj
    rw [hsize.entry_eq hj] at hl hu
    exact ConicRow.holdsAt_of_mem_ofBounds hrow hl hu

end Relaxation

namespace SparseMatrix

variable {a : SparseMatrix Exact} {terms : List (ℕ × Exact)} {count i j : ℕ}

theorem sum_filter_eq (h : AreFiniteTerms terms) (i : ℕ) :
    Scalar.sum ((terms.filter (·.1 = i)).map (·.2)) = number (coefficientOf terms i) := by
  have hfinite : (terms.filter (·.1 = i)).map (·.2) =
      ((terms.filter (·.1 = i)).map fun t => t.2.toRat).map number := by
    rw [List.map_map]
    refine List.map_congr_left fun t ht => ?_
    exact (Exact.number_toRat (h t (List.mem_filter.mp ht).1)).symm
  have hsum := List.sum_map_ite (·.1 = i) (fun t : ℕ × Exact => t.2.toRat) (fun _ => 0) terms
  rw [hfinite, Exact.sum_number, coefficientOf, termSum]
  simp [hsum]

theorem get_eq (h : AreFiniteTerms (a.column j)) (i : ℕ) :
    a.get i j = number (coefficientOf (a.column j) i) :=
  sum_filter_eq h i

theorem vecMul_eq (hrows : a.rowCount = count) (hfinite : AreFiniteTerms (a.column j))
    (hlt : ∀ t ∈ a.column j, t.1 < count) {z : Array Exact} (hz : IsFiniteVector count z) :
    a.vecMul z j = number (termSum (a.column j) (coordinate z)) := by
  have hentry : ∀ i ∈ List.range a.rowCount, a.get i j * Scalar.entry z i =
      number (coefficientOf (a.column j) i * coordinate z i) := by
    intro i hi
    rw [get_eq hfinite, hz.entry_eq ((List.mem_range.mp hi).trans_eq hrows), Exact.number_mul]
  rw [vecMul, List.map_congr_left hentry, Exact.sum_map_number, sum_map_range, hrows,
    sum_coefficientOf _ hlt]

theorem mulVec_eq (hcolumns : a.columnCount = count)
    (hfinite : ∀ j < count, AreFiniteTerms (a.column j)) {x : Array Exact}
    (hx : IsFiniteVector count x) (i : ℕ) :
    a.mulVec x i = number (∑ j ∈ Finset.range count,
      coefficientOf (a.column j) i * coordinate x j) := by
  have hentry : ∀ j ∈ List.range a.columnCount, a.get i j * Scalar.entry x j =
      number (coefficientOf (a.column j) i * coordinate x j) := by
    intro j hj
    have hlt : j < count := (List.mem_range.mp hj).trans_eq hcolumns
    rw [get_eq (hfinite j hlt), hx.entry_eq hlt, Exact.number_mul]
  rw [mulVec, List.map_congr_left hentry, Exact.sum_map_number, sum_map_range, hcolumns]

end SparseMatrix

theorem dot_eq {count : ℕ} {x y : Array Exact} (hx : IsFiniteVector count x)
    (hy : IsFiniteVector count y) :
    dot count x y = number (∑ i ∈ Finset.range count, coordinate x i * coordinate y i) := by
  have hentry : ∀ i ∈ List.range count, Scalar.entry x i * Scalar.entry y i =
      number (coordinate x i * coordinate y i) := by
    intro i hi
    rw [hx.entry_eq (List.mem_range.mp hi), hy.entry_eq (List.mem_range.mp hi), Exact.number_mul]
  rw [dot, List.map_congr_left hentry, Exact.sum_map_number, sum_map_range]

namespace Relaxation

variable {r : Relaxation Exact} {row : ConicRow Exact} {δ x : ℕ → ℚ} {j : ℕ}

/-- The sum of a quantity of the rows, each times its multiplier. -/
def combine (r : Relaxation Exact) (z : ℕ → ℚ) (quantity : ConicRow Exact → ℚ) : ℚ :=
  (r.rows.zipIdx.map fun (row, i) => z i * quantity row).sum

theorem combine_add (z : ℕ → ℚ) (f g : ConicRow Exact → ℚ) :
    r.combine z (fun row => f row + g row) = r.combine z f + r.combine z g := by
  simp only [combine, mul_add, List.sum_map_add]

theorem combine_eq_sum (z : ℕ → ℚ) (f : ConicRow Exact → ℚ) (value : ℕ → ℚ)
    (h : ∀ (i : ℕ) (row : ConicRow Exact), r.rows[i]? = some row → value i = f row) :
    r.combine z f = ∑ i ∈ Finset.range r.rows.length, z i * value i := by
  have hterms : (r.rows.zipIdx.map fun (row, i) => z i * f row) =
      (r.rows.zipIdx.map (·.2)).map fun i => z i * value i := by
    rw [List.map_map]
    refine List.map_congr_left fun ⟨row, i⟩ hrow => ?_
    simp [h i row (List.mem_zipIdx_iff_getElem?.mp hrow)]
  rw [combine, hterms, List.zipIdx_map_snd, ← List.range_eq_range', sum_map_range]

/-- Adding numbers to entries of a vector one after the other adds up the terms on each entry. -/
theorem foldl_modify_eq {count : ℕ} {terms : List (ℕ × Exact)} (hterms : AreFiniteTerms terms)
    {q : Array Exact} (hq : IsFiniteVector count q) :
    let added := terms.foldl (fun q t => q.modify t.1 (· + t.2)) q
    IsFiniteVector count added ∧
      ∀ j < count, coordinate added j = coordinate q j + coefficientOf terms j := by
  intro added
  have hsize : added.size = count :=
    (size_foldl (fun out t => Array.size_modify) terms q).trans hq.size
  have hentry : ∀ j < count,
      Scalar.entry added j = number (coordinate q j + coefficientOf terms j) := by
    intro j hj
    have hlt : j < q.size := hj.trans_eq hq.size.symm
    rw [Scalar.entry, getElem?_foldl_modify, Array.getElem?_eq_getElem hlt, hq.getElem_eq hlt,
      Option.map_some, Option.getD_some, Exact.foldl_add, SparseMatrix.sum_filter_eq hterms,
      Exact.number_add]
  refine ⟨isFiniteVector_of_entries hsize fun j hj => ?_, fun j hj => ?_⟩
  · rw [hentry j hj]
    exact Exact.isFinite_number _
  · rw [coordinate, hentry j hj, Exact.toRat_number]

theorem isFiniteVector_replicate (count : ℕ) :
    IsFiniteVector count (Array.replicate count (number 0)) :=
  ⟨by simp, fun x hx => by simp [(Array.mem_replicate.mp hx).2]⟩

theorem coordinate_replicate (count j : ℕ) :
    coordinate (Array.replicate count (number 0)) j = 0 := by
  unfold coordinate Scalar.entry
  rw [Array.getElem?_replicate]
  split_ifs <;> rfl

/-- The linear costs are the merged coefficients of the objective. -/
theorem linearCosts_eq (hr : r.WellFormed) (hobjective : r.feasibilityOnly = false) :
    IsFiniteVector r.model.vars.size r.linearCosts ∧ ∀ j < r.model.vars.size,
      coordinate r.linearCosts j = coefficientOf r.model.objective.terms.toList j := by
  have hmerged := Expression.termSum_coefficients hr.model.objective
  obtain ⟨hfinite, hentry⟩ := foldl_modify_eq (hmerged fun _ => 0).1
    (isFiniteVector_replicate r.model.vars.size)
  rw [linearCosts, hobjective, Exact.zero_eq]
  refine ⟨hfinite, fun j hj => (hentry j hj).trans ?_⟩
  rw [coordinate_replicate, zero_add, coefficientOf, (hmerged _).2, coefficientOf]

/-- The weights of the squares are the merged weights of the objective, none of them negative. -/
theorem squareWeights_eq (hr : r.WellFormed) (hobjective : r.feasibilityOnly = false) :
    IsFiniteVector r.model.vars.size r.squareWeights ∧ ∀ j < r.model.vars.size,
      coordinate r.squareWeights j = coefficientOf r.model.quadratic.toList j ∧
        0 ≤ coordinate r.squareWeights j := by
  have hweights : ∀ t ∈ r.model.quadratic.toList, Scalar.isFinite t.2 = true ∧ 0 ≤ t.2.toRat := by
    intro t ht
    obtain ⟨-, hfinite, hnonneg⟩ := hr.model.quadratic t (Array.mem_toList_iff.mp ht)
    obtain ⟨q, hq⟩ := Exact.isFinite_iff.mp hfinite
    rw [hq, Exact.zero_eq, Exact.number_lt] at hnonneg
    exact ⟨hfinite, by simpa [hq] using hnonneg⟩
  obtain ⟨hfinite, hentry⟩ := foldl_modify_eq (fun t ht => (hweights t ht).1)
    (isFiniteVector_replicate r.model.vars.size)
  rw [squareWeights, hobjective, Exact.zero_eq]
  simp only [Bool.false_eq_true, if_false, ← Array.foldl_toList]
  refine ⟨hfinite, fun j hj => ?_⟩
  have hj' := hentry j hj
  rw [coordinate_replicate, zero_add] at hj'
  refine ⟨hj', hj' ▸ List.sum_nonneg fun y hy => ?_⟩
  obtain ⟨t, ht, rfl⟩ := List.mem_map.mp hy
  have hone : (0 : ℚ) ≤ if t.1 = j then 1 else 0 := by split_ifs <;> norm_num
  exact mul_nonneg (hweights t ht).2 hone

theorem cost_eq (hr : r.WellFormed) (hobjective : r.feasibilityOnly = false) (x : ℕ → ℚ) :
    r.model.cost x = r.model.objective.constant.toRat +
      ∑ j ∈ Finset.range r.model.vars.size,
        (coordinate r.linearCosts j * x j + coordinate r.squareWeights j * (x j * x j)) := by
  have hlinear := sum_coefficientOf r.model.objective.terms.toList (fun t ht =>
    (hr.model.objective.terms t (Array.mem_toList_iff.mp ht)).1) x
  have hsquares := sum_coefficientOf r.model.quadratic.toList (fun t ht =>
    (hr.model.quadratic t (Array.mem_toList_iff.mp ht)).1) fun j => x j * x j
  rw [Model.cost, Expression.valueAt, ← hlinear, ← hsquares, Finset.sum_add_distrib, add_assoc]
  congr 2
  · refine Finset.sum_congr rfl fun j hj => ?_
    rw [(linearCosts_eq hr hobjective).2 j (Finset.mem_range.mp hj)]
  · refine Finset.sum_congr rfl fun j hj => ?_
    rw [((squareWeights_eq hr hobjective).2 j (Finset.mem_range.mp hj)).1]

theorem of_mem_columnOf (hr : r.WellFormed) {t : ℕ × Exact} (ht : t ∈ r.columnOf j) :
    t.1 < r.rows.length ∧ Scalar.isFinite t.2 = true := by
  obtain ⟨row, hget, hmem⟩ := mem_columnOf.mp ht
  exact ⟨(List.getElem?_eq_some_iff.mp hget).choose,
    ((isOver_of_mem_rows hr (List.mem_of_getElem? hget)).terms _ hmem).2⟩

theorem termSum_columnOf (r : Relaxation Exact) (j : ℕ) (z : ℕ → ℚ) :
    termSum (r.columnOf j) z = r.combine z fun row => coefficientOf row.coefficients j := by
  have hrow : ∀ (terms : List (ℕ × Exact)) (i : ℕ),
      termSum (terms.filterMap fun (v, c) => if v = j then some (i, c) else none) z =
        z i * coefficientOf terms j := by
    intro terms i
    induction terms with
    | nil => simp [coefficientOf]
    | cons t terms ih =>
      rw [coefficientOf, termSum_cons, ← coefficientOf, mul_add, ← ih]
      by_cases h : t.1 = j
      · simp [h, mul_comm]
      · simp [h]
  unfold columnOf combine
  induction r.rows.zipIdx with
  | nil => rfl
  | cons p pairs ih =>
    rw [List.flatMap_cons, termSum_append, hrow, ih, List.map_cons, List.sum_cons]

theorem mulVec_program (hr : r.WellFormed) {point : Array Exact}
    (hpoint : IsFiniteVector r.model.vars.size point) {i : ℕ} (h : r.rows[i]? = some row) :
    r.program.A.mulVec point i = number (row.activity (coordinate point)) := by
  have hfinite : ∀ j < r.model.vars.size, AreFiniteTerms (r.program.A.column j) :=
    fun j hj t ht => (of_mem_columnOf hr (column_program hj ▸ ht)).2
  have hcolumns : r.program.A.columnCount = r.model.vars.size := by
    simp [program, SparseMatrix.ofColumns]
  have hcoefficient : ∀ j ∈ Finset.range r.model.vars.size,
      coefficientOf (r.program.A.column j) i * coordinate point j =
        coefficientOf row.coefficients j * coordinate point j := by
    intro j hj
    have hsum := combine_eq_sum (r := r) (fun v => if v = i then 1 else 0)
      (fun row => coefficientOf row.coefficients j)
      (fun i => (r.rows[i]?.map fun row => coefficientOf row.coefficients j).getD 0)
      fun i row hi => by simp [hi]
    have hi : i < r.rows.length := (List.getElem?_eq_some_iff.mp h).choose
    rw [column_program (Finset.mem_range.mp hj), coefficientOf, termSum_columnOf, hsum]
    simp only [ite_mul, one_mul, zero_mul, Finset.sum_ite_eq', Finset.mem_range, hi, if_true, h,
      Option.map_some, Option.getD_some]
  have hlt : ∀ t ∈ row.coefficients, t.1 < r.model.vars.size :=
    fun t ht => ((isOver_of_mem_rows hr (List.mem_of_getElem? h)).terms t ht).1
  rw [SparseMatrix.mulVec_eq hcolumns hfinite hpoint, Finset.sum_congr rfl hcoefficient,
    sum_coefficientOf _ hlt, ConicRow.activity]

/-- A column of `Aᵀ z` combines the coefficients of a variable. -/
theorem vecMul_program (hr : r.WellFormed) {z : Array Exact}
    (hz : IsFiniteVector r.rows.length z) (hj : j < r.model.vars.size) :
    r.program.A.vecMul z j =
      number (r.combine (coordinate z) fun row => coefficientOf row.coefficients j) := by
  have hcolumn := column_program hj
  have hrows : r.program.A.rowCount = r.rows.length := rfl
  rw [SparseMatrix.vecMul_eq hrows (fun t ht => (of_mem_columnOf hr (hcolumn ▸ ht)).2)
    (fun t ht => (of_mem_columnOf hr (hcolumn ▸ ht)).1) hz, hcolumn, termSum_columnOf]

theorem column_squares (hfinite : IsFiniteVector r.model.vars.size r.squareWeights)
    (hj : j < r.model.vars.size) : r.program.P.column j =
      if 0 < coordinate r.squareWeights j then
        [(j, number (2 * coordinate r.squareWeights j))] else [] := by
  have hsize : j < r.squareWeights.size := hj.trans_eq hfinite.size.symm
  simp [column_quadratic hsize, hfinite.getElem_eq hsize]

/-- The quadratic form has twice the weight of a square on its diagonal. -/
theorem mulVec_quadratic (hr : r.WellFormed) (hobjective : r.feasibilityOnly = false)
    {point : Array Exact} (hpoint : IsFiniteVector r.model.vars.size point)
    (hj : j < r.model.vars.size) :
    r.program.P.mulVec point j =
      number (2 * coordinate r.squareWeights j * coordinate point j) := by
  obtain ⟨hfinite, hweights⟩ := squareWeights_eq hr hobjective
  have hcolumns : r.program.P.columnCount = r.model.vars.size := by
    simp [program, SparseMatrix.ofColumns, hfinite.size]
  have hterms : ∀ k < r.model.vars.size, AreFiniteTerms (r.program.P.column k) := by
    intro k hk t ht
    rw [column_squares hfinite hk] at ht
    split_ifs at ht
    · rw [List.mem_singleton.mp ht]
      exact Exact.isFinite_number _
    · cases ht
  have hcoefficient : ∀ k ∈ Finset.range r.model.vars.size,
      coefficientOf (r.program.P.column k) j * coordinate point k =
        if k = j then 2 * coordinate r.squareWeights j * coordinate point j else 0 := by
    intro k hk
    rw [column_squares hfinite (Finset.mem_range.mp hk)]
    by_cases hpositive : 0 < coordinate r.squareWeights k
    · by_cases hkj : k = j
      · subst hkj
        simp [hpositive, coefficientOf]
      · simp [hpositive, coefficientOf, hkj]
    · have hzero : coordinate r.squareWeights k = 0 :=
        le_antisymm (not_lt.mp hpositive) (hweights k (Finset.mem_range.mp hk)).2
      by_cases hkj : k = j
      · subst hkj
        simp [coefficientOf, hzero]
      · simp [coefficientOf, hzero, hkj]
  rw [SparseMatrix.mulVec_eq hcolumns hterms hpoint, Finset.sum_congr rfl hcoefficient]
  simp [hj]

theorem isFiniteVector_b (hr : r.WellFormed) : IsFiniteVector r.rows.length r.program.b := by
  refine ⟨size_b r, fun y hy => ?_⟩
  rw [b_program, List.mem_toArray] at hy
  obtain ⟨row, hrow, rfl⟩ := List.mem_map.mp hy
  exact (isOver_of_mem_rows hr hrow).b

theorem coordinate_b {i : ℕ} (h : r.rows[i]? = some row) :
    coordinate r.program.b i = row.b.toRat := by
  simp [coordinate, Scalar.entry, b_program, h]

end Relaxation

end BendersPlanning

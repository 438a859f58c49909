import BendersPlanning.Proofs.RelaxationRows

/-!
# What the conic program of a relaxation stores

The rows of a relaxation come from sources, active constraints first and then the bounds of the
variables (`Relaxation.rowSources`). Of a source one can tell without its row which variables it has
coefficients for and whether it is an equation. The columns of `A` hold the entries of the rows one
row after the other, those of `P` hold the summed weights of the squares twice. All of this is so in
any arithmetic.
-/

namespace BendersPlanning

open Scalar (entry isFinite)

section Meaning
variable {K : Type} [Scalar K]

/-- The summed weights of the squares of a variable. -/
def Model.squareWeight (m : Model K) (j : ℕ) : K :=
  Scalar.sum ((m.quadratic.toList.filter (·.1 = j)).map (·.2))

/-- What a row of a program stands for: a constraint, or a bound of a variable, or both of its
bounds where they agree. -/
inductive RowSource where
  | constraint (index : ℕ)
  | fixed (variableId : ℕ)
  | lower (variableId : ℕ)
  | upper (variableId : ℕ)
  deriving DecidableEq, Repr

namespace Relaxation

/-- The sources that the bounds of a variable are. -/
def boundSources (r : Relaxation K) (j : ℕ) : List RowSource :=
  if isFinite (entry r.lower j) && entry r.lower j == entry r.upper j then [.fixed j]
  else
    (if isFinite (entry r.lower j) then [.lower j] else []) ++
    (if isFinite (entry r.upper j) then [.upper j] else [])

/-- The sources of the rows in their order: active constraints, then bounds by variable. -/
def rowSources (r : Relaxation K) : List RowSource :=
  ((List.range r.model.constraints.size).filter fun i => r.active[i]?.getD false).map .constraint ++
    (List.range r.model.vars.size).flatMap r.boundSources

/-- Whether a source is an equation. -/
def isEquation (r : Relaxation K) : RowSource → Bool
  | .constraint i => r.model.constraints[i]?.any (·.sense = .equal)
  | .fixed _ => true
  | .lower _ | .upper _ => false

/-- The variables that a source has a coefficient for which is not zero. -/
def support (r : Relaxation K) : RowSource → List ℕ
  | .constraint i => (r.model.constraints[i]?.elim [] fun c =>
      c.expression.coefficients.entries.filter fun t => !(t.2 == 0.0)).map (·.1)
  | .fixed j | .lower j | .upper j => [j]

def row? (r : Relaxation K) : RowSource → Option (ConicRow K)
  | .constraint i => r.model.constraints[i]?.map (.ofConstraint i)
  | .fixed j => some ⟨none, 1.0, [(j, 1.0)], entry r.lower j, true⟩
  | .lower j => some ⟨none, 1.0, [(j, -1.0)], -entry r.lower j, false⟩
  | .upper j => some ⟨none, 1.0, [(j, 1.0)], entry r.upper j, false⟩

/-- The entries of a column, row by row. -/
def columnOf (r : Relaxation K) (j : ℕ) : List (ℕ × K) :=
  r.rows.zipIdx.flatMap fun (row, i) =>
    row.coefficients.filterMap fun (v, c) => if v = j then some (i, c) else none

/-- The columns of `P`. -/
def squareColumns (r : Relaxation K) : List (List (ℕ × K)) :=
  r.squareWeights.toList.zipIdx.map fun (w, j) => if 0.0 < w then [(j, 2.0 * w)] else []

end Relaxation

end Meaning

variable {K : Type}

theorem size_foldl {α β : Type} {f : Array β → α → Array β} (hf : ∀ out x, (f out x).size = out.size)
    (xs : List α) (start : Array β) : (xs.foldl f start).size = start.size := by
  induction xs generalizing start with
  | nil => rfl
  | cons x xs ih => rw [List.foldl_cons, ih, hf]

/-- Adding terms to their places adds to each place what belongs there. -/
theorem getElem?_foldl_modify [Add K] (terms : List (ℕ × K)) (start : Array K) (j : ℕ) :
    (terms.foldl (fun q t => q.modify t.1 (· + t.2)) start)[j]? =
      start[j]?.map fun x => ((terms.filter (·.1 = j)).map (·.2)).foldl (· + ·) x := by
  induction terms generalizing start with
  | nil => simp
  | cons t terms ih =>
    rw [List.foldl_cons, ih, Array.getElem?_modify, List.filter_cons]
    by_cases ht : t.1 = j
    · simp [ht, Option.map_map, Function.comp_def]
    · simp [ht]

namespace Relaxation

variable [Scalar K] {r : Relaxation K} {source : RowSource} {row : ConicRow K} {j k : ℕ} {c : K}

section Sources

theorem map_row?_constraintSources (r : Relaxation K) :
    (((List.range r.model.constraints.size).filter fun i => r.active[i]?.getD false).map
      .constraint).map r.row? =
    ((r.model.constraints.toList.zipIdx.filter fun (_, i) => r.active[i]?.getD false).map
      fun (c, i) => .ofConstraint i c).map some := by
  have hrange : List.range r.model.constraints.size =
      r.model.constraints.toList.zipIdx.map (·.2) := by
    rw [List.zipIdx_map_snd, Array.length_toList, List.range_eq_range']
  rw [hrange, List.filter_map, List.map_map, List.map_map, List.map_map]
  refine List.map_congr_left fun ⟨c, i⟩ hmem => ?_
  have hget := List.mem_zipIdx_iff_getElem?.mp (List.mem_filter.mp hmem).1
  rw [Array.getElem?_toList] at hget
  simp [row?, hget]

theorem map_row?_boundSources (r : Relaxation K) (j : ℕ) : (r.boundSources j).map r.row? =
    (ConicRow.ofBounds j (entry r.lower j) (entry r.upper j)).map some := by
  unfold boundSources ConicRow.ofBounds
  split_ifs <;> rfl

/-- Every row comes from its source. -/
theorem map_row?_rowSources (hr : r.WellFormed) : r.rowSources.map r.row? = r.rows.map some := by
  have hrange : List.range r.model.vars.size = r.box.zipIdx.map (·.2) := by
    rw [List.zipIdx_map_snd, List.range_eq_range', box, List.length_zip, Array.length_toList,
      Array.length_toList, hr.lowerSize, hr.upperSize, Nat.min_self]
  rw [rowSources, rows, List.map_append, List.map_append, map_row?_constraintSources]
  congr 1
  rw [hrange, List.flatMap_map, List.map_flatMap, List.map_flatMap]
  refine List.flatMap_congr fun ⟨⟨l, u⟩, j⟩ hmem => ?_
  have hzip := List.mem_zipIdx_iff_getElem?.mp hmem
  rw [box, List.getElem?_zip_eq_some, Array.getElem?_toList, Array.getElem?_toList] at hzip
  rw [map_row?_boundSources, entry, entry, hzip.1, hzip.2]
  rfl

theorem length_rowSources (hr : r.WellFormed) : r.rowSources.length = r.rows.length := by
  simpa using congrArg List.length (map_row?_rowSources hr)

theorem getElem?_rows (hr : r.WellFormed) (hk : r.rowSources[k]? = some source) :
    r.rows[k]? = r.row? source := by
  have hget := congrArg (·[k]?) (map_row?_rowSources hr)
  simp only [List.getElem?_map, hk, Option.map_some] at hget
  cases hrow : r.rows[k]? with
  | none => simp [hrow] at hget
  | some row => simpa [hrow] using hget.symm

theorem exists_row?_eq (hr : r.WellFormed) (h : row ∈ r.rows) :
    ∃ source, r.row? source = some row := by
  have hmem : some row ∈ r.rowSources.map r.row? :=
    map_row?_rowSources hr ▸ List.mem_map_of_mem h
  obtain ⟨source, -, hrow⟩ := List.mem_map.mp hmem
  exact ⟨source, hrow⟩

theorem isEquation_eq (r : Relaxation K) (source : RowSource) :
    r.isEquation source = (r.row? source).any (·.equality) := by
  cases source with
  | constraint i =>
    rw [isEquation, row?, Option.any_map]
    rfl
  | fixed j | lower j | upper j => rfl

theorem map_equality_rows (hr : r.WellFormed) :
    r.rows.map (·.equality) = r.rowSources.map r.isEquation := by
  calc r.rows.map (·.equality)
      = (r.rows.map some).map (·.any (·.equality)) := by rw [List.map_map]; rfl
    _ = (r.rowSources.map r.row?).map (·.any (·.equality)) := by rw [map_row?_rowSources hr]
    _ = r.rowSources.map r.isEquation := by
      rw [List.map_map]
      exact List.map_congr_left fun source _ => (r.isEquation_eq source).symm

theorem support_eq (hrow : r.row? source = some row) :
    row.coefficients.map (·.1) = r.support source := by
  cases source with
  | constraint i =>
    obtain ⟨c, hc, rfl⟩ := Option.map_eq_some_iff.mp hrow
    rw [support, hc, Option.elim_some, ConicRow.ofConstraint, List.map_map]
    rfl
  | fixed j | lower j | upper j =>
    obtain rfl := Option.some.inj hrow
    rfl

/-- There are no rows exactly where no constraint is active and no bound is finite. -/
theorem rows_eq_nil_iff (hr : r.WellFormed) : r.rows = [] ↔
    (∀ i < r.model.constraints.size, r.active[i]?.getD false = false) ∧
      ∀ j < r.model.vars.size, isFinite (entry r.lower j) = false ∧
        isFinite (entry r.upper j) = false := by
  have hbounds : ∀ j, r.boundSources j = [] ↔
      isFinite (entry r.lower j) = false ∧ isFinite (entry r.upper j) = false := by
    intro j
    unfold boundSources
    by_cases hfixed : (entry r.lower j == entry r.upper j) = true <;>
      cases isFinite (entry r.lower j) <;> cases isFinite (entry r.upper j) <;> simp [hfixed]
  rw [← List.length_eq_zero_iff, ← length_rowSources hr, List.length_eq_zero_iff, rowSources,
    List.append_eq_nil_iff, List.map_eq_nil_iff, List.filter_eq_nil_iff, List.flatMap_eq_nil_iff]
  simp [hbounds]

end Sources

section Columns

theorem mem_columnOf :
    (k, c) ∈ r.columnOf j ↔ ∃ row, r.rows[k]? = some row ∧ (j, c) ∈ row.coefficients := by
  simp only [columnOf, List.mem_flatMap, List.mem_filterMap, Prod.exists,
    List.mem_zipIdx_iff_getElem?, Option.ite_none_right_eq_some, Option.some.injEq, Prod.mk.injEq]
  constructor
  · rintro ⟨row, i, hrow, v, d, hmem, rfl, rfl, rfl⟩
    exact ⟨row, hrow, hmem⟩
  · rintro ⟨row, hrow, hmem⟩
    exact ⟨row, k, hrow, j, c, hmem, rfl, rfl, rfl⟩

theorem column_program (hj : j < r.model.vars.size) : r.program.A.column j = r.columnOf j := by
  have hlt : j < ((List.range r.model.vars.size).map r.columnOf).length := by simpa using hj
  exact (SparseMatrix.column_ofColumns r.rows.length _ hlt).trans (by simp)

/-- A column has an entry in a row exactly where the source of the row has a coefficient. -/
theorem mem_column_program (hr : r.WellFormed) (hj : j < r.model.vars.size)
    (hk : r.rowSources[k]? = some source) :
    k ∈ (r.program.A.column j).map (·.1) ↔ j ∈ r.support source := by
  obtain ⟨row, hrow⟩ : ∃ row, r.rows[k]? = some row := by
    have hlt : k < r.rows.length := length_rowSources hr ▸ (List.getElem?_eq_some_iff.mp hk).1
    exact ⟨_, List.getElem?_eq_getElem hlt⟩
  rw [← support_eq ((getElem?_rows hr hk).symm.trans hrow), column_program hj]
  simp [mem_columnOf, hrow]

end Columns

section Squares

theorem size_linearCosts (r : Relaxation K) : r.linearCosts.size = r.model.vars.size := by
  unfold linearCosts
  dsimp only
  split_ifs
  · exact Array.size_replicate
  · rw [size_foldl (fun out x => Array.size_modify), Array.size_replicate]

theorem size_squareWeights (r : Relaxation K) : r.squareWeights.size = r.model.vars.size := by
  unfold squareWeights
  dsimp only
  split_ifs
  · exact Array.size_replicate
  · rw [← Array.foldl_toList, size_foldl (fun out x => Array.size_modify), Array.size_replicate]

theorem getElem_squareWeights (hj : j < r.squareWeights.size) :
    r.squareWeights[j] = if r.feasibilityOnly then 0.0 else r.model.squareWeight j := by
  have hvars : j < r.model.vars.size := r.size_squareWeights ▸ hj
  refine Option.some.inj ((Array.getElem?_eq_getElem hj).symm.trans ?_)
  unfold squareWeights
  dsimp only
  split_ifs
  · simp [hvars]
  · rw [← Array.foldl_toList, getElem?_foldl_modify]
    simp [hvars, Model.squareWeight, Scalar.sum]

theorem length_squareColumns (r : Relaxation K) :
    r.squareColumns.length = r.model.vars.size := by
  rw [squareColumns, List.length_map, List.length_zipIdx, Array.length_toList, size_squareWeights]

theorem getElem_squareColumns (hj : j < r.squareColumns.length)
    (hsize : j < r.squareWeights.size) : r.squareColumns[j] =
      if 0.0 < r.squareWeights[j] then [(j, 2.0 * r.squareWeights[j])] else [] := by
  simp [squareColumns]

/-- A column of `P` holds the diagonal entry alone, and nothing without a square. -/
theorem column_quadratic (hj : j < r.squareWeights.size) : r.program.P.column j =
    if 0.0 < r.squareWeights[j] then [(j, 2.0 * r.squareWeights[j])] else [] := by
  have hlength : j < r.squareColumns.length := by rwa [length_squareColumns, ← size_squareWeights]
  exact (SparseMatrix.column_ofColumns r.model.vars.size _ hlength).trans
    (getElem_squareColumns hlength hj)

end Squares

theorem b_program (r : Relaxation K) : r.program.b = (r.rows.map (·.b)).toArray := rfl

theorem size_q (r : Relaxation K) : r.program.q.size = r.model.vars.size := r.size_linearCosts

theorem size_b (r : Relaxation K) : r.program.b.size = r.rows.length := by
  simp [b_program]

/-- The slack of a row vanishes if the row is an equation. -/
theorem expand_cones (r : Relaxation K) :
    Cone.expand r.program.cones = r.rows.map (·.equality) :=
  Cone.expand_foldl_push r.rows (·.equality)

end Relaxation

end BendersPlanning

import BendersPlanning.Proofs.ScaledScalars
import BendersPlanning.Proofs.StoredPrograms

/-!
# Canonical conic programs

A solver does not check the program that it is handed. It relies on columns whose rows ascend, on
entries that are there to be used, and on cones that cover all rows (`ConicProgram.IsCanonical`).
Merging makes every row canonical (`ConicRow.isCanonical_ofConstraint`), reading rows one after the
other makes columns of them, and joining a row to the last run keeps runs as long as they can be
(`Cone.AreRuns.push`). Numbers are exact or rounded: coefficients that do not cancel in doubles stay.
-/

namespace BendersPlanning

section Meaning
variable {K : Type} [Scalar K]

/-- Stored by columns as solvers expect it: column starts that never fall, from zero to the number of
entries, and in every column the rows in ascending order, all of them in the matrix and none of them
with a zero. -/
structure SparseMatrix.IsCanonical (a : SparseMatrix K) : Prop where
  startCount : a.columnStart.size = a.columnCount + 1
  first : a.columnStart[0]? = some 0
  nondecreasing : a.columnStart.toList.Pairwise (· ≤ ·)
  last : a.columnStart[a.columnCount]? = some a.values.size
  indexed : a.rowIndex.size = a.values.size
  ascending : ∀ j < a.columnCount, ((a.column j).map (·.1)).Pairwise (· < ·)
  inside : ∀ i ∈ a.rowIndex, i < a.rowCount
  nonzero : ∀ x ∈ a.values, (x == 0.0) = false

namespace Cone

def size : Cone → ℕ
  | zero n | nonnegative n => n

def isZero : Cone → Bool
  | zero _ => true
  | nonnegative _ => false

/-- Runs as long as they can be: none is empty, and neighbours differ in kind. -/
structure AreRuns (cones : List Cone) : Prop where
  positive : ∀ c ∈ cones, 0 < c.size
  alternating : cones.IsChain fun c d => c.isZero ≠ d.isZero

end Cone

/-- Matrices stored as solvers expect them, of fitting sizes, and cones that cover the rows. -/
structure ConicProgram.IsCanonical (p : ConicProgram K) : Prop where
  rows : p.A.IsCanonical
  squares : p.P.IsCanonical
  rowCount : p.A.rowCount = p.b.size
  columnCount : p.A.columnCount = p.q.size
  square : p.P.rowCount = p.q.size ∧ p.P.columnCount = p.q.size
  runs : Cone.AreRuns p.cones
  covered : (p.cones.map Cone.size).sum = p.b.size

/-- At most one coefficient for a variable, in ascending order, and none that is zero. -/
structure ConicRow.IsCanonical (row : ConicRow K) : Prop where
  ascending : (row.coefficients.map (·.1)).Pairwise (· < ·)
  nonzero : ∀ t ∈ row.coefficients, (t.2 == 0.0) = false

/-- Whether the objective is curved along a variable. Where it is dropped it is not. -/
def Relaxation.CurvesAlong (r : Relaxation K) (j : ℕ) : Prop :=
  r.feasibilityOnly = false ∧ 0.0 < r.model.squareWeight j

instance (r : Relaxation K) (j : ℕ) : Decidable (r.CurvesAlong j) :=
  inferInstanceAs (Decidable (_ ∧ _))

end Meaning

namespace SparseMatrix

variable {K : Type} {n : ℕ} {columns : List (List (ℕ × K))}

theorem nondecreasing_starts (columns : List (List (ℕ × K))) :
    (starts columns).toList.Pairwise (· ≤ ·) := by
  refine List.pairwise_iff_getElem.mpr fun i j hi hj hij => ?_
  have hvalue : ∀ k, ∀ hk : k < (starts columns).toList.length,
      (starts columns).toList[k] = ((columns.map List.length).take k).sum := by
    intro k hk
    have hlast : k ≤ columns.length := by simpa [Nat.lt_succ_iff] using hk
    have hget := getElem?_starts columns hlast
    rw [← Array.getElem?_toList, List.getElem?_eq_getElem hk] at hget
    exact Option.some.inj hget
  rw [hvalue i hi, hvalue j hj]
  exact (List.take_prefix_take_left hij.le).sublist.sum_le_sum fun _ _ => Nat.zero_le _

theorem isCanonical_ofColumns [Scalar K]
    (hascending : ∀ c ∈ columns, (c.map (·.1)).Pairwise (· < ·))
    (hinside : ∀ c ∈ columns, ∀ t ∈ c, t.1 < n)
    (hnonzero : ∀ c ∈ columns, ∀ t ∈ c, (t.2 == 0.0) = false) :
    (ofColumns n columns).IsCanonical where
  startCount := size_starts columns
  first := getElem?_starts columns (Nat.zero_le _)
  nondecreasing := nondecreasing_starts columns
  last := by
    refine (getElem?_starts columns le_rfl).trans ?_
    rw [List.take_of_length_le (by simp)]
    simp [ofColumns, List.length_flatMap]
  indexed := by simp [ofColumns, List.length_flatMap]
  ascending j hj := by
    rw [column_ofColumns n columns hj]
    exact hascending _ (List.getElem_mem hj)
  inside i hi := by
    simp only [ofColumns, List.mem_toArray, List.mem_flatMap, List.mem_map] at hi
    obtain ⟨c, hc, t, ht, rfl⟩ := hi
    exact hinside c hc t ht
  nonzero x hx := by
    simp only [ofColumns, List.mem_toArray, List.mem_flatMap, List.mem_map] at hx
    obtain ⟨c, hc, t, ht, rfl⟩ := hx
    exact hnonzero c hc t ht

end SparseMatrix

namespace Cone

variable {cones : List Cone} {c d : Cone}

theorem length_expand (cones : List Cone) :
    (expand cones).length = (cones.map size).sum := by
  unfold expand
  rw [List.length_flatMap]
  congr 1
  refine List.map_congr_left fun c _ => ?_
  cases c <;> simp [size]

theorem AreRuns.concat (h : AreRuns cones) (hd : 0 < d.size)
    (hlast : ∀ c ∈ cones.getLast?, c.isZero ≠ d.isZero) : AreRuns (cones ++ [d]) where
  positive := List.forall_mem_append.mpr ⟨h.positive, List.forall_mem_singleton.mpr hd⟩
  alternating := List.isChain_append.mpr ⟨h.alternating, .singleton d, fun c hc _ hd =>
    Option.some.inj hd ▸ hlast c hc⟩

/-- The last run may change its size. -/
theorem AreRuns.resize (h : AreRuns (cones ++ [c])) (hd : 0 < d.size)
    (hkind : d.isZero = c.isZero) : AreRuns (cones ++ [d]) := by
  obtain ⟨hcones, -, hlast⟩ := List.isChain_append.mp h.alternating
  refine concat ⟨(List.forall_mem_append.mp h.positive).1, hcones⟩ hd fun e he => ?_
  rw [hkind]
  exact hlast e he c rfl

/-- One more row makes the last run longer or starts one of the other kind. -/
theorem AreRuns.push (h : AreRuns cones) (equality : Bool) : AreRuns (push cones equality) := by
  unfold Cone.push
  split
  · rename_i n hlast
    obtain ⟨init, rfl⟩ := List.getLast?_eq_some_iff.mp hlast
    rw [List.dropLast_concat]
    exact h.resize (Nat.succ_pos n) rfl
  · rename_i n hlast
    obtain ⟨init, rfl⟩ := List.getLast?_eq_some_iff.mp hlast
    rw [List.dropLast_concat]
    exact h.resize (Nat.succ_pos n) rfl
  · rename_i hother
    refine h.concat Nat.one_pos fun c hc => ?_
    cases c with
    | zero n => exact (hother n hc).elim
    | nonnegative n => exact Bool.false_ne_true
  · rename_i hother
    refine h.concat Nat.one_pos fun c hc => ?_
    cases c with
    | zero n => exact Bool.false_ne_true.symm
    | nonnegative n => exact (hother n hc).elim

theorem areRuns_foldl_push {α : Type} (rows : List α) (kind : α → Bool) :
    AreRuns (rows.foldl (fun cones row => Cone.push cones (kind row)) []) := by
  induction rows using List.reverseRecOn with
  | nil => exact ⟨nofun, .nil⟩
  | append_singleton rows row ih =>
    rw [List.foldl_append]
    exact ih.push (kind row)

end Cone

namespace ConicRow

variable {K : Type} [Scalar K] [ScaledScalar K] {row : ConicRow K} {j : ℕ} {c : K}

theorem isCanonical_ofConstraint (i : ℕ) (c : Constraint K) : (ofConstraint i c).IsCanonical where
  ascending := by
    have hentries := c.expression.coefficients.sorted.sublist
      (List.filter_sublist (p := fun t : ℕ × K => !(t.2 == 0.0)))
    rw [List.pairwise_map, ofConstraint, List.pairwise_map]
    exact hentries
  nonzero t ht := by
    obtain ⟨u, hu, rfl⟩ := List.mem_map.mp ht
    have hnonzero : (u.2 == 0.0) = false := by simpa using (List.mem_filter.mp hu).2
    refine ScaledScalar.mul_ne_zero ?_ hnonzero
    split_ifs
    · exact .inr (.inl rfl)
    · exact .inl rfl

theorem isCanonical_of_unit (hc : c = 1.0 ∨ c = -1.0) (hrow : row.coefficients = [(j, c)]) :
    row.IsCanonical := by
  have hone : ((1.0 : K) == 0.0) = false := by
    rw [Bool.eq_false_iff, ne_eq, RoundedScalar.beq_iff]
    exact fun h => h.2.2 LinearScalar.zero_lt_one
  refine ⟨by simp [hrow], ?_⟩
  rw [hrow, List.forall_mem_singleton]
  rcases hc with rfl | rfl
  · exact hone
  · exact ScaledScalar.neg_one_ne_zero

end ConicRow

namespace Relaxation

variable {K : Type} [Scalar K] {r : Relaxation K} {source : RowSource} {row : ConicRow K} {j : ℕ}

/-- A row has at most one entry in a column, and rows come one after the other. -/
theorem ascending_columnOf (hrows : ∀ row ∈ r.rows, row.IsCanonical) (j : ℕ) :
    ((r.columnOf j).map (·.1)).Pairwise (· < ·) := by
  rw [List.pairwise_map, columnOf, List.pairwise_flatMap]
  constructor
  · rintro ⟨row, i⟩ hrow
    have hmem : row ∈ r.rows := List.mem_of_getElem? (List.mem_zipIdx_iff_getElem?.mp hrow)
    refine List.Pairwise.filterMap _ ?_ (List.pairwise_map.mp (hrows row hmem).ascending)
    rintro ⟨v, c⟩ ⟨w, d⟩ hlt x hx y hy
    -- both coefficients would be those of `j`
    obtain ⟨rfl, -⟩ := Option.ite_none_right_eq_some.mp hx
    obtain ⟨rfl, -⟩ := Option.ite_none_right_eq_some.mp hy
    exact absurd hlt (lt_irrefl _)
  · have hindices : r.rows.zipIdx.Pairwise (·.2 < ·.2) := by
      rw [← List.pairwise_map (f := Prod.snd), List.zipIdx_map_snd]
      exact List.pairwise_lt_range'
    refine hindices.imp fun {a b} hab x hx y hy => ?_
    obtain ⟨t, -, ht⟩ := List.mem_filterMap.mp hx
    obtain ⟨u, -, hu⟩ := List.mem_filterMap.mp hy
    obtain rfl := Option.some.inj (Option.ite_none_right_eq_some.mp ht).2
    obtain rfl := Option.some.inj (Option.ite_none_right_eq_some.mp hu).2
    exact hab

variable [ScaledScalar K]

theorem isCanonical_of_row? (hrow : r.row? source = some row) : row.IsCanonical := by
  cases source with
  | constraint i =>
    obtain ⟨c, -, rfl⟩ := Option.map_eq_some_iff.mp hrow
    exact ConicRow.isCanonical_ofConstraint i c
  | fixed j | upper j =>
    obtain rfl := Option.some.inj hrow
    exact ConicRow.isCanonical_of_unit (.inl rfl) rfl
  | lower j =>
    obtain rfl := Option.some.inj hrow
    exact ConicRow.isCanonical_of_unit (.inr rfl) rfl

theorem isCanonical_A (hr : r.WellFormed) : r.program.A.IsCanonical := by
  have hrows : ∀ row ∈ r.rows, row.IsCanonical := fun row hrow =>
    (exists_row?_eq hr hrow).elim fun _ => isCanonical_of_row?
  change (SparseMatrix.ofColumns r.rows.length
    ((List.range r.model.vars.size).map r.columnOf)).IsCanonical
  refine SparseMatrix.isCanonical_ofColumns ?_ ?_ ?_ <;>
    refine List.forall_mem_map.mpr fun j _ => ?_
  · exact ascending_columnOf hrows j
  · rintro ⟨k, c⟩ ht
    obtain ⟨row, hrow, -⟩ := mem_columnOf.mp ht
    exact (List.getElem?_eq_some_iff.mp hrow).1
  · rintro ⟨k, c⟩ ht
    obtain ⟨row, hrow, hmem⟩ := mem_columnOf.mp ht
    exact (hrows row (List.mem_of_getElem? hrow)).nonzero (j, c) hmem

/-- The diagonal has an entry where the objective is curved, and no entry without. -/
theorem column_curved (hj : j < r.model.vars.size) : r.program.P.column j =
    if r.CurvesAlong j then [(j, 2.0 * r.model.squareWeight j)] else [] := by
  have hsize : j < r.squareWeights.size := r.size_squareWeights ▸ hj
  rw [column_quadratic hsize, getElem_squareWeights hsize]
  by_cases hobjective : r.feasibilityOnly = true
  · simp [CurvesAlong, hobjective, lt_irrefl_scalar]
  · simp [CurvesAlong, hobjective]

theorem isCanonical_P (r : Relaxation K) : r.program.P.IsCanonical := by
  have hcolumn : ∀ c ∈ r.squareColumns,
      c = [] ∨ ∃ j < r.model.vars.size, ∃ w : K, 0.0 < w ∧ c = [(j, 2.0 * w)] := by
    intro c hc
    obtain ⟨j, hj, rfl⟩ := List.mem_iff_getElem.mp hc
    have hvars : j < r.model.vars.size := r.length_squareColumns ▸ hj
    rw [getElem_squareColumns hj (r.size_squareWeights ▸ hvars)]
    split_ifs with hpositive
    · exact .inr ⟨j, hvars, _, hpositive, rfl⟩
    · exact .inl rfl
  change (SparseMatrix.ofColumns r.model.vars.size r.squareColumns).IsCanonical
  refine SparseMatrix.isCanonical_ofColumns ?_ ?_ ?_ <;>
    intro c hc <;> obtain rfl | ⟨j, hj, w, hpositive, rfl⟩ := hcolumn c hc
  · exact .nil
  · exact List.pairwise_singleton _ _
  · nofun
  · exact List.forall_mem_singleton.mpr hj
  · nofun
  · refine List.forall_mem_singleton.mpr (ScaledScalar.mul_ne_zero (.inr (.inr rfl)) ?_)
    rw [Bool.eq_false_iff, ne_eq, RoundedScalar.beq_iff]
    exact fun h => h.2.2 hpositive

theorem isCanonical_program (hr : r.WellFormed) : r.program.IsCanonical where
  rows := isCanonical_A hr
  squares := isCanonical_P r
  rowCount := r.size_b.symm
  columnCount := by simp [program, SparseMatrix.ofColumns, size_linearCosts]
  square := by simp [program, SparseMatrix.ofColumns, size_linearCosts, size_squareWeights]
  runs := Cone.areRuns_foldl_push r.rows (·.equality)
  covered := by rw [← Cone.length_expand, expand_cones, List.length_map, size_b]

/-- The program of a relaxation is canonical, with a column for each variable and a row for each
source. Row by row its cones tell the equations, its matrix has entries where the sources have
coefficients, and its diagonal those of the variables that the objective is curved along. -/
theorem program_is_canonical (hr : r.WellFormed) :
    r.program.IsCanonical ∧
    r.program.A.columnCount = r.model.vars.size ∧
    r.program.A.rowCount = r.rowSources.length ∧
    Cone.expand r.program.cones = r.rowSources.map r.isEquation ∧
    (∀ j < r.model.vars.size, ∀ (k : ℕ) (source : RowSource), r.rowSources[k]? = some source →
      (k ∈ (r.program.A.column j).map (·.1) ↔ j ∈ r.support source)) ∧
    ∀ j < r.model.vars.size, r.program.P.column j =
      if r.CurvesAlong j then [(j, 2.0 * r.model.squareWeight j)] else [] := by
  have hcanonical := isCanonical_program hr
  exact ⟨hcanonical, hcanonical.columnCount.trans r.size_q, (length_rowSources hr).symm,
    r.expand_cones.trans (map_equality_rows hr),
    fun j hj k source hk => mem_column_program hr hj hk, fun j hj => column_curved hj⟩

/-- Sources whose demand names two outputs several times. The terms of the free output cancel, those
of the boxed one leave a rest in doubles. -/
def driftingSources : Relaxation Float where
  model :=
    { vars := #[.continuous "free" none none, .continuous "fixed" none none,
        .continuous "boxed" (some 0.0) none]
      constraints := #[
        ⟨"demand", ⟨#[(2, 0.1), (0, 1.0), (2, 0.2), (0, -1.0), (2, -0.3)], 0.0⟩, .atLeast, 5.0⟩,
        ⟨"closed", ⟨#[(2, 1.0)], 0.0⟩, .equal, 0.0⟩,
        ⟨"balance", ⟨#[(2, 1.0), (1, 0.0), (0, -1.0)], 0.0⟩, .equal, 1.0⟩,
        ⟨"limit", ⟨#[(2, 1.0)], 0.0⟩, .atMost, 9.0⟩]
      objective := ⟨#[(0, 1.0)], 0.0⟩
      quadratic := #[(2, 0.1), (0, 0.0), (2, 0.2)]
      expressions := .empty }
  lower := #[-Scalar.infinity, 4.0, 0.0]
  upper := #[Scalar.infinity, 4.0, 6.0]
  active := #[true, false, true, true]
  feasibilityOnly := false

/-- The rest is an entry, what cancelled is not, and the runs of rows are one, one, one, one and
two rows long. -/
theorem driftingSources_is_canonical :
    driftingSources.program.IsCanonical ∧
      driftingSources.program.A.rowCount = 6 ∧
      Cone.expand driftingSources.program.cones = [false, true, false, true, false, false] ∧
      0 ∈ (driftingSources.program.A.column 2).map (·.1) ∧
      0 ∉ (driftingSources.program.A.column 0).map (·.1) ∧
      driftingSources.program.P.column 0 = [] ∧
      driftingSources.program.P.column 2 = [(2, 2.0 * (0.1 + 0.2))] := by
  obtain ⟨hcanonical, -, hrows, hcones, hentries, hsquares⟩ :=
    program_is_canonical (r := driftingSources) (by decide +kernel)
  refine ⟨hcanonical, hrows.trans (by decide +kernel), hcones.trans (by decide +kernel), ?_, ?_,
    (hsquares 0 (by decide)).trans (by decide +kernel),
    (hsquares 2 (by decide)).trans (by decide +kernel)⟩
  · rw [hentries 2 (by decide) 0 (.constraint 0) (by decide +kernel)]
    decide +kernel
  · rw [hentries 0 (by decide) 0 (.constraint 0) (by decide +kernel)]
    decide +kernel

end Relaxation

end BendersPlanning

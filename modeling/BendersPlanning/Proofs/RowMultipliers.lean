import BendersPlanning.Proofs.RelaxationPrograms

/-!
# Multipliers of rows

Multipliers in the dual cone turn rows that hold into one inequality that holds, `combine_le`. What
is reported about them is one number per constraint: no two rows share a constraint, so summed
against changes of the right-hand sides these numbers are the combination of the rows' shifts,
`sum_perConstraint`.
-/

namespace BendersPlanning

open Exact (number)

namespace Relaxation

variable {r : Relaxation Exact} {row : ConicRow Exact} {δ x : ℕ → ℚ} {z : Array Exact}

theorem zip_toList_eq (hz : IsFiniteVector r.rows.length z) :
    r.rows.zip z.toList = r.rows.zipIdx.map fun (row, i) => (row, number (coordinate z i)) := by
  refine List.ext_getElem (by simp [hz.size]) fun i h₁ h₂ => ?_
  have hi : i < r.rows.length := by simpa using h₂
  simp [hz.getElem_eq (hi.trans_eq hz.size.symm)]

theorem nonneg_of_dualContains (hz : IsFiniteVector r.rows.length z)
    (h : Cone.DualContains r.program.cones z) (i : ℕ) (row : ConicRow Exact)
    (hrow : r.rows[i]? = some row) (hequality : row.equality = false) : 0 ≤ coordinate z i := by
  have hi : i < r.rows.length := (List.getElem?_eq_some_iff.mp hrow).choose
  have hmem : (false, i) ∈ (Cone.expand r.program.cones).zipIdx := by
    rw [List.mem_zipIdx_iff_getElem?, expand_cones, List.getElem?_map, hrow, Option.map_some,
      hequality]
  have hentry : 0.0 ≤ Scalar.entry z i := h _ hmem rfl
  rwa [hz.entry_eq hi, Exact.zero_eq, Exact.number_le] at hentry

/-- Multipliers that are not negative on inequalities add up rows that hold to an inequality. -/
theorem combine_le {z : ℕ → ℚ}
    (hz : ∀ (i : ℕ) (row : ConicRow Exact), r.rows[i]? = some row → row.equality = false → 0 ≤ z i)
    (hrows : ∀ row ∈ r.rows, row.HoldsAt δ x) :
    r.combine z (·.activity x) ≤ r.combine z fun row => row.b.toRat + row.shift δ := by
  refine List.sum_le_sum fun ⟨row, i⟩ hmem => ?_
  have hget := List.mem_zipIdx_iff_getElem?.mp hmem
  have hholds := hrows row (List.mem_of_getElem? hget)
  unfold ConicRow.HoldsAt at hholds
  split_ifs at hholds with hequality
  · exact (congrArg (z i * ·) hholds).le
  · exact mul_le_mul_of_nonneg_left hholds (hz i row hget (by simpa using hequality))

theorem sum_combine_coefficients (hr : r.WellFormed) (z x : ℕ → ℚ) :
    ∑ j ∈ Finset.range r.model.vars.size,
        r.combine z (fun row => coefficientOf row.coefficients j) * x j =
      r.combine z (·.activity x) := by
  have hlt : ∀ p ∈ r.rows.zipIdx, ∀ t ∈ p.1.coefficients, t.1 < r.model.vars.size := by
    intro p hp t ht
    have hget := List.mem_zipIdx_iff_getElem?.mp hp
    exact ((isOver_of_mem_rows hr (List.mem_of_getElem? hget)).terms t ht).1
  unfold combine
  generalize r.rows.zipIdx = pairs at hlt ⊢
  induction pairs with
  | nil => simp
  | cons p pairs ih =>
    obtain ⟨hp, hrest⟩ := List.forall_mem_cons.mp hlt
    simp only [List.map_cons, List.sum_cons, add_mul, Finset.sum_add_distrib, ih hrest, mul_assoc,
      ← Finset.mul_sum]
    rw [sum_coefficientOf _ hp, ConicRow.activity]

section PerConstraint
variable {count : ℕ}

/-- What one row with its multiplier adds, when numbers per constraint are summed against `δ`. -/
def contribution (read : ConicRow Exact → Exact → Exact) (δ : ℕ → ℚ)
    (pair : ConicRow Exact × Exact) : ℚ :=
  match pair.1.constraint with
  | some c => (read pair.1 pair.2).toRat * δ c
  | none => 0

def writeRead (read : ConicRow Exact → Exact → Exact) (out : Array Exact)
    (pair : ConicRow Exact × Exact) : Array Exact :=
  match pair.1.constraint with
  | some c => out.setIfInBounds c (read pair.1 pair.2)
  | none => out

theorem coordinate_setIfInBounds {out : Array Exact} (hout : IsFiniteVector count out) {c : ℕ}
    (hc : c < count) {q : ℚ} :
    IsFiniteVector count (out.setIfInBounds c (number q)) ∧
      ∀ k, coordinate (out.setIfInBounds c (number q)) k =
        if k = c then q else coordinate out k := by
  have hlt : c < out.size := hc.trans_eq hout.size.symm
  refine ⟨⟨by simp [hout.size], fun y hy => ?_⟩, fun k => ?_⟩
  · rcases Array.mem_or_eq_of_mem_setIfInBounds hy with h | rfl
    · exact hout.finite y h
    · exact Exact.isFinite_number q
  · by_cases h : k = c
    · subst h
      simp [coordinate, Scalar.entry, hlt]
    · simp [coordinate, Scalar.entry, Ne.symm h, h]

/-- Before the write the entry was zero, so the sum gains exactly the written term. -/
theorem sum_setIfInBounds {out : Array Exact} (hout : IsFiniteVector count out) {c : ℕ}
    (hc : c < count) (hzero : coordinate out c = 0) (q : ℚ) (δ : ℕ → ℚ) :
    ∑ k ∈ Finset.range count, coordinate (out.setIfInBounds c (number q)) k * δ k =
      ∑ k ∈ Finset.range count, coordinate out k * δ k + q * δ c := by
  have hgain : ∀ k ∈ Finset.range count,
      coordinate (out.setIfInBounds c (number q)) k * δ k =
        coordinate out k * δ k + if k = c then q * δ c else 0 := by
    intro k _
    rw [(coordinate_setIfInBounds hout hc).2]
    split_ifs with h
    · rw [h, hzero, zero_mul, zero_add]
    · rw [add_zero]
  rw [Finset.sum_congr rfl hgain, Finset.sum_add_distrib, Finset.sum_ite_eq',
    if_pos (Finset.mem_range.mpr hc)]

/-- Writing at constraints that are still zero and pairwise different adds up contributions. -/
theorem sum_foldl_writeRead (read : ConicRow Exact → Exact → Exact) (δ : ℕ → ℚ)
    (pairs : List (ConicRow Exact × Exact))
    (hread : ∀ p ∈ pairs, Scalar.isFinite (read p.1 p.2) = true)
    (hlt : ∀ p ∈ pairs, ∀ c, p.1.constraint = some c → c < count)
    (hnodup : (pairs.filterMap fun p => p.1.constraint).Nodup) {out : Array Exact}
    (hout : IsFiniteVector count out)
    (hzero : ∀ p ∈ pairs, ∀ c, p.1.constraint = some c → coordinate out c = 0) :
    IsFiniteVector count (pairs.foldl (writeRead read) out) ∧
      ∑ c ∈ Finset.range count, coordinate (pairs.foldl (writeRead read) out) c * δ c =
        ∑ c ∈ Finset.range count, coordinate out c * δ c +
          (pairs.map (contribution read δ)).sum := by
  induction pairs generalizing out with
  | nil => simp [hout]
  | cons p pairs ih =>
    obtain ⟨hp, hread⟩ := List.forall_mem_cons.mp hread
    obtain ⟨hpc, hlt⟩ := List.forall_mem_cons.mp hlt
    obtain ⟨hpz, hzero⟩ := List.forall_mem_cons.mp hzero
    rw [List.foldl_cons, List.map_cons, List.sum_cons]
    cases hc : p.1.constraint with
    | none =>
      rw [List.filterMap_cons_none (f := fun p : ConicRow Exact × Exact => p.1.constraint) hc]
        at hnodup
      have hsame : writeRead read out p = out := by rw [writeRead, hc]
      have hnothing : contribution read δ p = 0 := by rw [contribution, hc]
      rw [hsame, hnothing, zero_add]
      exact ih hread hlt hnodup hout hzero
    | some c =>
      rw [List.filterMap_cons_some (f := fun p : ConicRow Exact × Exact => p.1.constraint) hc]
        at hnodup
      obtain ⟨hfresh, hnodup⟩ := List.nodup_cons.mp hnodup
      obtain ⟨q, hq⟩ := Exact.isFinite_iff.mp hp
      obtain ⟨hfinite, hset⟩ := coordinate_setIfInBounds hout (hpc c hc) (q := q)
      have hwritten : writeRead read out p = out.setIfInBounds c (number q) := by
        rw [writeRead, hc, hq]
      have hadded : contribution read δ p = q * δ c := by
        rw [contribution, hc, hq, Exact.toRat_number]
      rw [hwritten, hadded]
      obtain ⟨hf, hs⟩ := ih hread hlt hnodup hfinite fun p' hp' c' hc' => by
        have hne : c' ≠ c := by
          rintro rfl
          exact hfresh (List.mem_filterMap.mpr ⟨p', hp', hc'⟩)
        rw [hset, if_neg hne]
        exact hzero p' hp' c' hc'
      refine ⟨hf, hs.trans ?_⟩
      rw [sum_setIfInBounds hout (hpc c hc) (hpz c hc), add_assoc]

theorem perConstraint_eq (r : Relaxation Exact) (read : ConicRow Exact → Exact → Exact)
    (z : Array Exact) : r.perConstraint read z =
      (r.rows.zip z.toList).foldl (writeRead read)
        (Array.replicate r.model.constraints.size (number 0)) := by
  rw [← Exact.zero_eq]
  rfl

/-- Numbers per constraint, summed against changes, combine the shifts of the rows. -/
theorem sum_perConstraint (hz : IsFiniteVector r.rows.length z)
    (read : ConicRow Exact → Exact → Exact) (scale : ℚ)
    (hread : ∀ row ∈ r.rows, ∀ q, read row (number q) = number (-(row.sign.toRat * q) / scale))
    (δ : ℕ → ℚ) :
    IsFiniteVector r.model.constraints.size (r.perConstraint read z) ∧
      ∑ c ∈ Finset.range r.model.constraints.size, coordinate (r.perConstraint read z) c * δ c =
        -r.combine (coordinate z) (·.shift δ) / scale := by
  have hpair : ∀ p ∈ r.rows.zip z.toList, p.1 ∈ r.rows ∧ ∃ q, p.2 = number q := by
    intro p hp
    rw [zip_toList_eq hz] at hp
    obtain ⟨⟨row, i⟩, hmem, rfl⟩ := List.mem_map.mp hp
    exact ⟨List.mem_of_getElem? (List.mem_zipIdx_iff_getElem?.mp hmem), _, rfl⟩
  have hconstraints : (r.rows.zip z.toList).filterMap (fun p => p.1.constraint) =
      r.rows.filterMap (·.constraint) := by
    have hfst : (r.rows.zip z.toList).map Prod.fst = r.rows :=
      List.map_fst_zip (by simp [hz.size])
    conv_rhs => rw [← hfst, List.filterMap_map]
    rfl
  have hsum := sum_foldl_writeRead read δ (r.rows.zip z.toList)
    (fun p hp => by
      obtain ⟨hrow, q, hq⟩ := hpair p hp
      rw [hq, hread p.1 hrow]
      exact Exact.isFinite_number _)
    (fun p hp c hc => (constraint_lt_and_active (hpair p hp).1 hc).1)
    (hconstraints ▸ nodup_constraints r) (isFiniteVector_replicate r.model.constraints.size)
    fun p _ c _ => coordinate_replicate _ c
  rw [perConstraint_eq]
  refine ⟨hsum.1, hsum.2.trans ?_⟩
  have hcontribution : ∀ p ∈ r.rows.zipIdx,
      contribution read δ (p.1, number (coordinate z p.2)) =
        coordinate z p.2 * p.1.shift δ * (-1 / scale) := by
    intro p hp
    have hrow := hread p.1 (List.mem_of_getElem? (List.mem_zipIdx_iff_getElem?.mp hp))
    unfold contribution ConicRow.shift
    cases p.1.constraint with
    | none => simp
    | some c =>
      simp only [hrow, Exact.toRat_number]
      ring
  simp only [coordinate_replicate, zero_mul, Finset.sum_const_zero, zero_add]
  rw [zip_toList_eq hz, List.map_map, combine]
  refine (congrArg List.sum (List.map_congr_left hcontribution)).trans ?_
  rw [List.sum_map_mul_right]
  ring

/-- Every number per constraint is zero or was read from the row of an active constraint. -/
theorem getElem?_perConstraint {read : ConicRow Exact → Exact → Exact} {c : ℕ} {value : Exact}
    (h : (r.perConstraint read z)[c]? = some value) :
    value = number 0 ∨ ∃ p ∈ r.rows.zip z.toList, p.1.constraint = some c ∧
      value = read p.1 p.2 := by
  rw [perConstraint_eq] at h
  generalize r.rows.zip z.toList = pairs at h ⊢
  induction pairs using List.reverseRecOn with
  | nil =>
    rw [List.foldl_nil, Array.getElem?_replicate] at h
    split_ifs at h
    exact .inl (Option.some.inj h).symm
  | append_singleton pairs p ih =>
    rw [List.foldl_append, List.foldl_cons, List.foldl_nil, writeRead] at h
    have hearlier : (pairs.foldl (writeRead read)
        (Array.replicate r.model.constraints.size (number 0)))[c]? = some value →
        value = number 0 ∨ ∃ p' ∈ pairs ++ [p], p'.1.constraint = some c ∧
          value = read p'.1 p'.2 := by
      intro hold
      rcases ih hold with hzero | ⟨p', hp', hread⟩
      · exact .inl hzero
      · exact .inr ⟨p', List.mem_append_left _ hp', hread⟩
    cases hc : p.1.constraint with
    | none => rw [hc] at h; exact hearlier h
    | some c' =>
      rw [hc, Array.getElem?_setIfInBounds] at h
      split_ifs at h with hsame hlt
      · subst hsame
        exact .inr ⟨p, by simp, hc, (Option.some.inj h).symm⟩
      · exact hearlier h

end PerConstraint

end Relaxation

end BendersPlanning

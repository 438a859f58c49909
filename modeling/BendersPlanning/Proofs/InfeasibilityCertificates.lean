import BendersPlanning.Proofs.RowMultipliers

/-!
# Certificates of infeasible relaxations

Multipliers that no slack can balance are scaled by the largest of them, over all rows, and reported
per constraint. The bound rows stay in the margin alone, for their right-hand sides never change.
What is left is an affine function of the right-hand sides that no feasible point lets become
positive.
-/

namespace BendersPlanning

open Exact (number)

/-- The largest magnitude among some numbers, zero without any. -/
def largestMagnitude {K : Type} [Scalar K] (z : Array K) : K :=
  z.foldl (fun acc x => Scalar.larger acc (Scalar.abs x)) 0.0

/-- The inner product of as many entries as both vectors have. -/
def commonDot {K : Type} [Scalar K] (x y : Array K) : K :=
  Scalar.sum (List.zipWith (· * ·) x.toList y.toList)

/-- A certificate whose margin is positive, whose ray is at most one in magnitude, and whose affine
function is positive at no right-hand sides that a point meets. -/
structure Relaxation.IsRefutedBy {K : Type} [Scalar K] (r : Relaxation K) (c : Certificate K) :
    Prop extends IsFiniteVector r.model.constraints.size c.ray where
  margin : Scalar.isFinite c.infeasibility = true ∧ 0.0 < c.infeasibility
  scaled : ∀ v ∈ c.ray, Scalar.abs v ≤ 1.0
  supports : ∀ rhs point, IsFiniteVector r.model.constraints.size rhs →
    (r.withRhs rhs).Feasible point →
    c.infeasibility + changeAlong c.ray r.model.rightHandSides rhs ≤ 0.0

/-- The largest magnitude of finite numbers bounds all of them and is attained. -/
theorem largestMagnitude_eq {count : ℕ} {z : Array Exact} (hz : IsFiniteVector count z) :
    ∃ t : ℚ, largestMagnitude z = number t ∧ 0 ≤ t ∧ (∀ x ∈ z, |x.toRat| ≤ t) ∧
      (0 < t → ∃ x ∈ z, |x.toRat| = t) := by
  have hfold : ∀ (xs : List Exact) (acc : ℚ), (∀ x ∈ xs, Scalar.isFinite x = true) →
      ∃ t : ℚ, xs.foldl (fun acc x => Scalar.larger acc (Scalar.abs x)) (number acc) = number t ∧
        acc ≤ t ∧ (∀ x ∈ xs, |x.toRat| ≤ t) ∧ (acc < t → ∃ x ∈ xs, |x.toRat| = t) := by
    intro xs
    induction xs with
    | nil => exact fun acc _ => ⟨acc, rfl, le_rfl, by simp, fun h => absurd h (lt_irrefl _)⟩
    | cons x xs ih =>
      intro acc hfinite
      obtain ⟨hx, hxs⟩ := List.forall_mem_cons.mp hfinite
      obtain ⟨q, rfl⟩ := Exact.isFinite_iff.mp hx
      obtain ⟨t, hfold, hle, hbound, hattained⟩ := ih (max acc |q|) hxs
      refine ⟨t, ?_, (le_max_left _ _).trans hle,
        List.forall_mem_cons.mpr ⟨(le_max_right _ _).trans hle, hbound⟩, fun hlt => ?_⟩
      · rw [List.foldl_cons, Exact.abs_number, Exact.larger_number, hfold]
      · rcases hle.lt_or_eq with hmore | hsame
        · obtain ⟨y, hy, hyt⟩ := hattained hmore
          exact ⟨y, List.mem_cons_of_mem _ hy, hyt⟩
        · refine ⟨number q, List.mem_cons_self, ?_⟩
          have hq : acc < |q| := by
            rw [← hsame] at hlt
            exact (lt_max_iff.mp hlt).resolve_left (lt_irrefl _)
          rw [Exact.toRat_number, ← hsame, max_eq_right hq.le]
  obtain ⟨t, ht, hnonneg, hbound, hattained⟩ :=
    hfold z.toList 0 fun x hx => hz.finite x (Array.mem_toList_iff.mp hx)
  refine ⟨t, ?_, hnonneg, fun x hx => hbound x (Array.mem_toList_iff.mpr hx), fun h => ?_⟩
  · rw [largestMagnitude, ← Array.foldl_toList, Exact.zero_eq, ht]
  · obtain ⟨x, hx, hxt⟩ := hattained h
    exact ⟨x, Array.mem_toList_iff.mp hx, hxt⟩

namespace Relaxation

variable {r : Relaxation Exact} {z : Array Exact} {δ y : ℕ → ℚ}

theorem commonDot_program (r : Relaxation Exact) (z : Array Exact) :
    commonDot r.program.b z = Scalar.sum ((r.rows.zip z.toList).map fun (row, x) => row.b * x) := by
  rw [commonDot, b_program, List.toList_toArray, List.zipWith_map_left, List.zip_eq_zipWith,
    List.map_zipWith]

/-- The margin of multipliers, scaled by the largest of them. -/
def scaledMargin (r : Relaxation Exact) (z : Array Exact) : Exact :=
  -commonDot r.program.b z / largestMagnitude z

/-- The ray of multipliers, scaled by the largest of them. -/
def scaledRay (r : Relaxation Exact) (z : Array Exact) : Array Exact :=
  r.perConstraint (fun row x => -row.sign * x / largestMagnitude z) z

/-- A certificate is given exactly when scale and margin are positive numbers. -/
theorem certificate?_eq_some_iff {c : Certificate Exact} :
    r.certificate? z = some c ↔
      (Scalar.isFinite (largestMagnitude z) = true ∧ 0.0 < largestMagnitude z) ∧
      (Scalar.isFinite (r.scaledMargin z) = true ∧ 0.0 < r.scaledMargin z) ∧
      c = ⟨r.scaledRay z, r.scaledMargin z⟩ := by
  have hunfold : r.certificate? z =
      if !(Scalar.isFinite (largestMagnitude z) && 0.0 < largestMagnitude z) then none
      else if !(Scalar.isFinite (r.scaledMargin z) && 0.0 < r.scaledMargin z) then none
      else some ⟨r.scaledRay z, r.scaledMargin z⟩ := by
    rw [scaledMargin, commonDot_program]
    rfl
  rw [hunfold]
  split_ifs with hscale hmargin
  · refine iff_of_false nofun fun ⟨⟨hfinite, hpositive⟩, _⟩ => ?_
    rw [hfinite, decide_eq_true hpositive] at hscale
    cases hscale
  · refine iff_of_false nofun fun ⟨_, ⟨hfinite, hpositive⟩, _⟩ => ?_
    rw [hfinite, decide_eq_true hpositive] at hmargin
    cases hmargin
  · simp only [Bool.not_eq_true', Bool.not_eq_false, Bool.and_eq_true, decide_eq_true_eq]
      at hscale hmargin
    exact ⟨fun h => ⟨hscale, hmargin, (Option.some.inj h).symm⟩, fun h => congrArg some h.2.2.symm⟩

theorem dot_program (hr : r.WellFormed) (hz : IsFiniteVector r.rows.length z) :
    dot r.program.b.size r.program.b z = number (r.combine (coordinate z) (·.b.toRat)) := by
  have hb := isFiniteVector_b hr
  rw [size_b, dot_eq hb hz, combine_eq_sum _ _ (coordinate r.program.b) fun i row => coordinate_b]
  simp only [mul_comm]

theorem commonDot_eq (hr : r.WellFormed) (hz : IsFiniteVector r.rows.length z) :
    commonDot r.program.b z = number (r.combine (coordinate z) (·.b.toRat)) := by
  have hterms : ∀ p ∈ r.rows.zipIdx, p.1.b * number (coordinate z p.2) =
      number (coordinate z p.2 * p.1.b.toRat) := by
    intro p hp
    have hrow := List.mem_of_getElem? (List.mem_zipIdx_iff_getElem?.mp hp)
    obtain ⟨b, hb⟩ := Exact.isFinite_iff.mp (isOver_of_mem_rows hr hrow).b
    rw [hb, Exact.number_mul, Exact.toRat_number, mul_comm]
  rw [commonDot_program, zip_toList_eq hz, List.map_map]
  refine (congrArg Scalar.sum (List.map_congr_left hterms)).trans ?_
  rw [Exact.sum_map_number]
  rfl

theorem combine_b_neg (hr : r.WellFormed) (h : r.program.IsRay z) :
    r.combine (coordinate z) (·.b.toRat) < 0 := by
  have hdot := h.negative
  rwa [dot_program hr (size_b r ▸ h.multipliers), Exact.zero_eq, Exact.number_lt] at hdot

theorem largestMagnitude_pos (hr : r.WellFormed) (h : r.program.IsRay z) :
    ∃ t : ℚ, largestMagnitude z = number t ∧ 0 < t ∧ (∀ x ∈ z, |x.toRat| ≤ t) ∧
      ∃ x ∈ z, |x.toRat| = t := by
  have hz : IsFiniteVector r.rows.length z := size_b r ▸ h.multipliers
  have hnegative := combine_b_neg hr h
  obtain ⟨t, ht, hnonneg, hbound, hattained⟩ := largestMagnitude_eq hz
  have hpositive : 0 < t := by
    refine hnonneg.lt_of_ne fun hzero => hnegative.ne ?_
    refine List.sum_eq_zero fun term hterm => ?_
    obtain ⟨⟨row, i⟩, hmem, rfl⟩ := List.mem_map.mp hterm
    have hi : i < z.size :=
      (List.getElem?_eq_some_iff.mp (List.mem_zipIdx_iff_getElem?.mp hmem)).choose.trans_eq
        hz.size.symm
    have hcoordinate : coordinate z i = z[i].toRat := by simp [coordinate, Scalar.entry, hi]
    have hsmall := hbound z[i] (Array.getElem_mem hi)
    rw [← hzero, abs_nonpos_iff] at hsmall
    simp only [hcoordinate, hsmall, zero_mul]
  exact ⟨t, ht, hpositive, hbound, hattained hpositive⟩

/-- Multipliers that balance no slack bound what a feasible point lets the right-hand sides gain. -/
theorem margin_le_of_isRay (hr : r.WellFormed) (h : r.program.IsRay z)
    (hrows : ∀ row ∈ r.rows, row.HoldsAt δ y) :
    -r.combine (coordinate z) (·.b.toRat) ≤ r.combine (coordinate z) (·.shift δ) := by
  have hz : IsFiniteVector r.rows.length z := size_b r ▸ h.multipliers
  have hweak := combine_le (nonneg_of_dualContains hz h.dualCone) hrows
  have hbalanced : ∀ j ∈ Finset.range r.model.vars.size,
      r.combine (coordinate z) (fun row => coefficientOf row.coefficients j) * y j = 0 := by
    intro j hj
    have hlt : j < r.program.q.size := (Finset.mem_range.mp hj).trans_eq (size_q r).symm
    have hzero := h.stationary j hlt
    rw [vecMul_program hr hz (Finset.mem_range.mp hj), Exact.zero_eq, Exact.number.injEq] at hzero
    rw [hzero, zero_mul]
  rw [combine_add, ← sum_combine_coefficients hr, Finset.sum_eq_zero hbalanced] at hweak
  linarith

/-- What is read for the ray from a row and its multiplier. -/
theorem read_scaledRay {t : ℚ} (ht : largestMagnitude z = number t) (hpositive : 0 < t) :
    ∀ row ∈ r.rows, ∀ q, -row.sign * number q / largestMagnitude z =
      number (-(row.sign.toRat * q) / t) := by
  intro row hrow q
  obtain ⟨s, hs, -⟩ := sign_of_mem_rows hrow
  rw [hs, ht, Exact.neg_number, Exact.number_mul, Exact.number_div _ hpositive.ne',
    Exact.toRat_number, neg_mul]

/-- Signs have the magnitude one, so the ray is as large as the scaled multipliers at most. -/
theorem abs_scaledRay_le (hz : IsFiniteVector r.rows.length z) {t : ℚ}
    (ht : largestMagnitude z = number t) (hpositive : 0 < t) (hbound : ∀ x ∈ z, |x.toRat| ≤ t) :
    ∀ v ∈ r.scaledRay z, Scalar.abs v ≤ 1.0 := by
  intro v hv
  obtain ⟨c, hc, rfl⟩ := Array.mem_iff_getElem.mp hv
  rcases getElem?_perConstraint (Array.getElem?_eq_getElem hc) with hzero | ⟨p, hp, -, hvalue⟩
  · rw [show (r.scaledRay z)[c] = number 0 from hzero, Exact.abs_number, Exact.one_eq]
    simp
  · obtain ⟨hrow, hmem⟩ := List.of_mem_zip hp
    rw [Array.mem_toList_iff] at hmem
    obtain ⟨s, hs, hsign⟩ := sign_of_mem_rows hrow
    have hsmall : |p.2.toRat| / t ≤ 1 := (div_le_one hpositive).mpr (hbound p.2 hmem)
    have hentry : (r.scaledRay z)[c] = number (-(s * p.2.toRat) / t) := by
      refine Eq.trans hvalue ?_
      conv_lhs => rw [← Exact.number_toRat (hz.finite p.2 hmem)]
      rw [read_scaledRay ht hpositive p.1 hrow, hs, Exact.toRat_number]
    rw [hentry, Exact.abs_number, Exact.one_eq, Exact.number_le, abs_div, abs_neg, abs_mul,
      hsign, one_mul, abs_of_pos hpositive]
    exact hsmall

theorem isRefutedBy_of_isRay (hr : r.WellFormed) (h : r.program.IsRay z) :
    r.certificate? z = some ⟨r.scaledRay z, r.scaledMargin z⟩ ∧
      r.IsRefutedBy ⟨r.scaledRay z, r.scaledMargin z⟩ := by
  have hz : IsFiniteVector r.rows.length z := size_b r ▸ h.multipliers
  obtain ⟨t, ht, hpositive, hbound, -⟩ := largestMagnitude_pos hr h
  have hmargin : r.scaledMargin z = number (-r.combine (coordinate z) (·.b.toRat) / t) := by
    rw [scaledMargin, commonDot_eq hr hz, ht, Exact.neg_number,
      Exact.number_div _ hpositive.ne']
  have hgain : 0 < -r.combine (coordinate z) (·.b.toRat) / t :=
    div_pos (neg_pos.mpr (combine_b_neg hr h)) hpositive
  have hfinite : Scalar.isFinite (r.scaledMargin z) = true ∧ 0.0 < r.scaledMargin z := by
    rw [hmargin, Exact.zero_eq, Exact.number_lt]
    exact ⟨Exact.isFinite_number _, hgain⟩
  have hray := sum_perConstraint hz (fun row x => -row.sign * x / largestMagnitude z) t
    (read_scaledRay ht hpositive)
  refine ⟨certificate?_eq_some_iff.mpr ⟨?_, hfinite, rfl⟩, ?_⟩
  · rw [ht, Exact.zero_eq, Exact.number_lt]
    exact ⟨Exact.isFinite_number t, hpositive⟩
  refine ⟨(hray 0).1, hfinite, abs_scaledRay_le hz ht hpositive hbound,
    fun rhs point hrhs hpoint => ?_⟩
  have hbalance := margin_le_of_isRay hr h fun row hrow => holdsAt_of_feasible hr hrhs hpoint hrow
  have hchange := changeAlong_eq (hray 0).1 hr.model.rightHandSides hrhs
  rw [(hray _).2] at hchange
  rw [show changeAlong (r.scaledRay z) r.model.rightHandSides rhs = _ from hchange, hmargin,
    Exact.number_add, Exact.zero_eq, Exact.number_le, ← add_div]
  exact div_nonpos_of_nonpos_of_nonneg (by linarith) hpositive.le

/-- The scaled multipliers of a ray are at most one in magnitude, and one of them is that large. -/
theorem scaled_multipliers (hr : r.WellFormed) (h : r.program.IsRay z) :
    (∀ x ∈ z, Scalar.abs (x / largestMagnitude z) ≤ 1.0) ∧
      ∃ x ∈ z, Scalar.abs (x / largestMagnitude z) = 1.0 := by
  have hz : IsFiniteVector r.rows.length z := size_b r ▸ h.multipliers
  obtain ⟨t, ht, hpositive, hbound, x, hx, hxt⟩ := largestMagnitude_pos hr h
  have hdiv : ∀ x ∈ z, Scalar.abs (x / largestMagnitude z) = number (|x.toRat| / t) := by
    intro x hx
    conv_lhs => rw [← Exact.number_toRat (hz.finite x hx), ht]
    rw [Exact.number_div _ hpositive.ne', Exact.abs_number, abs_div, abs_of_pos hpositive]
  refine ⟨fun y hy => ?_, x, hx, ?_⟩
  · rw [hdiv y hy, Exact.one_eq, Exact.number_le]
    exact (div_le_one hpositive).mpr (hbound y hy)
  · rw [hdiv x hx, hxt, div_self hpositive.ne', Exact.one_eq]

/-- Every ray gives a certificate that refutes the relaxation at all right-hand sides that are not
met, scaled to a largest multiplier of one; and no multipliers give one without a positive scaled
margin. -/
theorem certificates_are_valid (hr : r.WellFormed) :
    (∀ z, r.program.IsRay z → ∃ c, r.certificate? z = some c ∧ r.IsRefutedBy c ∧
      c.ray = r.scaledRay z ∧ (∀ x ∈ z, Scalar.abs (x / largestMagnitude z) ≤ 1.0) ∧
      ∃ x ∈ z, Scalar.abs (x / largestMagnitude z) = 1.0) ∧
    ∀ z c, r.certificate? z = some c →
      0.0 < -commonDot r.program.b z / largestMagnitude z := by
  refine ⟨fun z h => ?_, fun z c h => (certificate?_eq_some_iff.mp h).2.1.2⟩
  obtain ⟨hsome, hrefuted⟩ := isRefutedBy_of_isRay hr h
  exact ⟨_, hsome, hrefuted, rfl, scaled_multipliers hr h⟩

/-- A source with a capacity of two is to meet a demand of three. -/
def unmetDemand : Relaxation Exact where
  model :=
    { vars := #[.continuous "source" (some (number 0)) none]
      constraints := #[
        ⟨"demand", ⟨#[(0, number 1)], number 1⟩, .atLeast, number 4⟩,
        ⟨"limit", ⟨#[(0, number 1)], number 0⟩, .atMost, number 5⟩]
      objective := ⟨#[(0, number 1)], number 0⟩
      quadratic := #[]
      expressions := .empty }
  lower := #[number 0]
  upper := #[number 2]
  active := #[true, true]
  feasibilityOnly := false

theorem unmetDemand_certificate_valid :
    unmetDemand.program.IsRay #[number 2, number 0, number 0, number 2] ∧
      unmetDemand.certificate? #[number 2, number 0, number 0, number 2] =
        some ⟨#[number 1, number 0], number 1⟩ ∧
      unmetDemand.IsRefutedBy ⟨#[number 1, number 0], number 1⟩ := by
  have hray : unmetDemand.program.IsRay #[number 2, number 0, number 0, number 2] := by
    decide +kernel
  have hvalue : unmetDemand.certificate? #[number 2, number 0, number 0, number 2] =
      some ⟨#[number 1, number 0], number 1⟩ := by decide +kernel
  obtain ⟨c, hc, hrefuted, -⟩ := (certificates_are_valid (by decide +kernel)).1 _ hray
  obtain rfl := Option.some.inj (hvalue.symm.trans hc)
  exact ⟨hray, hvalue, hrefuted⟩

end Relaxation

end BendersPlanning

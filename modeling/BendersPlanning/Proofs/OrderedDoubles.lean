import BendersPlanning.Proofs.OrderedScalars
import Mathlib

/-!
# Doubles in order

Doubles obey the laws of an `OrderedScalar`, so statements over these hold of the arithmetic that the
program computes in, rounding included. The laws are read off the place of each value in the order,
`Double.rank?`.
-/

namespace BendersPlanning

open Scalar (isUndefined)

namespace Double

open Float.Model (UnpackedFloat)

/-- The place of a double in the order, by sign, exponent and mantissa; none for the value that is
no number. -/
def rank? : UnpackedFloat → Option (ℤ ×ₗ ℤ ×ₗ ℤ)
  | .notANumber => none
  | .infinity .negative => some (toLex (-2, toLex (0, 0)))
  | .finite .negative mantissa exponent _ => some (toLex (-1, toLex (-exponent, -mantissa)))
  | .zero _ => some (toLex (0, toLex (0, 0)))
  | .finite .positive mantissa exponent _ => some (toLex (1, toLex (exponent, mantissa)))
  | .infinity .positive => some (toLex (2, toLex (0, 0)))

theorem compare_eq_lt_iff {a b : UnpackedFloat} :
    a.compare b = some .lt ↔ ∃ r ∈ rank? a, ∃ s ∈ rank? b, r < s := by
  have hless {e f : ℤ} {m n : ℕ} :
      (compare e f).then (compare m n) = .lt ↔ e < f ∨ e = f ∧ m < n := by
    rw [Ordering.then_eq_lt, compare_lt_iff_lt, compare_eq_iff_eq, compare_lt_iff_lt]
  have hgreater {e f : ℤ} {m n : ℕ} :
      (compare e f).then (compare m n) = .gt ↔ f < e ∨ e = f ∧ n < m := by
    rw [Ordering.then_eq_gt, compare_gt_iff_gt, compare_eq_iff_eq, compare_gt_iff_gt]
  rcases a with (_ | _) | _ | _ | ⟨(_ | _), m, e, hm⟩ <;>
    rcases b with (_ | _) | _ | _ | ⟨(_ | _), n, f, hn⟩ <;>
    simp [UnpackedFloat.compare, rank?, Prod.Lex.toLex_lt_toLex, hless, hgreater]
  rfl

theorem compare_isLE_iff {a b : UnpackedFloat} :
    (a.compare b).any (·.isLE) = true ↔ ∃ r ∈ rank? a, ∃ s ∈ rank? b, r ≤ s := by
  have hless {e f : ℤ} {m n : ℕ} :
      ((compare e f).then (compare m n)).isLE = true ↔ e < f ∨ e = f ∧ m ≤ n := by
    rw [← Ordering.ne_gt_iff_isLE, Ordering.then_eq_gt, compare_gt_iff_gt, compare_eq_iff_eq,
      compare_gt_iff_gt]
    omega
  have hgreater {e f : ℤ} {m n : ℕ} :
      ((compare e f).then (compare m n)).isGE = true ↔ f < e ∨ e = f ∧ n ≤ m := by
    rw [← Ordering.ne_lt_iff_isGE, Ordering.then_eq_lt, compare_lt_iff_lt, compare_eq_iff_eq,
      compare_lt_iff_lt]
    omega
  rcases a with (_ | _) | _ | _ | ⟨(_ | _), m, e, hm⟩ <;>
    rcases b with (_ | _) | _ | _ | ⟨(_ | _), n, f, hn⟩ <;>
    simp [UnpackedFloat.compare, rank?, Prod.Lex.toLex_le_toLex, hless, hgreater] <;> rfl

theorem compare_self_iff {a : UnpackedFloat} : a.compare a = some .eq ↔ (rank? a).isSome := by
  rcases a with (_ | _) | _ | _ | ⟨(_ | _), m, e, hm⟩ <;>
    simp [UnpackedFloat.compare, rank?] <;> rfl

variable {x y : Float}

theorem lt_iff :
    x < y ↔ ∃ r ∈ rank? x.toModel.unpack, ∃ s ∈ rank? y.toModel.unpack, r < s := by
  rw [← compare_eq_lt_iff]
  change decide (Float.Model.lt x.toModel y.toModel = true) = true ↔ _
  simp [Float.Model.lt, UnpackedFloat.lt]

theorem le_iff :
    x ≤ y ↔ ∃ r ∈ rank? x.toModel.unpack, ∃ s ∈ rank? y.toModel.unpack, r ≤ s := by
  rw [← compare_isLE_iff]
  change decide (Float.Model.le x.toModel y.toModel = true) = true ↔ _
  rw [decide_eq_true_iff]
  rfl

theorem isUndefined_eq_false_iff :
    isUndefined x = false ↔ (rank? x.toModel.unpack).isSome := by
  rw [← compare_self_iff]
  change (!Float.Model.beq x.toModel x.toModel) = false ↔ _
  simp [Float.Model.beq, UnpackedFloat.beq]

end Double

instance : OrderedScalar Float where
  defined_of_lt h := by
    obtain ⟨r, hr, s, hs, -⟩ := Double.lt_iff.mp h
    exact ⟨Double.isUndefined_eq_false_iff.mpr (Option.isSome_of_mem hr),
      Double.isUndefined_eq_false_iff.mpr (Option.isSome_of_mem hs)⟩
  lt_asymm h h' := by
    obtain ⟨r, hr, s, hs, hlt⟩ := Double.lt_iff.mp h
    obtain ⟨s', hs', r', hr', hlt'⟩ := Double.lt_iff.mp h'
    obtain rfl := Option.mem_unique hr hr'
    obtain rfl := Option.mem_unique hs hs'
    exact lt_asymm hlt hlt'
  lt_of_lt_of_not_lt h hz hnot := by
    obtain ⟨r, hr, s, hs, hlt⟩ := Double.lt_iff.mp h
    obtain ⟨t, ht⟩ := Option.isSome_iff_exists.mp (Double.isUndefined_eq_false_iff.mp hz)
    refine Double.lt_iff.mpr ⟨r, hr, t, ht, hlt.trans_le (not_lt.mp fun hts => hnot ?_)⟩
    exact Double.lt_iff.mpr ⟨t, ht, s, hs, hts⟩
  zero_lt_infinity := by decide +kernel
  one_finite := by decide +kernel

instance : LinearScalar Float where
  not_lt_of_le h hlt := by
    obtain ⟨r, hr, s, hs, hle⟩ := Double.le_iff.mp h
    obtain ⟨s', hs', r', hr', hlt'⟩ := Double.lt_iff.mp hlt
    obtain rfl := Option.mem_unique hr hr'
    obtain rfl := Option.mem_unique hs hs'
    exact hlt'.not_ge hle
  le_of_not_lt hx hy hnot := by
    obtain ⟨r, hr⟩ := Option.isSome_iff_exists.mp (Double.isUndefined_eq_false_iff.mp hx)
    obtain ⟨s, hs⟩ := Option.isSome_iff_exists.mp (Double.isUndefined_eq_false_iff.mp hy)
    refine Double.le_iff.mpr ⟨r, hr, s, hs, not_lt.mp fun hlt => hnot ?_⟩
    exact Double.lt_iff.mpr ⟨s, hs, r, hr, hlt⟩
  zero_lt_one := by decide +kernel
  neg_one_finite := by decide +kernel

end BendersPlanning

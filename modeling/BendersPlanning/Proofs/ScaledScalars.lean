import BendersPlanning.Proofs.RoundedScalars

/-!
# Scalars that are not scaled to zero

What the entries of a sparse matrix need of the arithmetic: one, its opposite and two take nothing but
zero to zero. Of doubles this is so because a product with a factor of at least one in magnitude is no
smaller than the least double, and rounding and packing keep the leading bit of such a value
(`Double.roundWithAccuracy_bounds`, `Double.unpack_pack_finite_ne_zero`).
-/

namespace BendersPlanning

namespace Double

open Float.Model (UnpackedFloat Format totalExponent)
open Float.Model.UnpackedFloat

variable {m : ℕ} {e : ℤ} {s : Sign} {x y : Float}

theorem mantissa_shiftRight (em : ExtendedMantissa) (n : ℕ) :
    (em >>> n).mantissa = em.mantissa / 2 ^ n := by
  induction n with
  | zero => exact (Nat.div_one _).symm
  | succ n ih =>
    have hstep : (em >>> (n + 1)).mantissa = (em >>> n).mantissa / 2 := rfl
    rw [hstep, ih, Nat.div_div_eq_div_mul, Nat.pow_succ]

theorem mantissa_le_roundedMantissa (em : ExtendedMantissa) :
    em.mantissa ≤ em.roundedMantissa := by
  unfold ExtendedMantissa.roundedMantissa Accuracy.roundToNearestEven
  split <;> omega

/-- Shifting keeps the leading bit of a value that is no smaller than the least double. -/
theorem shiftToTargetExponent_bounds (accuracy : Accuracy) (hm : 0 < m)
    (he : -1074 ≤ (m.log2 : ℤ) + e) :
    0 < (shiftToTargetExponent .binary64 m e accuracy).1.mantissa ∧
      (shiftToTargetExponent .binary64 m e accuracy).1.mantissa < 2 ^ 53 ∧
      -1074 ≤ (shiftToTargetExponent .binary64 m e accuracy).2 := by
  let k := (Format.binary64.targetExponent (totalExponent m e) - e).toNat
  have hk : k = (max ((m.log2 : ℤ) + 1 + e - 53) (-1074) - e).toNat := rfl
  have hmantissa : (shiftToTargetExponent .binary64 m e accuracy).1.mantissa = m / 2 ^ k := by
    refine (mantissa_shiftRight _ _).trans ?_
    cases accuracy with
    | exact => rfl
    | inexact o => cases o <;> rfl
  have hexponent : (shiftToTargetExponent .binary64 m e accuracy).2 = e + k := rfl
  rw [hmantissa, hexponent]
  refine ⟨Nat.div_pos ?_ (Nat.two_pow_pos k), Nat.div_lt_of_lt_mul ?_, by omega⟩
  · exact (Nat.pow_le_pow_right two_pos (by omega)).trans (Nat.log2_self_le hm.ne')
  · rw [← Nat.pow_add]
    exact Nat.lt_log2_self.trans_le (Nat.pow_le_pow_right two_pos (by omega))

/-- Rounding shifts twice, and neither time does it lose the leading bit. -/
theorem roundWithAccuracy_bounds (accuracy : Accuracy) (hm : 0 < m)
    (he : -1074 ≤ (m.log2 : ℤ) + e) :
    ∃ m' e' hm', roundWithAccuracy .binary64 s m e accuracy = .finite s m' e' hm' ∧
      m' < 2 ^ 53 ∧ -1074 ≤ e' := by
  obtain ⟨hpos, -, hleast⟩ := shiftToTargetExponent_bounds accuracy hm he
  have hrounded := mantissa_le_roundedMantissa (shiftToTargetExponent .binary64 m e accuracy).1
  obtain ⟨hpos', hlt', hleast'⟩ := shiftToTargetExponent_bounds .exact
    (m := (shiftToTargetExponent .binary64 m e accuracy).1.roundedMantissa)
    (e := (shiftToTargetExponent .binary64 m e accuracy).2) (by omega) (by omega)
  exact ⟨_, _, hpos', dif_neg hpos'.ne', hlt', hleast'⟩

theorem unpack_packComponents_ne_zero {f : BitVec 11} {n : BitVec 52} (h : f = 0#11 → n ≠ 0#52)
    (s t : Sign) : UnpackedFloat.unpack .binary64 (packComponents .binary64 s f n) ≠ .zero t := by
  simp only [UnpackedFloat.unpack, unpackExponent_packComponents, unpackMantissa_packComponents]
  split_ifs with hlast hmantissa hfirst hmantissa
  · simp
  · simp
  · exact absurd hmantissa (h hfirst)
  all_goals simp

/-- A value with a mantissa is packed with a mantissa, or as an infinity. -/
theorem unpack_pack_finite_ne_zero {hm : 0 < m} (hlt : m < 2 ^ 53) (he : -1074 ≤ e) (t : Sign) :
    UnpackedFloat.unpack .binary64 (UnpackedFloat.pack .binary64 (.finite s m e hm)) ≠ .zero t := by
  rw [UnpackedFloat.pack]
  split_ifs with hinfinite hnormal
  · exact unpack_packComponents_ne_zero (by simp) s t
  · refine unpack_packComponents_ne_zero (fun hexponent => ?_) s t
    have hnat : (e + 1023 + 52).toNat % 2048 = 0 := congrArg BitVec.toNat hexponent
    have hbits : ¬2048 ≤ (e + 1023 + 52).toNat + 1 := hinfinite
    omega
  · refine unpack_packComponents_ne_zero (fun _ hmantissa => ?_) s t
    have hnat : m % 2 ^ 52 = 0 := congrArg BitVec.toNat hmantissa
    have hlog : m.log2 ≠ 52 := fun h => hnormal (congrArg (· + 1) h)
    have hbits : m.log2 < 53 := (Nat.log2_lt hm.ne').mpr hlt
    have hsmall : m < 2 ^ 52 := (Nat.log2_lt hm.ne').mp (by omega)
    omega

/-- No double has a smaller exponent than the least one. -/
theorem exponent_of_unpack {b : BitVec 64} {hm : 0 < m}
    (hb : UnpackedFloat.unpack .binary64 b = .finite s m e hm) : -1074 ≤ e := by
  rw [UnpackedFloat.unpack] at hb
  have hbias : ((Format.binary64.exponentBias : ℕ) : ℤ) = 1023 := rfl
  have hmantissaBits : (Format.binary64.mantissaBitsWithoutImplicit : ℤ) = 52 := rfl
  split_ifs at hb with hlast hmantissa hfirst hmantissa <;>
    obtain ⟨-, -, rfl⟩ := UnpackedFloat.finite.inj hb
  · omega
  · have hpositive : (@unpackExponent .binary64 b).toNat ≠ 0 := fun hzero =>
      hfirst (BitVec.eq_of_toNat_eq hzero)
    omega

theorem beq_zero_iff : (x == 0.0) = true ↔ ∃ s, x.toModel.unpack = .zero s := by
  have hzero : rank? (0.0 : Float).toModel.unpack = some (toLex (0, toLex (0, 0))) := rfl
  rw [beq_iff_rank, hzero]
  rcases x.toModel.unpack with (_ | _) | _ | _ | ⟨(_ | _), m, e, hm⟩ <;> simp [rank?]

theorem unpack_mul : (x * y).toModel.unpack =
    unpack .binary64 (pack .binary64 (mul .binary64 x.toModel.unpack y.toModel.unpack)) := rfl

/-- A factor of at least one in magnitude does not round to zero. -/
theorem mul_ne_zero_of_unpack (hpos : 0 < 2 ^ 52) {f : ℤ} (hf : -52 ≤ f)
    (hx : x.toModel.unpack = .finite s (2 ^ 52) f hpos) (hy : (y == 0.0) = false) :
    (x * y == 0.0) = false := by
  rw [Bool.eq_false_iff, ne_eq, beq_zero_iff] at hy ⊢
  rw [unpack_mul, hx]
  rintro ⟨t, ht⟩
  cases hu : y.toModel.unpack with
  | infinity t' | notANumber =>
    rw [hu] at ht
    exact unpack_packComponents_ne_zero (by simp) _ t ht
  | zero t' => exact hy ⟨t', hu⟩
  | finite t' n g hn =>
    rw [hu] at ht
    have hleast := exponent_of_unpack hu
    have hlog : 52 ≤ (2 ^ 52 * n).log2 :=
      (Nat.le_log2 (by positivity)).mpr (Nat.le_mul_of_pos_right _ hn)
    obtain ⟨m', e', hm', hround, hlt, he'⟩ := roundWithAccuracy_bounds .exact (s := s * t')
      (m := 2 ^ 52 * n) (e := f + g) (by positivity) (by omega)
    have hproduct : mul .binary64 (.finite s (2 ^ 52) f hpos) (.finite t' n g hn) =
        .finite (s * t') m' e' hm' := hround
    rw [hproduct] at ht
    exact unpack_pack_finite_ne_zero hlt he' t ht

end Double

/-- Scalars that the factors of rows and squares do not take to zero. -/
class ScaledScalar (K : Type) [Scalar K] : Prop extends RoundedScalar K where
  neg_one_ne_zero : ((-1.0 : K) == 0.0) = false
  mul_ne_zero {factor x : K} : factor = 1.0 ∨ factor = -1.0 ∨ factor = 2.0 →
    (x == 0.0) = false → (factor * x == 0.0) = false

instance : ScaledScalar Exact where
  neg_one_ne_zero := by decide +kernel
  mul_ne_zero {factor x} hfactor hx := by
    have hnumber : ∃ a : ℚ, a ≠ 0 ∧ factor = .number a := by
      rcases hfactor with rfl | rfl | rfl
      · exact ⟨1, one_ne_zero, Exact.one_eq⟩
      · exact ⟨-1, by norm_num, by rw [Exact.one_eq, Exact.neg_number]⟩
      · exact ⟨2, two_ne_zero, Exact.two_eq⟩
    obtain ⟨a, ha, rfl⟩ := hnumber
    rw [Exact.zero_eq] at hx ⊢
    change Exact.isSame (Exact.mul (.number a) x) (.number 0) = false
    cases x with
    | number q =>
      have hq : q ≠ 0 := by simpa using hx
      simpa [Exact.mul, Exact.isSame] using mul_ne_zero ha hq
    | infinity | negInfinity =>
      simp only [Exact.mul, Exact.signed]
      split_ifs <;> rfl
    | undefined => rfl

instance : ScaledScalar Float where
  neg_one_ne_zero := by decide +kernel
  mul_ne_zero {factor x} hfactor hx := by
    have hpos : 0 < 2 ^ 52 := by decide
    rcases hfactor with rfl | rfl | rfl
    · exact Double.mul_ne_zero_of_unpack hpos (f := -52) le_rfl (s := .positive) (by rfl) hx
    · exact Double.mul_ne_zero_of_unpack hpos (f := -52) le_rfl (s := .negative) (by rfl) hx
    · exact Double.mul_ne_zero_of_unpack hpos (f := -51) (by decide) (s := .positive) (by rfl) hx

end BendersPlanning

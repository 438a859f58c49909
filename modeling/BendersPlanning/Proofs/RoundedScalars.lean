import BendersPlanning.Proofs.ExtendedScalars

/-!
# Scalars that stay numbers

What a distance of bounds needs of the arithmetic: the difference of finite values and the quotient
by a positive one are numbers again. Rounding may take them to an infinity, never to the value that is
no number. Of doubles this is so because packing keeps numbers apart from it
(`Double.unpack_pack_ne`), whatever rounding has made of them.
-/

namespace BendersPlanning

open Scalar (isFinite isUndefined)

/-- Scalars whose equality is that of the order, and which stay numbers where nothing is divided by
zero. -/
class RoundedScalar (K : Type) [Scalar K] : Prop extends ExtendedScalar K where
  zero_lt_tiny : (0.0 : K) < 1e-10
  beq_iff {x y : K} : (x == y) = true ↔
    (isUndefined x = false ∧ isUndefined y = false) ∧ ¬x < y ∧ ¬y < x
  sub_defined {x y : K} : isFinite x = true → isFinite y = true → isUndefined (x - y) = false
  div_defined {x y : K} : isUndefined x = false → 0.0 < y → y < Scalar.infinity →
    isUndefined (x / y) = false

section Finite
variable {K : Type} [Scalar K] [OrderedScalar K] {x : K}

theorem isUndefined_of_isFinite (h : isFinite x = true) : isUndefined x = false := by
  rw [isFinite, decide_eq_true_iff, Scalar.abs] at h
  split_ifs at h with hnegative
  · exact (OrderedScalar.defined_of_lt hnegative).1
  · exact (OrderedScalar.defined_of_lt h).1

/-- The magnitude of a finite value is positive unless it is tiny. -/
theorem abs_bounds {tiny : K} (htiny : 0.0 < tiny) (hx : isFinite x = true)
    (h : ¬Scalar.abs x < tiny) : 0.0 < Scalar.abs x ∧ Scalar.abs x < Scalar.infinity := by
  rw [isFinite, decide_eq_true_iff] at hx
  exact ⟨OrderedScalar.lt_of_lt_of_not_lt htiny (OrderedScalar.defined_of_lt hx).1 h, hx⟩

end Finite

instance : RoundedScalar Exact where
  zero_lt_tiny := by decide +kernel
  beq_iff {x y} := by
    change Exact.isSame x y = true ↔
      ((!Exact.isSame x x) = false ∧ (!Exact.isSame y y) = false) ∧
        ¬Exact.isBelow x y = true ∧ ¬Exact.isBelow y x = true
    cases x <;> cases y <;> simp [Exact.isSame, Exact.isBelow]
    exact le_antisymm_iff.trans and_comm
  sub_defined hx hy := by
    obtain ⟨a, rfl⟩ := Exact.isFinite_iff.mp hx
    obtain ⟨b, rfl⟩ := Exact.isFinite_iff.mp hy
    rw [Exact.number_sub, Exact.isUndefined_number]
  div_defined {x y} hx hpositive hfinite := by
    cases y with
    | number b =>
      rw [Exact.zero_eq, Exact.number_lt] at hpositive
      cases x with
      | number a => rw [Exact.number_div a hpositive.ne', Exact.isUndefined_number]
      | infinity =>
        change isUndefined (if b < 0 then Exact.negInfinity else .infinity) = false
        rw [if_neg hpositive.le.not_gt, Exact.isUndefined_infinity]
      | negInfinity =>
        change isUndefined (if b < 0 then Exact.infinity else .negInfinity) = false
        rw [if_neg hpositive.le.not_gt, Exact.isUndefined_negInfinity]
      | undefined => cases hx
    | infinity => exact absurd hfinite (ExtendedScalar.not_infinity_lt _)
    | negInfinity => exact absurd hpositive (ExtendedScalar.not_lt_neg_infinity _)
    | undefined => cases (OrderedScalar.defined_of_lt hpositive).2

namespace Double

open Float.Model (UnpackedFloat)
open Float.Model.UnpackedFloat (packComponents)

variable {x y : Float} {a b : UnpackedFloat}

theorem rank?_eq_none_iff : rank? a = none ↔ a = .notANumber := by
  rcases a with (_ | _) | _ | _ | ⟨(_ | _), m, e, hm⟩ <;> simp [rank?]

theorem isUndefined_eq_false_iff_unpack :
    isUndefined x = false ↔ x.toModel.unpack ≠ .notANumber := by
  rw [isUndefined_eq_false_iff, ← Option.ne_none_iff_isSome, ne_eq, rank?_eq_none_iff]

theorem unpack_packComponents_ne (s : UnpackedFloat.Sign) (e : BitVec 11) (m : BitVec 52)
    (h : e = -1#11 → m = 0#52) :
    UnpackedFloat.unpack .binary64 (packComponents .binary64 s e m) ≠ .notANumber := by
  simp only [UnpackedFloat.unpack, UnpackedFloat.unpackExponent_packComponents,
    UnpackedFloat.unpackMantissa_packComponents]
  split_ifs with he hm
  · simp
  · exact absurd (h he) hm
  all_goals simp

/-- Numbers are packed as numbers, those with too great an exponent as infinities. -/
theorem unpack_pack_ne (h : a ≠ .notANumber) :
    UnpackedFloat.unpack .binary64 (UnpackedFloat.pack .binary64 a) ≠ .notANumber := by
  fun_cases UnpackedFloat.pack .binary64 a with
  | case1 => exact absurd rfl h
  | case2 s => exact unpack_packComponents_ne s _ _ fun _ => rfl
  | case3 s => exact unpack_packComponents_ne s _ _ fun _ => rfl
  | case4 s => exact unpack_packComponents_ne s _ _ fun _ => rfl
  | case5 s m e hm actual biased hsmall hnormal =>
    refine unpack_packComponents_ne s _ _ fun hexponent => ?_
    have hnat : biased % 2048 = 2047 := congrArg BitVec.toNat hexponent
    have hbits : 2 ^ Float.Model.Format.binary64.exponentBits = 2048 := rfl
    omega
  | case6 s m e hm actual biased hsmall hnormal =>
    exact unpack_packComponents_ne s _ _ fun hexponent => absurd hexponent (by decide)

theorem roundWithAccuracy_ne {spec : Float.Model.Format} {s : UnpackedFloat.Sign} {m : ℕ} {e : ℤ}
    {accuracy : UnpackedFloat.Accuracy} :
    UnpackedFloat.roundWithAccuracy spec s m e accuracy ≠ .notANumber := by
  unfold UnpackedFloat.roundWithAccuracy
  dsimp only
  split_ifs <;> simp

theorem normalize_ne {spec : Float.Model.Format} {m e : ℤ} {s : UnpackedFloat.Sign} :
    UnpackedFloat.normalize spec m e s ≠ .notANumber := by
  unfold UnpackedFloat.normalize UnpackedFloat.round
  split
  · exact roundWithAccuracy_ne
  · simp
  · exact roundWithAccuracy_ne

/-- Only an infinite operand can leave no number as a difference of numbers. -/
theorem sub_ne (ha : a ≠ .notANumber) (hb : b ≠ .notANumber) (hfinite : ∀ s, a ≠ .infinity s) :
    UnpackedFloat.sub .binary64 a b ≠ .notANumber := by
  cases a with
  | notANumber => exact absurd rfl ha
  | infinity s => exact absurd rfl (hfinite s)
  | zero s =>
    cases b with
    | notANumber => exact absurd rfl hb
    | zero t => cases s <;> cases t <;> exact nofun
    | _ => simp [UnpackedFloat.sub]
  | finite s m e hm =>
    cases b with
    | notANumber => exact absurd rfl hb
    | finite t n f hn => exact normalize_ne
    | _ => simp [UnpackedFloat.sub]

/-- A number over one with a mantissa is a number. -/
theorem div_ne {s : UnpackedFloat.Sign} {m : ℕ} {e : ℤ} {hm : 0 < m} (ha : a ≠ .notANumber) :
    UnpackedFloat.div .binary64 a (.finite s m e hm) ≠ .notANumber := by
  cases a with
  | notANumber => exact absurd rfl ha
  | finite t n f hn => exact roundWithAccuracy_ne
  | _ => simp [UnpackedFloat.div]

theorem compare_eq_eq_iff : a.compare b = some .eq ↔ ∃ r ∈ rank? a, r ∈ rank? b := by
  have hsame {e f : ℤ} {m n : ℕ} :
      (compare e f).then (compare m n) = .eq ↔ e = f ∧ m = n := by
    rw [Ordering.then_eq_eq, compare_eq_iff_eq, compare_eq_iff_eq]
  rcases a with (_ | _) | _ | _ | ⟨(_ | _), m, e, hm⟩ <;>
    rcases b with (_ | _) | _ | _ | ⟨(_ | _), n, f, hn⟩ <;>
    simp [UnpackedFloat.compare, rank?, hsame]
  case infinity.negative.infinity.negative | infinity.positive.infinity.positive => rfl
  all_goals exact and_congr eq_comm eq_comm

theorem beq_iff_rank : (x == y) = true ↔
    ∃ r ∈ rank? x.toModel.unpack, r ∈ rank? y.toModel.unpack := by
  rw [← compare_eq_eq_iff]
  change Float.Model.beq x.toModel y.toModel = true ↔ _
  simp [Float.Model.beq, UnpackedFloat.beq]

theorem unpack_ne_infinity (hx : isFinite x = true) (s : UnpackedFloat.Sign) :
    x.toModel.unpack ≠ .infinity s := by
  intro hs
  cases s with
  | positive =>
    obtain rfl : x = Scalar.infinity := eq_of_unpack_eq (hs.trans (by rfl))
    rw [isFinite_infinity] at hx
    cases hx
  | negative =>
    obtain rfl : x = -Scalar.infinity := eq_of_unpack_eq (hs.trans (by rfl))
    rw [ExtendedScalar.neg_infinity_infinite] at hx
    cases hx

/-- A positive double is infinite or has a mantissa. -/
theorem exists_unpack_eq_finite (hpositive : 0.0 < y) (hfinite : y < Scalar.infinity) :
    ∃ s m e hm, y.toModel.unpack = .finite s m e hm := by
  obtain ⟨r, hr, q, hq, hlt⟩ := lt_iff.mp hpositive
  have hzero : rank? (0.0 : Float).toModel.unpack = some (toLex (0, toLex (0, 0))) := by rfl
  obtain rfl := Option.some.inj (hzero.symm.trans hr)
  cases hy : y.toModel.unpack with
  | notANumber => simp [hy, rank?] at hq
  | zero s =>
    obtain rfl : toLex (0, toLex (0, 0)) = q := by simpa [hy, rank?] using hq
    exact absurd hlt (lt_irrefl _)
  | infinity s =>
    have hmagnitude : isFinite y = true := by
      rw [isFinite, decide_eq_true_iff, Scalar.abs, if_neg (OrderedScalar.lt_asymm hpositive)]
      exact hfinite
    exact absurd hy (unpack_ne_infinity hmagnitude s)
  | finite s m e hm => exact ⟨s, m, e, hm, rfl⟩

end Double

instance : RoundedScalar Float where
  zero_lt_tiny := by decide +kernel
  beq_iff {x y} := by
    rw [Double.beq_iff_rank, Double.isUndefined_eq_false_iff, Double.isUndefined_eq_false_iff,
      Double.lt_iff, Double.lt_iff]
    cases Double.rank? x.toModel.unpack <;> cases Double.rank? y.toModel.unpack <;> simp
    exact le_antisymm_iff
  sub_defined {x y} hx hy := by
    rw [Double.isUndefined_eq_false_iff_unpack]
    refine Double.unpack_pack_ne (Double.sub_ne ?_ ?_ (Double.unpack_ne_infinity hx))
    · exact Double.isUndefined_eq_false_iff_unpack.mp (isUndefined_of_isFinite hx)
    · exact Double.isUndefined_eq_false_iff_unpack.mp (isUndefined_of_isFinite hy)
  div_defined {x y} hx hpositive hfinite := by
    obtain ⟨s, m, e, hm, hy⟩ := Double.exists_unpack_eq_finite hpositive hfinite
    rw [Double.isUndefined_eq_false_iff_unpack]
    refine Double.unpack_pack_ne ?_
    rw [hy]
    exact Double.div_ne (Double.isUndefined_eq_false_iff_unpack.mp hx)

end BendersPlanning

import BendersPlanning.Proofs.OrderedDoubles

/-!
# Scalars between two infinities

What reading values back needs to know of those that are not finite: the infinite ones are the two ends
of the order, and whatever is a number but not finite is one of them. Exact numbers obey these laws, and
so do doubles, which are negated by packing their parts anew (`Double.unpack_neg`).
-/

namespace BendersPlanning

open Scalar (isFinite isUndefined)

/-- Scalars in order whose ends are the two infinities. -/
class ExtendedScalar (K : Type) [Scalar K] : Prop extends LinearScalar K where
  neg_infinity_defined : isUndefined (-Scalar.infinity : K) = false
  neg_infinity_infinite : isFinite (-Scalar.infinity : K) = false
  not_infinity_lt (x : K) : ¬Scalar.infinity < x
  not_lt_neg_infinity (x : K) : ¬x < -Scalar.infinity
  infinite_cases {x : K} : isUndefined x = false → isFinite x = false →
    x = Scalar.infinity ∨ x = -Scalar.infinity

section Ends
variable {K : Type} [Scalar K] [ExtendedScalar K]

theorem infinity_ne_neg : (Scalar.infinity : K) ≠ -Scalar.infinity := fun h =>
  ExtendedScalar.not_lt_neg_infinity (0.0 : K) (h ▸ OrderedScalar.zero_lt_infinity)

theorem isFinite_infinity : isFinite (Scalar.infinity : K) = false := by
  rw [isFinite, Scalar.abs, if_neg (ExtendedScalar.not_infinity_lt _)]
  exact decide_eq_false (lt_irrefl_scalar _)

end Ends

instance : ExtendedScalar Exact where
  neg_infinity_defined := rfl
  neg_infinity_infinite := by decide +kernel
  not_infinity_lt x h := by
    change Exact.isBelow .infinity x = true at h
    cases x <;> cases h
  not_lt_neg_infinity x h := by
    change Exact.isBelow x .negInfinity = true at h
    cases x <;> cases h
  infinite_cases {x} hdefined hinfinite := by
    cases x with
    | number q => simp at hinfinite
    | infinity => exact .inl rfl
    | negInfinity => exact .inr rfl
    | undefined => cases hdefined

namespace Double

open Float.Model (UnpackedFloat)
open Float.Model.UnpackedFloat (packComponents)

variable {x y : Float}

theorem eq_of_unpack_eq (h : x.toModel.unpack = y.toModel.unpack) : x = y := by
  obtain ⟨⟨⟨a⟩, ha⟩⟩ := x
  obtain ⟨⟨⟨b⟩, hb⟩⟩ := y
  obtain rfl : a = b := (UnpackedFloat.unpack_inj_of_valid ha hb).mp h
  rfl

/-- The sign is a part of its own: turning it turns that of the unpacked value. -/
theorem unpack_packComponents_neg (s : UnpackedFloat.Sign) (e : BitVec 11) (m : BitVec 52) :
    UnpackedFloat.unpack .binary64 (packComponents .binary64 (-s) e m) =
      (UnpackedFloat.unpack .binary64 (packComponents .binary64 s e m)).neg := by
  simp only [UnpackedFloat.unpack, UnpackedFloat.unpackExponent_packComponents,
    UnpackedFloat.unpackMantissa_packComponents, UnpackedFloat.unpackSign_packComponents,
    UnpackedFloat.Sign.ofBitVec_toBitVec]
  split_ifs <;> rfl

theorem unpack_neg (hx : isUndefined x = false) :
    (-x).toModel.unpack = x.toModel.unpack.neg := by
  obtain ⟨⟨⟨b⟩, hb⟩⟩ := x
  have hnumber : UnpackedFloat.unpack .binary64 b ≠ .notANumber := by
    intro hnone
    have hsome := isUndefined_eq_false_iff.mp hx
    simp only [Float.Model.unpack, hnone, rank?, Option.isSome_none] at hsome
    cases hsome
  change UnpackedFloat.unpack .binary64
    (UnpackedFloat.pack .binary64 (UnpackedFloat.unpack .binary64 b).neg) =
      (UnpackedFloat.unpack .binary64 b).neg
  have hparts :=
    @UnpackedFloat.packComponents_unpackSign_unpackExponent_unpackMantissa .binary64 b
  have hturned := unpack_packComponents_neg (.ofBitVec (@UnpackedFloat.unpackSign .binary64 b))
    (@UnpackedFloat.unpackExponent .binary64 b) (@UnpackedFloat.unpackMantissa .binary64 b)
  rw [hparts] at hturned
  rw [← hturned, UnpackedFloat.pack_unpack_of_valid]
  refine ⟨fun he hm => (hnumber ?_).elim⟩
  rw [UnpackedFloat.unpackExponent_packComponents] at he
  rw [UnpackedFloat.unpackMantissa_packComponents] at hm
  simp [UnpackedFloat.unpack, he, hm]

theorem rank?_infinity :
    rank? (Scalar.infinity : Float).toModel.unpack = some (toLex (2, toLex (0, 0))) := rfl

theorem rank?_neg_infinity :
    rank? (-Scalar.infinity : Float).toModel.unpack = some (toLex (-2, toLex (0, 0))) := rfl

theorem rank_bounds {a : UnpackedFloat} {r : ℤ ×ₗ ℤ ×ₗ ℤ} (h : rank? a = some r) :
    toLex (-2, toLex (0, 0)) ≤ r ∧ r ≤ toLex (2, toLex (0, 0)) := by
  rcases a with (_ | _) | _ | _ | ⟨(_ | _), m, e, hm⟩ <;> simp [rank?] at h <;> subst h <;>
    simp [Prod.Lex.toLex_le_toLex]

/-- Zero and the numbers with a mantissa are finite. -/
theorem isFinite_of_unpack (hx : isUndefined x = false)
    (h : ∀ s, x.toModel.unpack ≠ .infinity s) : isFinite x = true := by
  suffices hbelow : ∀ y : Float, (y.toModel.unpack = x.toModel.unpack ∨
      y.toModel.unpack = x.toModel.unpack.neg) → y < Scalar.infinity by
    rw [isFinite, decide_eq_true_eq, Scalar.abs]
    split_ifs
    · exact hbelow _ (.inr (unpack_neg hx))
    · exact hbelow _ (.inl rfl)
  intro y hy
  have hnumber := isUndefined_eq_false_iff.mp hx
  rw [lt_iff, rank?_infinity]
  generalize x.toModel.unpack = u at hy h hnumber
  rcases u with s | _ | s | ⟨s, m, e, hm⟩
  · exact (h s rfl).elim
  · cases hnumber
  all_goals
    rcases hy with hy | hy <;> rw [hy] <;> cases s <;>
      exact ⟨_, rfl, _, rfl, by simp [Prod.Lex.toLex_lt_toLex]⟩

end Double

instance : ExtendedScalar Float where
  neg_infinity_defined := by decide +kernel
  neg_infinity_infinite := by decide +kernel
  not_infinity_lt x h := by
    obtain ⟨r, hr, s, hs, hlt⟩ := Double.lt_iff.mp h
    obtain rfl := Option.some.inj (Double.rank?_infinity.symm.trans hr)
    exact hlt.not_ge (Double.rank_bounds hs).2
  not_lt_neg_infinity x h := by
    obtain ⟨r, hr, s, hs, hlt⟩ := Double.lt_iff.mp h
    obtain rfl := Option.some.inj (Double.rank?_neg_infinity.symm.trans hs)
    exact hlt.not_ge (Double.rank_bounds hr).1
  infinite_cases {x} hdefined hinfinite := by
    by_contra hnot
    push Not at hnot
    refine Bool.eq_false_iff.mp hinfinite (Double.isFinite_of_unpack hdefined fun s hs => ?_)
    cases s with
    | positive => exact hnot.1 (Double.eq_of_unpack_eq (hs.trans (by rfl)))
    | negative => exact hnot.2 (Double.eq_of_unpack_eq (hs.trans (by rfl)))

end BendersPlanning

import BendersPlanning.Proofs.ExactArithmetic
import Mathlib.Data.List.Induction

/-!
# Scalars in order

What the bookkeeping of a run needs to know of its numbers: values that are numbers are in a linear
order up to equal ones, and infinity is above zero. What building a model checks also speaks of `≤`,
which has to be the rest of that order (`LinearScalar`). Exact numbers obey these laws, and so do
doubles.
-/

namespace BendersPlanning

open Scalar (isFinite isUndefined)

/-- Comparisons that put the values which are numbers in order. -/
class OrderedScalar (K : Type) [Scalar K] : Prop where
  defined_of_lt {x y : K} : x < y → isUndefined x = false ∧ isUndefined y = false
  lt_asymm {x y : K} : x < y → ¬y < x
  lt_of_lt_of_not_lt {x y z : K} : x < y → isUndefined z = false → ¬z < y → x < z
  zero_lt_infinity : (0.0 : K) < Scalar.infinity
  one_finite : isFinite (1.0 : K) = true

instance : OrderedScalar Exact where
  defined_of_lt := Exact.isUndefined_of_lt
  lt_asymm h := Exact.not_lt_of_le (.inl h)
  lt_of_lt_of_not_lt h hz hnot :=
    Exact.lt_of_lt_of_le h (Exact.le_of_not_lt (Exact.isUndefined_of_lt h).2 hz hnot)
  zero_lt_infinity := by decide +kernel
  one_finite := by decide +kernel

/-- Scalars in order whose `≤` holds of just the numbers that are not the other way round. -/
class LinearScalar (K : Type) [Scalar K] : Prop extends OrderedScalar K where
  not_lt_of_le {x y : K} : x ≤ y → ¬y < x
  le_of_not_lt {x y : K} : isUndefined x = false → isUndefined y = false → ¬y < x → x ≤ y
  zero_lt_one : (0.0 : K) < 1.0
  neg_one_finite : isFinite (-1.0 : K) = true

instance : LinearScalar Exact where
  not_lt_of_le := Exact.not_lt_of_le
  le_of_not_lt := Exact.le_of_not_lt
  zero_lt_one := by decide +kernel
  neg_one_finite := by decide +kernel

theorem Scalar.isFinite_zero {K : Type} [Scalar K] [OrderedScalar K] :
    isFinite (0.0 : K) = true := by
  have hnot : ¬(0.0 : K) < 0.0 := fun h => OrderedScalar.lt_asymm h h
  simpa [isFinite, Scalar.abs, hnot] using OrderedScalar.zero_lt_infinity

section Bounds
variable {K : Type} [Scalar K]

/-- The greatest of some bounds, minus infinity without one; values that are no numbers are passed
over. -/
def greatest (bounds : List K) : K := bounds.foldl Scalar.larger (-Scalar.infinity)

/-- The least of some bounds, infinity without one; values that are no numbers are passed over. -/
def least (bounds : List K) : K := bounds.foldl Scalar.smaller Scalar.infinity

@[simp] theorem greatest_concat (bounds : List K) (x : K) :
    greatest (bounds ++ [x]) = Scalar.larger (greatest bounds) x := by
  simp [greatest]

@[simp] theorem least_concat (bounds : List K) (x : K) :
    least (bounds ++ [x]) = Scalar.smaller (least bounds) x := by
  simp [least]

variable [OrderedScalar K] {x y z : K} {bounds : List K}

theorem lt_irrefl_scalar (x : K) : ¬x < x := fun h => OrderedScalar.lt_asymm h h

theorem isUndefined_infinity : isUndefined (Scalar.infinity : K) = false :=
  (OrderedScalar.defined_of_lt OrderedScalar.zero_lt_infinity).2

/-- A smaller number takes the place of a number, and nothing else does. -/
theorem smaller_of_defined (hx : isUndefined x = false) :
    Scalar.smaller x y = if y < x then y else x := by
  unfold Scalar.smaller
  rw [hx, if_neg Bool.false_ne_true]
  by_cases hlt : y < x
  · rw [(OrderedScalar.defined_of_lt hlt).1, if_neg Bool.false_ne_true]
  · simp [hlt]

theorem isUndefined_smaller (hx : isUndefined x = false) :
    isUndefined (Scalar.smaller x y) = false := by
  rw [smaller_of_defined hx]
  split_ifs with hlt
  · exact (OrderedScalar.defined_of_lt hlt).1
  · exact hx

theorem isUndefined_least (bounds : List K) : isUndefined (least bounds) = false := by
  induction bounds using List.reverseRecOn with
  | nil => exact isUndefined_infinity
  | append_singleton bounds x ih =>
    rw [least_concat]
    exact isUndefined_smaller ih

theorem least_concat_eq (bounds : List K) (x : K) :
    least (bounds ++ [x]) = if x < least bounds then x else least bounds := by
  rw [least_concat, smaller_of_defined (isUndefined_least bounds)]

/-- Neither infinity nor any of the bounds is below the least one. -/
theorem not_lt_least (hx : x ∈ Scalar.infinity :: bounds) : ¬x < least bounds := by
  induction bounds using List.reverseRecOn with
  | nil => exact List.mem_singleton.mp hx ▸ lt_irrefl_scalar _
  | append_singleton bounds y ih =>
    rw [least_concat_eq]
    intro hlt
    rw [← List.cons_append] at hx
    rcases List.mem_append.mp hx with hx | hx
    · split_ifs at hlt with hy
      · exact ih hx (OrderedScalar.lt_of_lt_of_not_lt hlt (isUndefined_least bounds)
          (OrderedScalar.lt_asymm hy))
      · exact ih hx hlt
    · obtain rfl := List.mem_singleton.mp hx
      split_ifs at hlt with hy
      · exact lt_irrefl_scalar x hlt
      · exact hy hlt

theorem least_eq_infinity (h : ∀ x ∈ bounds, ¬x < Scalar.infinity) :
    least bounds = Scalar.infinity := by
  induction bounds using List.reverseRecOn with
  | nil => rfl
  | append_singleton bounds y ih =>
    obtain ⟨hbounds, hy⟩ := List.forall_mem_append.mp h
    rw [least_concat_eq, ih hbounds, if_neg (hy y (List.mem_singleton_self y))]

end Bounds

end BendersPlanning

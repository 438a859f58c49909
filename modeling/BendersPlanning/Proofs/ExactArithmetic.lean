import BendersPlanning.Scalar.Exact
import Mathlib.Algebra.Order.Field.Basic
import Mathlib.Algebra.Order.Field.Rat
import Mathlib.Tactic.Linarith
import Mathlib.Tactic.NormNum

/-!
# Arithmetic of exact numbers

Between finite values the operations and comparisons of `Exact` are those of the rationals. Every
statement about models is proved by first moving it to rationals with the lemmas of this file; the
infinities and the value that is no number only occur as bounds and as what a bound is before the
first iteration.
-/

namespace BendersPlanning

namespace Exact

variable {a b : ℚ} {x y z : Exact}

/-- The rational of a finite value; the other values count as zero. -/
def toRat : Exact → ℚ
  | number q => q
  | _ => 0

@[simp] theorem toRat_number (q : ℚ) : (number q).toRat = q := rfl

@[simp] theorem number_add (a b : ℚ) : (number a + number b : Exact) = number (a + b) := rfl

theorem add_number_zero (x : Exact) : x + number 0 = x := by
  cases x with
  | number q => exact congrArg number (add_zero q)
  | infinity | negInfinity | undefined => rfl

protected theorem zero_add (x : Exact) : number 0 + x = x := by
  change add (number 0) x = x
  cases x <;> simp [add]

/-- Sums may be bracketed at will, also those with opposite infinities. -/
protected theorem add_assoc (x y z : Exact) : x + y + z = x + (y + z) := by
  change add (add x y) z = add x (add y z)
  cases x <;> cases y <;> cases z <;> simp [add, Rat.add_assoc]

protected theorem add_comm (x y : Exact) : x + y = y + x := by
  change add x y = add y x
  cases x <;> cases y <;> simp [add, Rat.add_comm]

instance : Std.Associative (α := Exact) (· + ·) := ⟨Exact.add_assoc⟩

instance : Std.Commutative (α := Exact) (· + ·) := ⟨Exact.add_comm⟩

protected theorem one_mul (x : Exact) : number 1 * x = x := by
  change mul (number 1) x = x
  cases x <;> simp [mul, signed]

protected theorem neg_one_mul (x : Exact) : number (-1) * x = -x := by
  change mul (number (-1)) x = neg x
  cases x <;> simp [mul, neg, signed]

protected theorem mul_comm (x y : Exact) : x * y = y * x := by
  change mul x y = mul y x
  cases x <;> cases y <;> simp [mul, neg, Rat.mul_comm]

/-- A finite factor distributes over all sums, also those with opposite infinities. -/
theorem number_mul_add (a : ℚ) (x y : Exact) :
    number a * (x + y) = number a * x + number a * y := by
  change mul (number a) (add x y) = add (mul (number a) x) (mul (number a) y)
  cases x <;> cases y <;> grind [add, mul, signed, neg]

theorem add_mul_number (x y : Exact) (a : ℚ) :
    (x + y) * number a = x * number a + y * number a := by
  rw [Exact.mul_comm, number_mul_add, Exact.mul_comm x, Exact.mul_comm y]

theorem number_mul_assoc (a : ℚ) (x y : Exact) : number a * x * y = number a * (x * y) := by
  change mul (mul (number a) x) y = mul (number a) (mul x y)
  cases x <;> cases y <;> grind [mul, signed, neg, mul_neg_iff, mul_eq_zero]

@[simp] theorem neg_number (a : ℚ) : (-number a : Exact) = number (-a) := rfl

@[simp] theorem number_sub (a b : ℚ) : (number a - number b : Exact) = number (a - b) :=
  congrArg number (sub_eq_add_neg a b).symm

@[simp] theorem number_mul (a b : ℚ) : (number a * number b : Exact) = number (a * b) := rfl

theorem number_div (a : ℚ) (hb : b ≠ 0) : (number a / number b : Exact) = number (a / b) :=
  if_neg hb

@[simp] theorem zero_eq : (0.0 : Exact) = number 0 := by
  change number (Rat.ofScientific 0 true 1) = number 0
  norm_num [Rat.ofScientific_def]

@[simp] theorem one_eq : (1.0 : Exact) = number 1 := by
  change number (Rat.ofScientific 10 true 1) = number 1
  norm_num [Rat.ofScientific_def, Rat.mkRat_eq_div]

@[simp] theorem two_eq : (2.0 : Exact) = number 2 := by
  change number (Rat.ofScientific 20 true 1) = number 2
  norm_num [Rat.ofScientific_def, Rat.mkRat_eq_div]

theorem tiny_eq : (1e-10 : Exact) = number (1 / 10 ^ 10) := by
  change number (Rat.ofScientific 1 true 10) = number (1 / 10 ^ 10)
  norm_num [Rat.ofScientific_def, Rat.mkRat_eq_div]

theorem nano_eq : (1e-9 : Exact) = number (1 / 10 ^ 9) := by
  change number (Rat.ofScientific 1 true 9) = number (1 / 10 ^ 9)
  norm_num [Rat.ofScientific_def, Rat.mkRat_eq_div]

@[simp] theorem scalar_infinity : (Scalar.infinity : Exact) = infinity := rfl

@[simp] theorem scalar_undefined : (Scalar.undefined : Exact) = undefined := rfl

@[simp] theorem neg_infinity : (-infinity : Exact) = negInfinity := rfl

@[simp] theorem number_lt : (number a < number b) ↔ a < b := by
  change decide (a < b) = true ↔ a < b
  exact decide_eq_true_iff

@[simp] theorem number_le : (number a ≤ number b) ↔ a ≤ b := by
  change decide (a < b) = true ∨ isSame (number a) (number b) = true ↔ a ≤ b
  simp [isSame, le_iff_lt_or_eq]

@[simp] theorem number_beq : (number a == number b) = decide (a = b) := by
  change isSame (number a) (number b) = decide (a = b)
  simp [isSame]

@[simp] theorem negInfinity_le_number (a : ℚ) : negInfinity ≤ number a := .inl rfl

@[simp] theorem not_infinity_le_number (a : ℚ) : ¬infinity ≤ number a := by
  rintro (h | h) <;> simp [isBelow, isSame] at h

theorem le_iff_cases : x ≤ y ↔ isBelow x y = true ∨ isSame x y = true := Iff.rfl

/-- The order is transitive; a value that is no number is comparable with nothing. -/
protected theorem le_trans (hxy : x ≤ y) (hyz : y ≤ z) : x ≤ z := by
  cases x <;> cases y <;> cases z <;>
    simp_all [le_iff_cases, isBelow, isSame, ← le_iff_lt_or_eq]
  exact hxy.trans hyz

protected theorem not_lt_of_le (h : x ≤ y) : ¬y < x := by
  change ¬isBelow y x = true
  cases x <;> cases y <;> simp_all [le_iff_cases, isBelow, isSame, ← le_iff_lt_or_eq]

protected theorem lt_of_lt_of_le (hxy : x < y) (hyz : y ≤ z) : x < z := by
  change isBelow x y = true at hxy
  change isBelow x z = true
  cases x <;> cases y <;> cases z <;>
    simp_all [le_iff_cases, isBelow, isSame, ← le_iff_lt_or_eq]
  exact hxy.trans_le hyz

theorem abs_number (a : ℚ) : Scalar.abs (number a) = number |a| := by
  unfold Scalar.abs
  rw [zero_eq]
  by_cases h : a < 0
  · simp [h, abs_of_neg h]
  · simp [h, abs_of_nonneg (not_lt.mp h)]

/-- Finite magnitude means being a rational. -/
theorem isFinite_iff : Scalar.isFinite x = true ↔ ∃ q, x = number q := by
  cases x with
  | number q =>
    have h : Scalar.isFinite (number q) = true := by
      unfold Scalar.isFinite
      rw [abs_number]
      rfl
    simp [h]
  | infinity => exact iff_of_false (by decide) (by simp)
  | negInfinity => exact iff_of_false (by decide) (by simp)
  | undefined => exact iff_of_false (by decide) (by simp)

@[simp] theorem isFinite_number (q : ℚ) : Scalar.isFinite (number q) = true :=
  isFinite_iff.mpr ⟨q, rfl⟩

theorem number_toRat (h : Scalar.isFinite x = true) : number x.toRat = x := by
  obtain ⟨q, rfl⟩ := isFinite_iff.mp h
  rfl

theorem larger_le (hx : x ≤ z) (hy : y ≤ z) : Scalar.larger x y ≤ z := by
  unfold Scalar.larger
  split_ifs <;> assumption

theorem le_smaller (hy : x ≤ y) (hz : x ≤ z) : x ≤ Scalar.smaller y z := by
  unfold Scalar.smaller
  split_ifs <;> assumption

@[simp] theorem isUndefined_number (q : ℚ) : Scalar.isUndefined (number q) = false := by
  simp [Scalar.isUndefined]

@[simp] theorem isUndefined_infinity : Scalar.isUndefined infinity = false := rfl

@[simp] theorem isUndefined_negInfinity : Scalar.isUndefined negInfinity = false := rfl

theorem le_of_not_lt (hx : Scalar.isUndefined x = false) (hy : Scalar.isUndefined y = false)
    (h : ¬y < x) : x ≤ y := by
  change ¬isBelow y x = true at h
  have hnever : Scalar.isUndefined undefined = true := rfl
  cases x <;> cases y <;> simp_all [le_iff_cases, isBelow, isSame, ← le_iff_lt_or_eq]

theorem isUndefined_of_lt (hlt : x < y) :
    Scalar.isUndefined x = false ∧ Scalar.isUndefined y = false := by
  change isBelow x y = true at hlt
  cases x <;> cases y <;> simp_all [isBelow]

theorem larger_number (a b : ℚ) : Scalar.larger (number a) (number b) = number (max a b) := by
  simp only [Scalar.larger, isUndefined_number, Bool.false_eq_true, if_false, number_lt]
  split_ifs with h
  · rw [max_eq_right h.le]
  · rw [max_eq_left (not_lt.mp h)]

theorem smaller_number (a b : ℚ) : Scalar.smaller (number a) (number b) = number (min a b) := by
  simp only [Scalar.smaller, isUndefined_number, Bool.false_eq_true, if_false, number_lt]
  split_ifs with h
  · rw [min_eq_right h.le]
  · rw [min_eq_left (not_lt.mp h)]

theorem sum_number (xs : List ℚ) : Scalar.sum (xs.map number) = number xs.sum := by
  suffices h : ∀ acc, (xs.map number).foldl (· + ·) (number acc) = number (acc + xs.sum) by
    simpa [Scalar.sum] using h 0
  induction xs with
  | nil => simp
  | cons x xs ih => intro acc; simp [ih, add_assoc]

/-- A sum from any start. -/
theorem foldl_add (xs : List Exact) (x : Exact) : xs.foldl (· + ·) x = x + Scalar.sum xs := by
  have hassoc : xs.foldl (· + ·) (x + number 0) = x + xs.foldl (· + ·) (number 0) :=
    List.foldl_assoc
  rw [add_number_zero] at hassoc
  rw [hassoc, Scalar.sum, zero_eq]

theorem sum_cons (x : Exact) (xs : List Exact) :
    Scalar.sum (x :: xs) = x + Scalar.sum xs := by
  rw [Scalar.sum, List.foldl_cons, foldl_add, zero_eq, Exact.zero_add]

theorem sum_append (xs ys : List Exact) :
    Scalar.sum (xs ++ ys) = Scalar.sum xs + Scalar.sum ys :=
  List.foldl_append.trans (foldl_add ys _)

/-- The same rate for each of some values is that rate for their sum. -/
theorem foldl_add_number_mul (a : ℚ) (xs : List Exact) (x : Exact) :
    xs.foldl (fun acc y => acc + number a * y) x = x + number a * Scalar.sum xs := by
  induction xs generalizing x with
  | nil => simp [Scalar.sum, add_number_zero]
  | cons y xs ih => rw [List.foldl_cons, ih, sum_cons, number_mul_add, Exact.add_assoc]

theorem sum_map_number_mul (a : ℚ) (xs : List Exact) :
    Scalar.sum (xs.map (number a * ·)) = number a * Scalar.sum xs := by
  rw [Scalar.sum, List.foldl_map, foldl_add_number_mul, zero_eq, Exact.zero_add]

theorem sum_map_number {α : Type} (xs : List α) (f : α → ℚ) :
    Scalar.sum (xs.map fun a => number (f a)) = number (xs.map f).sum := by
  rw [← sum_number, List.map_map]
  rfl

end Exact

structure IsFiniteVector {K : Type} [Scalar K] (count : ℕ) (xs : Array K) : Prop where
  size : xs.size = count
  finite : ∀ x ∈ xs, Scalar.isFinite x = true

instance {K : Type} [Scalar K] (count : ℕ) (xs : Array K) : Decidable (IsFiniteVector count xs) :=
  decidable_of_iff (xs.size = count ∧ ∀ x ∈ xs, Scalar.isFinite x = true)
    ⟨fun h => ⟨h.1, h.2⟩, fun h => ⟨h.size, h.finite⟩⟩

section Entries
variable {K : Type} [Scalar K] {xs : Array K}

theorem entry_eq_getElem {i : ℕ} (hi : i < xs.size) : Scalar.entry xs i = xs[i] := by
  rw [Scalar.entry, Array.getElem?_eq_getElem hi, Option.getD_some]

theorem isFiniteVector_of_entries {count : ℕ} (hsize : xs.size = count)
    (h : ∀ i < count, Scalar.isFinite (Scalar.entry xs i) = true) : IsFiniteVector count xs := by
  refine ⟨hsize, fun x hx => ?_⟩
  obtain ⟨i, hi, rfl⟩ := Array.mem_iff_getElem.mp hx
  rw [← entry_eq_getElem hi]
  exact h i (hi.trans_eq hsize)

end Entries

/-- The coordinates of a point as rationals, zero outside of it. -/
def coordinate (point : Array Exact) (index : ℕ) : ℚ := (Scalar.entry point index).toRat

theorem IsFiniteVector.getElem_eq {count : ℕ} {point : Array Exact} (h : IsFiniteVector count point)
    {index : ℕ} (hi : index < point.size) : point[index] = .number (coordinate point index) := by
  rw [coordinate, entry_eq_getElem hi, Exact.number_toRat (h.finite _ (Array.getElem_mem hi))]

theorem IsFiniteVector.entry_eq {count : ℕ} {point : Array Exact} (h : IsFiniteVector count point)
    {index : ℕ} (hi : index < count) :
    Scalar.entry point index = .number (coordinate point index) := by
  have hlt : index < point.size := hi.trans_eq h.size.symm
  rw [entry_eq_getElem hlt, h.getElem_eq hlt]

end BendersPlanning

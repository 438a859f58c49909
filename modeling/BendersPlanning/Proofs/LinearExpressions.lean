import BendersPlanning.Expression
import BendersPlanning.Proofs.ExactArithmetic
import Mathlib.Algebra.BigOperators.Ring.Finset
import Mathlib.Tactic.Ring

/-!
# Linear expressions over the rationals

`termSum` is the linear part of an expression as a sum of rationals. An expression over finite
numbers evaluates to its constant plus that sum, and merging repeated terms does not change the sum.
Both facts hold for terms under any key, so they serve expressions, which name variables by
position, as well as cuts, which name them by text.
-/

namespace BendersPlanning

variable {κ : Type}

def termSum (terms : List (κ × Exact)) (x : κ → ℚ) : ℚ :=
  (terms.map fun t => t.2.toRat * x t.1).sum

@[simp] theorem termSum_nil (x : κ → ℚ) : termSum [] x = 0 := rfl

@[simp] theorem termSum_cons (t : κ × Exact) (terms : List (κ × Exact)) (x : κ → ℚ) :
    termSum (t :: terms) x = t.2.toRat * x t.1 + termSum terms x := by simp [termSum]

@[simp] theorem termSum_append (s t : List (κ × Exact)) (x : κ → ℚ) :
    termSum (s ++ t) x = termSum s x + termSum t x := by simp [termSum]

theorem termSum_congr {terms : List (κ × Exact)} {x y : κ → ℚ} (h : ∀ t ∈ terms, x t.1 = y t.1) :
    termSum terms x = termSum terms y := by
  unfold termSum
  congr 1
  exact List.map_congr_left fun t ht => by rw [h t ht]

theorem termSum_eq_zero {terms : List (κ × Exact)} (h : ∀ t ∈ terms, t.2.toRat = 0) (x : κ → ℚ) :
    termSum terms x = 0 := by
  apply List.sum_eq_zero
  intro y hy
  obtain ⟨t, ht, rfl⟩ := List.mem_map.mp hy
  rw [h t ht, zero_mul]

theorem termSum_sub (terms : List (κ × Exact)) (x y : κ → ℚ) :
    termSum terms (fun k => x k - y k) = termSum terms x - termSum terms y := by
  induction terms with
  | nil => simp
  | cons t terms ih => simp only [termSum_cons, ih]; ring

theorem termSum_sum (terms : List (κ × Exact)) (indices : Finset ℕ) (f : ℕ → κ → ℚ) :
    termSum terms (fun k => ∑ i ∈ indices, f i k) = ∑ i ∈ indices, termSum terms (f i) := by
  induction terms with
  | nil => simp
  | cons t terms ih => simp only [termSum_cons, ih, Finset.mul_sum, Finset.sum_add_distrib]

theorem termSum_mul (terms : List (κ × Exact)) (c : ℚ) (x : κ → ℚ) :
    termSum terms (fun k => x k * c) = termSum terms x * c := by
  induction terms with
  | nil => simp
  | cons t terms ih => simp only [termSum_cons, ih]; ring

/-- The coefficient that terms give to one variable, repeated ones added up. -/
def coefficientOf (terms : List (ℕ × Exact)) (variableId : ℕ) : ℚ :=
  termSum terms fun v => if v = variableId then 1 else 0

theorem coefficientOf_cons (t : ℕ × Exact) (terms : List (ℕ × Exact)) (j : ℕ) :
    coefficientOf (t :: terms) j = (if t.1 = j then t.2.toRat else 0) + coefficientOf terms j := by
  rw [coefficientOf, termSum_cons, mul_ite, mul_one, mul_zero]
  rfl

/-- Terms on the first `count` variables are a sum over these variables. -/
theorem sum_coefficientOf (terms : List (ℕ × Exact)) {count : ℕ}
    (h : ∀ t ∈ terms, t.1 < count) (x : ℕ → ℚ) :
    ∑ j ∈ Finset.range count, coefficientOf terms j * x j = termSum terms x := by
  simp only [coefficientOf, ← termSum_mul, ← termSum_sum]
  refine termSum_congr fun t ht => ?_
  simp [Finset.mem_range.mpr (h t ht)]

def AreFiniteTerms (terms : List (κ × Exact)) : Prop := ∀ t ∈ terms, Scalar.isFinite t.2 = true

theorem AreFiniteTerms.of_cons {t : κ × Exact} {terms : List (κ × Exact)}
    (h : AreFiniteTerms (t :: terms)) : Scalar.isFinite t.2 = true ∧ AreFiniteTerms terms :=
  List.forall_mem_cons.mp h

/-- The sum of terms at finite values, whatever numbers the terms are. -/
def sumAt (terms : List (κ × Exact)) (x : κ → ℚ) : Exact :=
  Scalar.sum (terms.map fun t => t.2 * .number (x t.1))

theorem sumAt_nil (x : κ → ℚ) : sumAt [] x = .number 0 := Exact.zero_eq

theorem sumAt_cons (t : κ × Exact) (terms : List (κ × Exact)) (x : κ → ℚ) :
    sumAt (t :: terms) x = t.2 * .number (x t.1) + sumAt terms x := by
  rw [sumAt, List.map_cons, Exact.sum_cons, sumAt]

theorem AreFiniteTerms.sumAt_eq {terms : List (κ × Exact)} (h : AreFiniteTerms terms) (x : κ → ℚ) :
    sumAt terms x = .number (termSum terms x) := by
  rw [sumAt, termSum, ← Exact.sum_map_number]
  congr 1
  refine List.map_congr_left fun t ht => ?_
  rw [← Exact.number_mul, Exact.number_toRat (h t ht)]

section Merging
variable [LT κ] [DecidableLT κ]

/-- Adding a number to the entry at a key, which is zero where there is none yet. -/
def addAt (amount : Exact) : Option Exact → Exact := fun old => old.getD 0.0 + amount

theorem addAt_none (amount : Exact) : addAt amount none = amount := by
  rw [addAt, Option.getD_none, Exact.zero_eq, Exact.zero_add]

theorem AreFiniteTerms.alterEntries {terms : List (κ × Exact)} (h : AreFiniteTerms terms) (key : κ)
    (amount : ℚ) : AreFiniteTerms (SortedMap.alterEntries key (addAt (.number amount)) terms) := by
  induction terms with
  | nil => simp [SortedMap.alterEntries, addAt_none, AreFiniteTerms]
  | cons t rest ih =>
    obtain ⟨k, v⟩ := t
    obtain ⟨hv, hrest⟩ := h.of_cons
    simp only [SortedMap.alterEntries]
    split_ifs
    · exact List.forall_mem_cons.mpr ⟨by simp [addAt_none], h⟩
    · exact List.forall_mem_cons.mpr ⟨hv, ih hrest⟩
    · obtain ⟨q, hq⟩ := Exact.isFinite_iff.mp hv
      obtain rfl : v = .number q := hq
      exact List.forall_mem_cons.mpr ⟨by simp [addAt], hrest⟩

variable [LE κ] [Std.IsLinearOrder κ] [Std.LawfulOrderLT κ]

theorem sumAt_alterEntries (key : κ) (amount : Exact) (terms : List (κ × Exact)) (x : κ → ℚ) :
    sumAt (SortedMap.alterEntries key (addAt amount) terms) x =
      amount * .number (x key) + sumAt terms x := by
  induction terms with
  | nil => rw [SortedMap.alterEntries, sumAt_cons, addAt_none]
  | cons t rest ih =>
    obtain ⟨k, v⟩ := t
    simp only [SortedMap.alterEntries]
    split_ifs with h₁ h₂
    · rw [sumAt_cons, addAt_none]
    · rw [sumAt_cons, ih, sumAt_cons]
      ac_rfl
    · have hk : k = key := Std.le_antisymm (Std.not_lt.mp h₁) (Std.not_lt.mp h₂)
      subst hk
      rw [sumAt_cons, sumAt_cons, addAt, Option.getD_some, Exact.add_mul_number]
      ac_rfl

/-- Merging terms into a map one after the other adds up their coefficients under each key, so that
the sum is kept, also where coefficients are infinite. -/
theorem sumAt_foldl_alter (terms : List (κ × Exact)) (m : SortedMap κ Exact) (x : κ → ℚ) :
    sumAt (terms.foldl (fun m t => m.alter t.1 fun old => old.getD 0.0 + t.2) m).entries x =
      sumAt m.entries x + sumAt terms x := by
  induction terms generalizing m with
  | nil => rw [List.foldl_nil, sumAt_nil, Exact.add_number_zero]
  | cons t terms ih =>
    rw [List.foldl_cons, ih, SortedMap.alter, sumAt_cons]
    exact (congrArg (· + sumAt terms x) (sumAt_alterEntries t.1 t.2 m.entries x)).trans (by ac_rfl)

theorem termSum_foldl_alter (terms : List (κ × Exact)) (hterms : AreFiniteTerms terms)
    (m : SortedMap κ Exact) (hm : AreFiniteTerms m.entries) (x : κ → ℚ) :
    let merged := terms.foldl (fun m t => m.alter t.1 fun old => old.getD 0.0 + t.2) m
    AreFiniteTerms merged.entries ∧
      termSum merged.entries x = termSum m.entries x + termSum terms x := by
  have hfinite : AreFiniteTerms
      (terms.foldl (fun m t => m.alter t.1 fun old => old.getD 0.0 + t.2) m).entries := by
    induction terms generalizing m with
    | nil => exact hm
    | cons t terms ih =>
      obtain ⟨ht, hrest⟩ := hterms.of_cons
      obtain ⟨q, hq⟩ := Exact.isFinite_iff.mp ht
      rw [List.foldl_cons, hq]
      exact ih hrest _ (hm.alterEntries t.1 q)
  refine ⟨hfinite, Exact.number.inj ?_⟩
  rw [← hfinite.sumAt_eq, sumAt_foldl_alter, hm.sumAt_eq, hterms.sumAt_eq, Exact.number_add]

/-- Merging terms brings in their keys and no others. -/
theorem mem_keys_foldl_alter (terms : List (κ × Exact)) (m : SortedMap κ Exact) {k : κ} :
    k ∈ (terms.foldl (fun m t => m.alter t.1 fun old => old.getD 0.0 + t.2) m).keys ↔
      k ∈ m.keys ∨ k ∈ terms.map (·.1) := by
  induction terms generalizing m with
  | nil => simp
  | cons t terms ih =>
    rw [List.foldl_cons, ih, SortedMap.mem_keys_alter, List.map_cons, List.mem_cons, or_assoc,
      or_left_comm]

end Merging

namespace Expression

section Shape
variable {K : Type} [Scalar K]

/-- Terms on the first `count` variables, and finite numbers only. -/
structure IsOver (e : Expression K) (count : ℕ) : Prop where
  terms : ∀ t ∈ e.terms, t.1 < count ∧ Scalar.isFinite t.2 = true
  constant : Scalar.isFinite e.constant = true

instance (e : Expression K) (count : ℕ) : Decidable (e.IsOver count) :=
  decidable_of_iff ((∀ t ∈ e.terms, t.1 < count ∧ Scalar.isFinite t.2 = true) ∧
      Scalar.isFinite e.constant = true)
    ⟨fun h => ⟨h.1, h.2⟩, fun h => ⟨h.terms, h.constant⟩⟩

theorem IsOver.mono {e : Expression K} {m n : ℕ} (h : e.IsOver m) (hmn : m ≤ n) : e.IsOver n :=
  ⟨fun t ht => ⟨(h.terms t ht).1.trans_le hmn, (h.terms t ht).2⟩, h.constant⟩

theorem evaluate_congr {e : Expression K} {x y : Array K}
    (h : ∀ t ∈ e.terms, Scalar.entry x t.1 = Scalar.entry y t.1) : e.evaluate x = e.evaluate y := by
  unfold evaluate
  rw [← Array.foldl_toList, ← Array.foldl_toList]
  apply List.foldl_ext
  intro acc t ht
  simp only [h t (Array.mem_toList_iff.mp ht)]

theorem evaluate_addTerm (e : Expression K) (v : ℕ) (c : K) (point : Array K) :
    (e.addTerm v c).evaluate point = e.evaluate point + c * Scalar.entry point v := by
  simp [addTerm, evaluate]

end Shape

variable {e : Expression Exact} {count : ℕ} {point : Array Exact}

/-- The constant and the terms in any order, for exact sums may be bracketed and ordered at will. -/
theorem evaluate_eq_sum (e : Expression Exact) (point : Array Exact) : e.evaluate point =
    e.constant + Scalar.sum (e.terms.toList.map fun t => t.2 * Scalar.entry point t.1) := by
  rw [evaluate, ← Array.foldl_toList, ← Exact.foldl_add, List.foldl_map]

theorem evaluate_zero : (zero : Expression Exact).evaluate point = .number 0 := by
  simp [zero, ofConstant, evaluate]

theorem evaluate_ofVariable {v : ℕ} :
    (ofVariable v).evaluate point = Scalar.entry point v := by
  rw [ofVariable, evaluate_addTerm, evaluate_zero, Exact.zero_add, Exact.one_eq, Exact.one_mul]

/-- Adding a multiple of an expression adds that multiple of its value, at points of any length. -/
theorem evaluate_addScaled (e other : Expression Exact) (scale : ℚ) (point : Array Exact) :
    (e.addScaled other (.number scale)).evaluate point =
      e.evaluate point + .number scale * other.evaluate point := by
  have hterms : (e.addScaled other (.number scale)).terms.toList.map
      (fun t => t.2 * Scalar.entry point t.1) =
        e.terms.toList.map (fun t => t.2 * Scalar.entry point t.1) ++
          (other.terms.toList.map fun t => t.2 * Scalar.entry point t.1).map
            (.number scale * ·) := by
    simp [addScaled, Exact.number_mul_assoc, Function.comp_def]
  have hconstant : (e.addScaled other (.number scale)).constant =
      e.constant + .number scale * other.constant := rfl
  rw [evaluate_eq_sum, hterms, hconstant, Exact.sum_append, Exact.sum_map_number_mul,
    evaluate_eq_sum e, evaluate_eq_sum other, Exact.number_mul_add]
  ac_rfl

def valueAt (e : Expression Exact) (x : ℕ → ℚ) : ℚ :=
  e.constant.toRat + termSum e.terms.toList x

theorem IsOver.finiteTerms (h : e.IsOver count) : AreFiniteTerms e.terms.toList :=
  fun t ht => (h.terms t (Array.mem_toList_iff.mp ht)).2

theorem foldl_terms_eq (hp : IsFiniteVector count point) (terms : List (ℕ × Exact))
    (h : ∀ t ∈ terms, t.1 < count ∧ Scalar.isFinite t.2 = true) (acc : ℚ) :
    terms.foldl (fun acc t => acc + t.2 * Scalar.entry point t.1) (Exact.number acc) =
      .number (acc + termSum terms (coordinate point)) := by
  induction terms generalizing acc with
  | nil => simp
  | cons t terms ih =>
    obtain ⟨ht, hrest⟩ := List.forall_mem_cons.mp h
    obtain ⟨q, hq⟩ := Exact.isFinite_iff.mp ht.2
    simp only [List.foldl_cons, hq, hp.entry_eq ht.1, Exact.number_mul, Exact.number_add,
      ih hrest, termSum_cons, Exact.toRat_number, add_assoc]

/-- Evaluation at a finite point is evaluation at its coordinates. -/
theorem evaluate_eq (he : e.IsOver count) (hp : IsFiniteVector count point) :
    e.evaluate point = .number (e.valueAt (coordinate point)) := by
  obtain ⟨c, hc⟩ := Exact.isFinite_iff.mp he.constant
  have hfold := foldl_terms_eq hp e.terms.toList
    (fun t ht => he.terms t (Array.mem_toList_iff.mp ht)) c
  unfold evaluate valueAt
  rw [hc, ← Array.foldl_toList]
  exact hfold

theorem coefficients_eq (e : Expression Exact) : e.coefficients =
    e.terms.toList.foldl (fun m t => m.alter t.1 fun old => old.getD 0.0 + t.2) .empty := by
  unfold coefficients
  rw [← Array.foldl_toList]

/-- The merged coefficients are finite and give the same linear part. -/
theorem termSum_coefficients (he : e.IsOver count) (x : ℕ → ℚ) :
    AreFiniteTerms e.coefficients.entries ∧
      termSum e.coefficients.entries x = termSum e.terms.toList x := by
  have h := termSum_foldl_alter e.terms.toList he.finiteTerms .empty (by simp [AreFiniteTerms,
    SortedMap.empty]) x
  rw [coefficients_eq]
  simpa [SortedMap.empty] using h

/-- The keys of the merged coefficients are the variables of the terms. -/
theorem mem_keys_coefficients {e : Expression Exact} {v : ℕ} :
    v ∈ e.coefficients.keys ↔ v ∈ e.terms.toList.map (·.1) := by
  rw [coefficients_eq, mem_keys_foldl_alter]
  exact or_iff_right List.not_mem_nil

theorem lt_of_mem_coefficients (he : e.IsOver count) {t : ℕ × Exact}
    (ht : t ∈ e.coefficients.entries) : t.1 < count := by
  obtain ⟨s, hs, hsame⟩ := List.mem_map.mp (mem_keys_coefficients.mp (List.mem_map_of_mem ht))
  exact hsame ▸ (he.terms s (Array.mem_toList_iff.mp hs)).1

end Expression

end BendersPlanning

import BendersPlanning.Proofs.ZeroViolations
import Mathlib.Data.Finset.Sort

/-!
# Expressions built by edits

An expression is written by adding terms, constants and multiples of other expressions, in any order.
Its value is what the edits contribute, its merged coefficients stand for the same function with one
entry per variable, and no edit takes a variable out of it again: also a variable whose terms cancel
has to be covered by a point.
-/

namespace BendersPlanning

open Exact (number)
open Scalar (entry isFinite)

section Meaning
variable {K : Type}

namespace Expression

/-- One way to write on. -/
inductive Edit (K : Type) where
  | term (variableId : ℕ) (coefficient : K)
  | constant (c : K)
  | scaled (other : Expression K) (scale : K)
  deriving DecidableEq, Repr

/-- The variables of the terms, in the order and as often as they are written. -/
def variableIds (e : Expression K) : List ℕ := e.terms.toList.map (·.1)

def Edit.variableIds : Edit K → List ℕ
  | term v _ => [v]
  | constant _ => []
  | scaled other _ => other.variableIds

variable [Scalar K]

def edit (e : Expression K) : Edit K → Expression K
  | .term v c => e.addTerm v c
  | .constant c => e.addConstant c
  | .scaled other scale => e.addScaled other scale

/-- The expression that edits make of the empty one. -/
def ofEdits (edits : List (Edit K)) : Expression K := edits.foldl edit zero

namespace Edit

/-- What an edit contributes to the value at a point. -/
def gain (point : Array K) : Edit K → K
  | term v c => c * entry point v
  | constant c => c
  | scaled other scale => scale * other.evaluate point

def HasFiniteScale : Edit K → Prop
  | scaled _ scale => isFinite scale = true
  | _ => True

instance : (d : Edit K) → Decidable d.HasFiniteScale
  | scaled _ scale => inferInstanceAs (Decidable (isFinite scale = true))
  | term _ _ | constant _ => inferInstanceAs (Decidable True)

end Edit

end Expression

end Meaning

namespace Expression

section Variables
variable {K : Type} [Scalar K]

theorem variableIds_edit (e : Expression K) (d : Edit K) :
    (e.edit d).variableIds = e.variableIds ++ d.variableIds := by
  cases d <;> simp [edit, variableIds, Edit.variableIds, addTerm, addConstant, addScaled]

theorem variableIds_ofEdits (edits : List (Edit K)) :
    (ofEdits edits).variableIds = edits.flatMap Edit.variableIds := by
  suffices h : ∀ e : Expression K, (edits.foldl edit e).variableIds =
      e.variableIds ++ edits.flatMap Edit.variableIds from h zero
  induction edits with
  | nil => simp
  | cons d edits ih =>
    intro e
    rw [List.foldl_cons, ih, variableIds_edit, List.flatMap_cons, List.append_assoc]

end Variables

variable {e : Expression Exact} {point : Array Exact}

/-- An edit raises the value by what it contributes. -/
theorem evaluate_edit {d : Edit Exact} (hd : d.HasFiniteScale) (e : Expression Exact)
    (point : Array Exact) : (e.edit d).evaluate point = e.evaluate point + d.gain point := by
  cases d with
  | term v c => exact evaluate_addTerm e v c point
  | constant c =>
    have hconstant : (e.edit (.constant c)).evaluate point = e.constant + c +
        Scalar.sum (e.terms.toList.map fun t => t.2 * entry point t.1) := evaluate_eq_sum _ _
    rw [hconstant, evaluate_eq_sum e, Edit.gain]
    ac_rfl
  | scaled other scale =>
    obtain ⟨k, rfl⟩ := Exact.isFinite_iff.mp hd
    exact evaluate_addScaled e other k point

theorem evaluate_ofEdits {edits : List (Edit Exact)} (hedits : ∀ d ∈ edits, d.HasFiniteScale)
    (point : Array Exact) :
    (ofEdits edits).evaluate point = Scalar.sum (edits.map (·.gain point)) := by
  suffices h : ∀ e : Expression Exact, (edits.foldl edit e).evaluate point =
      e.evaluate point + Scalar.sum (edits.map (·.gain point)) by
    rw [ofEdits, h, evaluate_zero, Exact.zero_add]
  induction edits with
  | nil => simp [Scalar.sum, Exact.add_number_zero]
  | cons d edits ih =>
    obtain ⟨hd, hrest⟩ := List.forall_mem_cons.mp hedits
    intro e
    rw [List.foldl_cons, ih hrest, evaluate_edit hd, List.map_cons, Exact.sum_cons,
      Exact.add_assoc]

/-- The merged coefficients have one entry per variable, in ascending order. -/
theorem keys_coefficients (e : Expression Exact) :
    e.coefficients.keys = e.variableIds.toFinset.sort (· ≤ ·) := by
  have hsorted : e.coefficients.keys.Pairwise (· < ·) :=
    List.pairwise_map.mpr e.coefficients.sorted
  have hsame : e.coefficients.keys.toFinset = e.variableIds.toFinset := by
    ext v
    rw [List.mem_toFinset, List.mem_toFinset, mem_keys_coefficients, variableIds]
  rw [← hsame]
  exact ((List.toFinset_sort (· ≤ ·) (hsorted.imp fun hlt => hlt.ne)).mpr
    (hsorted.imp fun hlt => hlt.le)).symm

/-- Where a point has finite entries for all variables, merging the terms keeps the value. -/
theorem evaluate_eq_coefficients (h : ∀ v ∈ e.variableIds, isFinite (entry point v) = true) :
    e.evaluate point = e.constant +
      Scalar.sum (e.coefficients.entries.map fun t => t.2 * entry point t.1) := by
  have hread : ∀ terms : List (ℕ × Exact), (∀ t ∈ terms, t.1 ∈ e.variableIds) →
      Scalar.sum (terms.map fun t => t.2 * entry point t.1) =
        sumAt terms (coordinate point) := by
    intro terms hterms
    rw [sumAt]
    congr 1
    refine List.map_congr_left fun t ht => ?_
    rw [coordinate, Exact.number_toRat (h t.1 (hterms t ht))]
  rw [evaluate_eq_sum, hread _ fun t ht => List.mem_map_of_mem ht,
    hread _ fun t ht => mem_keys_coefficients.mp (List.mem_map_of_mem ht), coefficients_eq,
    sumAt_foldl_alter, SortedMap.empty, sumAt_nil, Exact.zero_add]

/-- A variable that a point has no entry for leaves no number, whatever its coefficients are. -/
theorem evaluate_of_uncovered {v : ℕ} (hv : v ∈ e.variableIds) (hsize : point.size ≤ v) :
    e.evaluate point = Scalar.undefined := by
  obtain ⟨t, ht, rfl⟩ := List.mem_map.mp hv
  have hentry : entry point t.1 = Scalar.undefined := by
    rw [entry, Array.getElem?_eq_none hsize, Option.getD_none]
  exact evaluate_eq_undefined (Array.mem_toList_iff.mp ht) (by rw [hentry]; rfl)

end Expression

/-- Built expressions are linear: the value is the sum of what the edits contribute, and it is the
constant and the merged coefficients, of which there is one for each variable that an edit mentions,
in ascending order. A multiple of another expression adds that multiple of its value. A point without
an entry for a mentioned variable has no value, also where the coefficients of the variable cancel. -/
theorem built_expressions_are_linear (edits : List (Expression.Edit Exact))
    (point : Array Exact) :
    ((∀ d ∈ edits, d.HasFiniteScale) →
      (Expression.ofEdits edits).evaluate point = Scalar.sum (edits.map (·.gain point))) ∧
    ((∀ v ∈ edits.flatMap (·.variableIds), isFinite (entry point v) = true) →
      (Expression.ofEdits edits).evaluate point = (Expression.ofEdits edits).constant +
        Scalar.sum ((Expression.ofEdits edits).coefficients.entries.map
          fun t => t.2 * entry point t.1)) ∧
    (Expression.ofEdits edits).coefficients.keys =
      (edits.flatMap (·.variableIds)).toFinset.sort (· ≤ ·) ∧
    (∀ (other : Expression Exact) (scale : Exact), isFinite scale = true →
      ((Expression.ofEdits edits).addScaled other scale).evaluate point =
        (Expression.ofEdits edits).evaluate point + scale * other.evaluate point) ∧
    ((∃ v ∈ edits.flatMap (·.variableIds), point.size ≤ v) →
      (Expression.ofEdits edits).evaluate point = Scalar.undefined) := by
  rw [← Expression.variableIds_ofEdits]
  refine ⟨fun hscales => Expression.evaluate_ofEdits hscales point,
    Expression.evaluate_eq_coefficients, Expression.keys_coefficients _, ?_, ?_⟩
  · intro other scale hscale
    obtain ⟨k, rfl⟩ := Exact.isFinite_iff.mp hscale
    exact Expression.evaluate_addScaled _ other k point
  · rintro ⟨v, hv, hsize⟩
    exact Expression.evaluate_of_uncovered hv hsize

/-- Two terms that cancel, a multiple by zero and one that takes a term back. -/
def cancellingEdits : List (Expression.Edit Exact) :=
  [.term 2 (number 3), .term 0 (number (1 / 2)), .constant (number 1), .term 2 (number (-3)),
    .scaled ⟨#[(1, number 4), (0, number 1)], number 5⟩ (number 0),
    .scaled ⟨#[(0, number 1)], number 2⟩ (number (-2))]

/-- The variables that cancelled are still entries, and a point has to cover them. -/
theorem cancellingEdits_are_linear :
    (Expression.ofEdits cancellingEdits).evaluate #[number 6, number 7, number 8] =
        number (-12) ∧
      (Expression.ofEdits cancellingEdits).constant +
        Scalar.sum ((Expression.ofEdits cancellingEdits).coefficients.entries.map
          fun t => t.2 * entry #[number 6, number 7, number 8] t.1) = number (-12) ∧
      (Expression.ofEdits cancellingEdits).coefficients.keys = [0, 1, 2] ∧
      ((Expression.ofEdits cancellingEdits).addScaled (.ofVariable 1) (number 10)).evaluate
        #[number 6, number 7, number 8] = number 58 ∧
      (Expression.ofEdits cancellingEdits).evaluate #[number 6, number 7] = Scalar.undefined := by
  obtain ⟨hgains, hmerged, hkeys, hscaled, -⟩ :=
    built_expressions_are_linear cancellingEdits #[number 6, number 7, number 8]
  have hvalue : (Expression.ofEdits cancellingEdits).evaluate
      #[number 6, number 7, number 8] = number (-12) :=
    (hgains (by decide +kernel)).trans (by decide +kernel)
  refine ⟨hvalue, (hmerged (by decide +kernel)).symm.trans hvalue, ?_, ?_, ?_⟩
  · have hmentioned : (cancellingEdits.flatMap (·.variableIds)).toFinset = [0, 1, 2].toFinset := by
      decide +kernel
    rw [hkeys, hmentioned]
    exact (List.toFinset_sort (· ≤ ·) (by decide)).mpr (by decide)
  · rw [hscaled (.ofVariable 1) (number 10) (by decide +kernel), hvalue]
    decide +kernel
  · exact (built_expressions_are_linear cancellingEdits #[number 6, number 7]).2.2.2.2
      ⟨2, by decide +kernel, by decide +kernel⟩

end BendersPlanning

import BendersPlanning.Conic.Program
import BendersPlanning.Proofs.LinearExpressions
import Mathlib.Algebra.BigOperators.Group.List.Lemmas

/-!
# Optimal solutions and infeasibility rays of conic programs

`ConicProgram.IsOptimal` are the conditions under which a point, a slack and multipliers prove each
other optimal; `ConicProgram.IsRay` are those of multipliers that no slack can balance. A solver is
trusted for nothing else. Matrices are read entry by entry: `SparseMatrix.column_ofColumns` says
that storing columns loses nothing, `Cone.expand_foldl_push` that joining rows to runs keeps the
kind of every row.
-/

namespace BendersPlanning

section Conditions
variable {K : Type} [Scalar K]

open Scalar (entry)

namespace SparseMatrix

def get (a : SparseMatrix K) (row column : ℕ) : K :=
  Scalar.sum (((a.column column).filter (·.1 = row)).map (·.2))

def mulVec (a : SparseMatrix K) (x : Array K) (row : ℕ) : K :=
  Scalar.sum ((List.range a.columnCount).map fun j => a.get row j * entry x j)

def vecMul (a : SparseMatrix K) (z : Array K) (column : ℕ) : K :=
  Scalar.sum ((List.range a.rowCount).map fun i => a.get i column * entry z i)

end SparseMatrix

def dot (count : ℕ) (x y : Array K) : K :=
  Scalar.sum ((List.range count).map fun i => entry x i * entry y i)

namespace Cone

/-- Slacks vanish in zero cones and are nowhere negative. -/
def Contains (cones : List Cone) (s : Array K) : Prop :=
  ∀ row ∈ (expand cones).zipIdx,
    if row.1 then entry s row.2 = 0.0 else 0.0 ≤ entry s row.2

instance [DecidableEq K] (cones : List Cone) (s : Array K) : Decidable (Contains cones s) :=
  inferInstanceAs (Decidable (∀ row ∈ (expand cones).zipIdx,
    if row.1 then entry s row.2 = 0.0 else 0.0 ≤ entry s row.2))

/-- Multipliers are free on zero cones and not negative elsewhere. -/
def DualContains (cones : List Cone) (z : Array K) : Prop :=
  ∀ row ∈ (expand cones).zipIdx, row.1 = false → 0.0 ≤ entry z row.2

instance (cones : List Cone) (z : Array K) : Decidable (DualContains cones z) :=
  inferInstanceAs (Decidable (∀ row ∈ (expand cones).zipIdx, row.1 = false → 0.0 ≤ entry z row.2))

end Cone

namespace ConicProgram

/-- Point, slack and multipliers that prove each other optimal. -/
structure IsOptimal (p : ConicProgram K) (x s z : Array K) : Prop where
  point : IsFiniteVector p.q.size x
  slack : IsFiniteVector p.b.size s
  multipliers : IsFiniteVector p.b.size z
  stationary : ∀ j < p.q.size, p.P.mulVec x j + entry p.q j + p.A.vecMul z j = 0.0
  balanced : ∀ i < p.b.size, p.A.mulVec x i + entry s i = entry p.b i
  slackCone : Cone.Contains p.cones s
  dualCone : Cone.DualContains p.cones z
  complementary : dot p.b.size s z = 0.0

/-- Multipliers that no slack in the cones can balance. -/
structure IsRay (p : ConicProgram K) (z : Array K) : Prop where
  multipliers : IsFiniteVector p.b.size z
  stationary : ∀ j < p.q.size, p.A.vecMul z j = 0.0
  dualCone : Cone.DualContains p.cones z
  negative : dot p.b.size p.b z < 0.0

instance [DecidableEq K] (p : ConicProgram K) (x s z : Array K) : Decidable (p.IsOptimal x s z) :=
  decidable_of_iff
    ((IsFiniteVector p.q.size x ∧ IsFiniteVector p.b.size s ∧ IsFiniteVector p.b.size z) ∧
      (∀ j < p.q.size, p.P.mulVec x j + entry p.q j + p.A.vecMul z j = 0.0) ∧
      (∀ i < p.b.size, p.A.mulVec x i + entry s i = entry p.b i) ∧
      Cone.Contains p.cones s ∧ Cone.DualContains p.cones z ∧ dot p.b.size s z = 0.0)
    ⟨fun ⟨⟨hx, hs, hz⟩, hstationary, hbalanced, hslack, hdual, hzero⟩ =>
      ⟨hx, hs, hz, hstationary, hbalanced, hslack, hdual, hzero⟩,
      fun h => ⟨⟨h.point, h.slack, h.multipliers⟩, h.stationary, h.balanced, h.slackCone,
        h.dualCone, h.complementary⟩⟩

instance [DecidableEq K] (p : ConicProgram K) (z : Array K) : Decidable (p.IsRay z) :=
  decidable_of_iff
    (IsFiniteVector p.b.size z ∧ (∀ j < p.q.size, p.A.vecMul z j = 0.0) ∧
      Cone.DualContains p.cones z ∧ dot p.b.size p.b z < 0.0)
    ⟨fun ⟨hz, hstationary, hdual, hnegative⟩ => ⟨hz, hstationary, hdual, hnegative⟩,
      fun h => ⟨h.multipliers, h.stationary, h.dualCone, h.negative⟩⟩

end ConicProgram

end Conditions

namespace SparseMatrix

variable {K : Type}

def starts (columns : List (List (ℕ × K))) : Array ℕ :=
  columns.foldl (fun starts c => starts.push (starts.back?.getD 0 + c.length)) #[0]

theorem starts_concat (columns : List (List (ℕ × K))) (c : List (ℕ × K)) :
    starts (columns ++ [c]) =
      (starts columns).push ((starts columns).back?.getD 0 + c.length) := by
  simp [starts]

@[simp] theorem size_starts (columns : List (List (ℕ × K))) :
    (starts columns).size = columns.length + 1 := by
  induction columns using List.reverseRecOn with
  | nil => rfl
  | append_singleton columns c ih => simp [starts_concat, ih]

/-- A column starts after all entries of the columns before it. -/
theorem getElem?_starts (columns : List (List (ℕ × K))) {j : ℕ} (hj : j ≤ columns.length) :
    (starts columns)[j]? = some ((columns.map List.length).take j).sum := by
  induction columns using List.reverseRecOn generalizing j with
  | nil =>
    obtain rfl : j = 0 := Nat.le_zero.mp hj
    rfl
  | append_singleton columns c ih =>
    have hback : (starts columns).back?.getD 0 = (columns.map List.length).sum := by
      rw [Array.back?, size_starts, Nat.add_sub_cancel, ih le_rfl,
        List.take_of_length_le (by simp), Option.getD_some]
    rw [starts_concat, hback, Array.getElem?_push, size_starts]
    rw [List.length_append, List.length_singleton] at hj
    split_ifs with h
    · subst h
      rw [List.take_of_length_le (by simp)]
      simp
    · rw [ih (by omega), List.map_append, List.take_append_of_le_length (by simp; omega)]

theorem zip_slices {α β : Type} (xs : List (α × β)) (start count : ℕ) :
    (((xs.map (·.1)).drop start).take count).zip (((xs.map (·.2)).drop start).take count) =
      (xs.drop start).take count := by
  have hzip : ∀ ys : List (α × β), (ys.map (·.1)).zip (ys.map (·.2)) = ys := by
    intro ys
    rw [List.zip_map']
    simp
  rw [← List.map_drop, ← List.map_take, ← List.map_drop, ← List.map_take, hzip]

theorem column_ofColumns (n : ℕ) (columns : List (List (ℕ × K))) {j : ℕ}
    (hj : j < columns.length) : (ofColumns n columns).column j = columns[j] := by
  have hstart : (ofColumns n columns).columnStart = starts columns := rfl
  unfold column
  rw [hstart, getElem?_starts columns hj.le, getElem?_starts columns hj]
  simp only [Option.getD_some, ofColumns, List.flatMap_def, ← List.map_flatten,
    Array.toList_zip, Array.toList_extract, List.extract_eq_take_drop]
  rw [zip_slices, ← List.drop_take]
  exact List.drop_take_succ_flatten_eq_getElem columns j hj

end SparseMatrix

namespace Cone

theorem expand_append (cones others : List Cone) :
    expand (cones ++ others) = expand cones ++ expand others := by
  simp [expand]

theorem expand_push (cones : List Cone) (equality : Bool) :
    expand (push cones equality) = expand cones ++ [equality] := by
  have hlast : ∀ last, cones.getLast? = some last →
      expand cones = expand cones.dropLast ++ expand [last] := by
    intro last h
    obtain ⟨init, rfl⟩ := List.getLast?_eq_some_iff.mp h
    rw [List.dropLast_concat, expand_append]
  unfold push
  split
  · rename_i n h
    rw [hlast _ h, expand_append, List.append_assoc]
    simp [expand, List.replicate_succ']
  · rename_i n h
    rw [hlast _ h, expand_append, List.append_assoc]
    simp [expand, List.replicate_succ']
  · rw [expand_append]
    rfl
  · rw [expand_append]
    rfl

/-- Joining rows to runs keeps the kind of every row. -/
theorem expand_foldl_push {α : Type} (rows : List α) (kind : α → Bool) :
    expand (rows.foldl (fun cones row => push cones (kind row)) []) = rows.map kind := by
  induction rows using List.reverseRecOn with
  | nil => rfl
  | append_singleton rows row ih => simp [ih, expand_push]

end Cone

end BendersPlanning

import BendersPlanning.Model.Evaluate
import BendersPlanning.Solution
import BendersPlanning.Proofs.WellFormedModels

/-!
# Feasible points and optimal values

What a model means: the points that meet its rows, bounds and integrality, and the least objective
among them. Prices and certificates are read as statements about the same model under other
right-hand sides, `Model.withRhs`. The second half moves all of this to rational coordinates, where
the objective is `Model.cost` and a row holds by `Constraint.HoldsAt`.
-/

namespace BendersPlanning

section Meaning
variable {K : Type} [Scalar K]

open Scalar (entry isFinite)

def Constraint.Holds (c : Constraint K) (point : Array K) : Prop :=
  match c.sense with
  | .atMost => c.expression.evaluate point ≤ c.rhs
  | .atLeast => c.rhs ≤ c.expression.evaluate point
  | .equal => c.expression.evaluate point ≤ c.rhs ∧ c.rhs ≤ c.expression.evaluate point

def Variable.Admits (v : Variable K) (x : K) : Prop :=
  v.lowerBound ≤ x ∧ x ≤ v.upperBound ∧ (v.integer = true → ∃ i : ℤ, x = Scalar.ofInt i)

namespace Model

/-- Whether a finite point meets all rows, bounds and integrality. -/
structure Feasible (m : Model K) (point : Array K) : Prop extends
    IsFiniteVector m.vars.size point where
  admitted : ∀ j (v : Variable K), m.vars[j]? = some v → v.Admits (entry point j)
  rows : ∀ c ∈ m.constraints, c.Holds point

/-- The value of the model: attained by a feasible point and undercut by none. -/
structure HasMinimum (m : Model K) (objective : K) : Prop where
  attained : ∃ point, m.Feasible point ∧ m.objectiveValue point = objective
  least : ∀ point, m.Feasible point → objective ≤ m.objectiveValue point

def rightHandSides (m : Model K) : Array K := m.constraints.map (·.rhs)

def withRhs (m : Model K) (rhs : Array K) : Model K :=
  { m with constraints := m.constraints.mapIdx fun i c => { c with rhs := entry rhs i } }

end Model

/-- What a linear function with the given slopes gains between two vectors. -/
def changeAlong (slopes old new : Array K) : K :=
  Scalar.sum ((List.range slopes.size).map fun i => entry slopes i * (entry new i - entry old i))

/-- Shadow prices that support the optimal value from below at all right-hand sides. -/
structure Model.IsPricedBy (m : Model K) (objective : K) (duals : Array K) : Prop extends
    IsFiniteVector m.constraints.size duals where
  supports : ∀ rhs point, IsFiniteVector m.constraints.size rhs →
    (m.withRhs rhs).Feasible point →
    objective + changeAlong duals m.rightHandSides rhs ≤ m.objectiveValue point

/-- A certificate is positive at the right-hand sides of the model and at none that a point meets.
-/
structure Model.IsRefutedBy (m : Model K) (c : Certificate K) : Prop extends
    IsFiniteVector m.constraints.size c.ray where
  margin : isFinite c.infeasibility = true ∧ 0.0 < c.infeasibility
  supports : ∀ rhs point, IsFiniteVector m.constraints.size rhs →
    (m.withRhs rhs).Feasible point →
    c.infeasibility + changeAlong c.ray m.rightHandSides rhs ≤ 0.0

end Meaning

theorem Model.withRhs_rightHandSides {K : Type} [Scalar K] (m : Model K) :
    m.withRhs m.rightHandSides = m := by
  have hsame : m.constraints.mapIdx (fun i c => { c with rhs := Scalar.entry m.rightHandSides i }) =
      m.constraints := by
    refine Array.ext (by simp) fun i _ hi => ?_
    rw [Array.getElem_mapIdx]
    simp [Scalar.entry, rightHandSides, hi]
  unfold withRhs
  rw [hsame]

instance {K : Type} [Scalar K] (c : Constraint K) (point : Array K) : Decidable (c.Holds point) :=
  match h : c.sense with
  | .atMost =>
    decidable_of_iff (c.expression.evaluate point ≤ c.rhs) (by simp [Constraint.Holds, h])
  | .atLeast =>
    decidable_of_iff (c.rhs ≤ c.expression.evaluate point) (by simp [Constraint.Holds, h])
  | .equal =>
    decidable_of_iff (c.expression.evaluate point ≤ c.rhs ∧ c.rhs ≤ c.expression.evaluate point)
      (by simp [Constraint.Holds, h])

open Exact (number)

/-- Among exact numbers the whole ones have the denominator one. -/
theorem Exact.exists_ofInt_iff {x : Exact} :
    (∃ i : ℤ, x = Scalar.ofInt i) ↔ ∃ q : ℚ, x = number q ∧ q.den = 1 := by
  constructor
  · rintro ⟨i, rfl⟩
    exact ⟨i, rfl, rfl⟩
  · rintro ⟨q, rfl, hq⟩
    exact ⟨q.num, congrArg number (Rat.coe_int_num_of_den_eq_one hq).symm⟩

instance (v : Variable Exact) (x : Exact) : Decidable (v.Admits x) :=
  have : Decidable (∃ i : ℤ, x = Scalar.ofInt i) :=
    decidable_of_iff (Scalar.isFinite x = true ∧ x.toRat.den = 1) <| by
      rw [Exact.exists_ofInt_iff, Exact.isFinite_iff]
      exact ⟨fun ⟨⟨q, hq⟩, hden⟩ => ⟨q, hq, by simpa [hq] using hden⟩,
        fun ⟨q, hq, hden⟩ => ⟨⟨q, hq⟩, by simpa [hq] using hden⟩⟩
  inferInstanceAs (Decidable (_ ∧ _ ∧ (_ → _)))

instance (m : Model Exact) (point : Array Exact) : Decidable (m.Feasible point) :=
  decidable_of_iff
    (IsFiniteVector m.vars.size point ∧
      (∀ j, ∀ h : j < m.vars.size, m.vars[j].Admits (Scalar.entry point j)) ∧
      ∀ c ∈ m.constraints, c.Holds point)
    ⟨fun ⟨hfinite, hadmitted, hrows⟩ => ⟨hfinite, fun j v hv => by
        obtain ⟨hj, rfl⟩ := Array.getElem?_eq_some_iff.mp hv
        exact hadmitted j hj, hrows⟩,
      fun h => ⟨h.toIsFiniteVector, fun j hj => h.admitted j _ (Array.getElem?_eq_getElem hj),
        h.rows⟩⟩

/-- A row at rational coordinates. -/
def Constraint.HoldsAt (c : Constraint Exact) (rhs : ℚ) (x : ℕ → ℚ) : Prop :=
  match c.sense with
  | .atMost => c.expression.valueAt x ≤ rhs
  | .atLeast => rhs ≤ c.expression.valueAt x
  | .equal => c.expression.valueAt x = rhs

theorem Constraint.holds_iff {c : Constraint Exact} {count : ℕ} {point : Array Exact}
    (hover : c.expression.IsOver count) (hrhs : Scalar.isFinite c.rhs = true)
    (hp : IsFiniteVector count point) :
    c.Holds point ↔ c.HoldsAt c.rhs.toRat (coordinate point) := by
  obtain ⟨b, hb⟩ := Exact.isFinite_iff.mp hrhs
  have he := Expression.evaluate_eq hover hp
  unfold Holds HoldsAt
  cases c.sense <;> simp only [he, hb, Exact.number_le, Exact.toRat_number, ← le_antisymm_iff]

/-- The objective at rational coordinates. -/
def Model.cost (m : Model Exact) (x : ℕ → ℚ) : ℚ :=
  m.objective.valueAt x + termSum m.quadratic.toList fun v => x v * x v

theorem foldl_squares_eq {count : ℕ} {point : Array Exact} (hp : IsFiniteVector count point)
    (terms : List (ℕ × Exact)) (h : ∀ t ∈ terms, t.1 < count ∧ Scalar.isFinite t.2 = true)
    (acc : ℚ) :
    terms.foldl (fun acc t => acc + t.2 * Scalar.entry point t.1 * Scalar.entry point t.1)
        (number acc) =
      number (acc + termSum terms fun v => coordinate point v * coordinate point v) := by
  induction terms generalizing acc with
  | nil => simp
  | cons t terms ih =>
    obtain ⟨ht, hrest⟩ := List.forall_mem_cons.mp h
    obtain ⟨q, hq⟩ := Exact.isFinite_iff.mp ht.2
    simp only [List.foldl_cons, hq, hp.entry_eq ht.1, Exact.number_mul, Exact.number_add,
      ih hrest, termSum_cons, Exact.toRat_number, add_assoc, mul_assoc]

theorem Model.quadraticValue_eq {m : Model Exact} (hm : m.WellFormed) {point : Array Exact}
    (hp : IsFiniteVector m.vars.size point) : m.quadraticValue point =
      number (termSum m.quadratic.toList fun v => coordinate point v * coordinate point v) := by
  have hterms : ∀ t ∈ m.quadratic.toList, t.1 < m.vars.size ∧ Scalar.isFinite t.2 = true :=
    fun t ht => ⟨(hm.quadratic t (Array.mem_toList_iff.mp ht)).1,
      (hm.quadratic t (Array.mem_toList_iff.mp ht)).2.1⟩
  have h := foldl_squares_eq hp m.quadratic.toList hterms 0
  rw [zero_add] at h
  rw [← h, quadraticValue, ← Array.foldl_toList, Exact.zero_eq]

theorem Model.objectiveValue_eq {m : Model Exact} (hm : m.WellFormed) {point : Array Exact}
    (hp : IsFiniteVector m.vars.size point) :
    m.objectiveValue point = number (m.cost (coordinate point)) := by
  rw [objectiveValue, quadraticValue_eq hm hp, Expression.evaluate_eq hm.objective hp,
    Exact.number_add, cost]

theorem sum_map_range (n : ℕ) (f : ℕ → ℚ) :
    ((List.range n).map f).sum = ∑ i ∈ Finset.range n, f i := rfl

theorem changeAlong_eq {count : ℕ} {slopes old new : Array Exact}
    (hslopes : IsFiniteVector count slopes) (hold : IsFiniteVector count old)
    (hnew : IsFiniteVector count new) :
    changeAlong slopes old new = number (∑ i ∈ Finset.range count,
      coordinate slopes i * (coordinate new i - coordinate old i)) := by
  have hentry : ∀ i ∈ List.range slopes.size,
      Scalar.entry slopes i * (Scalar.entry new i - Scalar.entry old i) =
        number (coordinate slopes i * (coordinate new i - coordinate old i)) := by
    intro i hi
    have hlt : i < count := (List.mem_range.mp hi).trans_eq hslopes.size
    rw [hslopes.entry_eq hlt, hold.entry_eq hlt, hnew.entry_eq hlt, Exact.number_sub,
      Exact.number_mul]
  rw [changeAlong, List.map_congr_left hentry, Exact.sum_map_number, sum_map_range, hslopes.size]

theorem Model.WellFormed.rightHandSides {m : Model Exact} (hm : m.WellFormed) :
    IsFiniteVector m.constraints.size m.rightHandSides where
  size := by simp [Model.rightHandSides]
  finite := by
    intro x hx
    obtain ⟨c, hc, rfl⟩ := Array.mem_map.mp hx
    exact (hm.rows c hc).2

end BendersPlanning

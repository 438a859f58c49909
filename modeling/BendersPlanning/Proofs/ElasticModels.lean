import BendersPlanning.Proofs.EditedModels
import BendersPlanning.Proofs.FeasiblePoints
import BendersPlanning.Proofs.GeneratedNames
import Mathlib.Algebra.BigOperators.Fin
import Mathlib.Algebra.Order.Group.MinMax

/-!
# Elastic models

Slack columns come after the variables that a model had, each a term of one row and of the
objective. So an elastic row leaves its right-hand side by what its own columns make up for, and a
point is extended at least cost when of each row only the column in the direction of the violation
is used, and by no more than the violation.
-/

namespace BendersPlanning

open Scalar (entry isFinite)

section Meaning
variable {K : Type} [Scalar K]

/-- The terms that the slack columns of a plan, numbered from `first`, add to one row. -/
def columnsOf (row : ℕ) (plan : List (ℕ × String × K)) (first : ℕ) : List (ℕ × K) :=
  ((plan.zipIdx first).filter (·.1.1 = row)).map fun (column, slack) => (slack, column.2.2)

namespace Model

/-- A model with the slack columns of a plan. -/
def widened (m : Model K) (penalty : K) (plan : List (ℕ × String × K)) : Model K :=
  { m with
    vars := m.vars ++ (plan.map fun column => .continuous column.2.1 (some 0.0) none).toArray
    constraints := m.constraints.mapIdx fun row c => { c with expression :=
      { c.expression with
        terms := c.expression.terms ++ (columnsOf row plan m.vars.size).toArray } }
    objective := { m.objective with terms := m.objective.terms ++
      (Array.range' m.vars.size plan.length).map fun slack => (slack, penalty) } }

/-- Whether a finite point is within all bounds and whole where it has to be. -/
structure Admits (m : Model K) (point : Array K) : Prop extends
    IsFiniteVector m.vars.size point where
  admitted : ∀ j (v : Variable K), m.vars[j]? = some v → v.Admits (entry point j)

/-- Whether further entries, none of them negative, make a point one that meets all rows. -/
structure IsExtension (m : Model K) (point slacks : Array K) : Prop extends
    IsFiniteVector m.vars.size (point ++ slacks) where
  nonnegative : ∀ s ∈ slacks, (0.0 : K) ≤ s
  rows : ∀ c ∈ m.constraints, c.Holds (point ++ slacks)

/-- The violations of all rows, added up. -/
def totalViolation (m : Model K) (point : Array K) : K :=
  Scalar.sum (m.constraints.toList.map (·.violation point))

/-- The objective of a point, and a penalty for each unit by which it violates a row. -/
def penalizedValue (m : Model K) (penalty : K) (point : Array K) : K :=
  m.objectiveValue point + penalty * m.totalViolation point

/-- The least objective of points that extend a given one and meet all rows. -/
structure HasCheapestExtension (m : Model K) (point : Array K) (objective : K) : Prop where
  attained : ∃ slacks, m.IsExtension point slacks ∧ m.objectiveValue (point ++ slacks) = objective
  least : ∀ slacks, m.IsExtension point slacks → objective ≤ m.objectiveValue (point ++ slacks)

/-- What one model keeps of another: variables and rows under their positions and names, relations
and right-hand sides of the rows, squares and named expressions. -/
structure Keeps (m' m : Model K) : Prop where
  vars : ∀ (j : ℕ) (v : Variable K), m.vars[j]? = some v → m'.vars[j]? = some v
  variableNamed : ∀ name j, m.variableNamed? name = some j → m'.variableNamed? name = some j
  rows : m'.constraints.map (fun c => (c.name, c.sense, c.rhs)) =
    m.constraints.map fun c => (c.name, c.sense, c.rhs)
  constraintNamed : ∀ name, m'.constraintNamed? name = m.constraintNamed? name
  quadratic : m'.quadratic = m.quadratic
  expressions : m'.expressions = m.expressions

end Model

end Meaning

section Columns
variable {K : Type} [Scalar K] {m m' : Model K} {penalty : K} {plan : List (ℕ × String × K)}
  {row first : ℕ}

omit [Scalar K] in
@[simp] theorem columnsOf_nil (row first : ℕ) :
    columnsOf row ([] : List (ℕ × String × K)) first = [] := rfl

omit [Scalar K] in
theorem columnsOf_cons (column : ℕ × String × K) :
    columnsOf row (column :: plan) first =
      (if column.1 = row then [(first, column.2.2)] else []) ++ columnsOf row plan (first + 1) := by
  simp only [columnsOf, List.zipIdx_cons, List.filter_cons, decide_eq_true_eq]
  split_ifs <;> rfl

omit [Scalar K] in
theorem map_sign_columnsOf : (columnsOf row plan first).map (·.2) =
    (plan.filter (·.1 = row)).map (·.2.2) := by
  induction plan generalizing first with
  | nil => rfl
  | cons column plan ih =>
    rw [columnsOf_cons, List.map_append, ih, List.filter_cons]
    by_cases h : column.1 = row <;> simp [h]

omit [Scalar K] in
theorem exists_of_mem_columnsOf {t : ℕ × K} (h : t ∈ columnsOf row plan first) :
    ∃ k, ∃ column ∈ plan[k]?, t = (first + k, column.2.2) ∧ column.1 = row := by
  obtain ⟨⟨column, slack⟩, hmem, rfl⟩ := List.mem_map.mp h
  obtain ⟨hmem, hrow⟩ := List.mem_filter.mp hmem
  obtain ⟨hle, hget⟩ := List.mem_zipIdx_iff_le_and_getElem?_sub.mp hmem
  exact ⟨slack - first, column, hget, by simp [Nat.add_sub_of_le hle], by simpa using hrow⟩

namespace Model

@[simp] theorem widened_nil (m : Model K) (penalty : K) : m.widened penalty [] = m := by
  have hrows : m.constraints.mapIdx (fun row c => { c with expression := { c.expression with
      terms := c.expression.terms ++ (columnsOf row [] m.vars.size).toArray } }) =
      m.constraints := by
    refine Array.ext (by simp) fun i _ _ => ?_
    rw [Array.getElem_mapIdx]
    simp
  simp only [widened, hrows]
  simp

/-- A slack column and those of a plan after it. -/
theorem widened_cons (column : ℕ × String × K) : ({ m with
      vars := m.vars.push (.continuous column.2.1 (some 0.0) none)
      constraints := m.constraints.modify column.1 fun c =>
        { c with expression := c.expression.addTerm m.vars.size column.2.2 }
      objective := m.objective.addTerm m.vars.size penalty } : Model K).widened penalty plan =
    m.widened penalty (column :: plan) := by
  have hrows (rows : Array (Constraint K)) : (rows.modify column.1 fun c =>
        { c with expression := c.expression.addTerm m.vars.size column.2.2 }).mapIdx
        (fun row c => { c with expression := { c.expression with
          terms := c.expression.terms ++ (columnsOf row plan (m.vars.size + 1)).toArray } }) =
      rows.mapIdx fun row c => { c with expression := { c.expression with
          terms := c.expression.terms ++
            (columnsOf row (column :: plan) m.vars.size).toArray } } := by
    refine Array.ext (by simp) fun i _ _ => ?_
    rw [Array.getElem_mapIdx, Array.getElem_mapIdx, Array.getElem_modify, columnsOf_cons]
    split_ifs <;> simp [Expression.addTerm]
  simp only [widened, Array.size_push, hrows]
  simp [Expression.addTerm, Array.range'_succ]

variable [OrderedScalar K]

/-- Slack columns are numbered on from the variables of the model. -/
theorem addSlacks_eq {slacks added : Array ℕ}
    (h : addSlacks penalty plan m slacks = (m', .ok added)) :
    m' = m.widened penalty plan ∧
      added = slacks ++ Array.range' m.vars.size plan.length := by
  induction plan generalizing m slacks with
  | nil =>
    obtain ⟨rfl, hadded⟩ := Prod.mk.inj h
    obtain rfl := Except.ok.inj hadded
    simp
  | cons column plan ih =>
    rw [addSlacks] at h
    cases hadd : m.addSlack penalty column.1 column.2.1 column.2.2 with
    | error e => simp [hadd] at h
    | ok step =>
      obtain ⟨-, rfl⟩ := addSlack_eq_ok.mp hadd
      rw [hadd] at h
      obtain ⟨rfl, rfl⟩ := ih h
      exact ⟨widened_cons column, by simp [Array.range'_succ]⟩

theorem relaxWithPenalty_eq {slacks : Array ℕ} (h : m.relaxWithPenalty penalty = (m', .ok slacks)) :
    (isFinite penalty = true ∧ 0.0 < penalty) ∧ m' = m.widened penalty m.slackPlan ∧
      slacks = Array.range' m.vars.size m.slackPlan.length := by
  unfold relaxWithPenalty at h
  split_ifs at h with hpenalty
  · simpa using And.intro (by simpa using hpenalty) (addSlacks_eq h)
  · cases (Prod.mk.inj h).2

end Model

end Columns

open Exact (number)

section Amounts

/-- By how much a row is violated at rational coordinates. -/
def Constraint.violationAt (c : Constraint Exact) (x : ℕ → ℚ) : ℚ :=
  match c.sense with
  | .atMost => max (c.expression.valueAt x - c.rhs.toRat) 0
  | .atLeast => max (c.rhs.toRat - c.expression.valueAt x) 0
  | .equal => |c.expression.valueAt x - c.rhs.toRat|

/-- What terms would add up to if all their coefficients were one. -/
def slackTotal (terms : List (ℕ × Exact)) (x : ℕ → ℚ) : ℚ := (terms.map fun t => x t.1).sum

/-- How far a slack column with this sign has to make up for a gap below the right-hand side. -/
def needed (gap : ℚ) (sign : Exact) : ℚ := max (sign.toRat * gap) 0

variable {c : Constraint Exact} {count : ℕ} {point : Array Exact} {x y : ℕ → ℚ} {t s : ℚ}

theorem Sense.abs_sign {sense : Sense} {column : String × Exact}
    (h : column ∈ sense.slackColumns) : |column.2.toRat| = 1 := by
  cases sense <;> simp only [slackColumns, List.mem_cons, List.not_mem_nil, or_false] at h
  case equal => rcases h with rfl | rfl <;> simp
  all_goals simp [h]

theorem Constraint.violation_eq (hover : c.expression.IsOver count) (hrhs : isFinite c.rhs = true)
    (hp : IsFiniteVector count point) :
    c.violation point = number (c.violationAt (coordinate point)) := by
  obtain ⟨b, hb⟩ := Exact.isFinite_iff.mp hrhs
  have hvalue := Expression.evaluate_eq hover hp
  unfold violation violationAt
  cases c.sense <;>
    simp only [hvalue, hb, Exact.number_sub, Exact.zero_eq, Exact.larger_number,
      Exact.abs_number, Exact.toRat_number]

theorem Expression.valueAt_congr {e : Expression Exact} (hover : e.IsOver count)
    (h : ∀ j < count, x j = y j) : e.valueAt x = e.valueAt y := by
  have hterms : ∀ t ∈ e.terms.toList, x t.1 = y t.1 :=
    fun t ht => h t.1 (hover.terms t (Array.mem_toList_iff.mp ht)).1
  rw [valueAt, valueAt, termSum_congr hterms]

/-- Terms that are added to a row change its right-hand side by what they add up to. -/
theorem Constraint.holdsAt_append {terms : List (ℕ × Exact)} {rhs : ℚ} :
    ({ c with expression := { c.expression with
        terms := c.expression.terms ++ terms.toArray } } : Constraint Exact).HoldsAt rhs x ↔
      c.HoldsAt (rhs - termSum terms x) x := by
  have hvalue : Expression.valueAt { c.expression with
      terms := c.expression.terms ++ terms.toArray } x =
      c.expression.valueAt x + termSum terms x := by
    simp [Expression.valueAt, add_assoc]
  unfold HoldsAt
  cases c.sense <;> simp only [hvalue]
  · exact le_sub_iff_add_le.symm
  · exact sub_le_iff_le_add.symm
  · exact eq_sub_iff_add_eq.symm

theorem Constraint.holdsAt_congr {rhs : ℚ} (hover : c.expression.IsOver count)
    (h : ∀ j < count, x j = y j) : c.HoldsAt rhs x ↔ c.HoldsAt rhs y := by
  unfold HoldsAt
  rw [Expression.valueAt_congr hover h]

/-- Slack columns make up for a violation only if they add up to that much. -/
theorem Constraint.violationAt_le (hrow : c.HoldsAt (c.rhs.toRat - t) x) (ht : |t| ≤ s) :
    c.violationAt x ≤ s := by
  refine le_trans ?_ ht
  unfold HoldsAt at hrow
  unfold violationAt
  cases hsense : c.sense <;> simp only [hsense] at hrow ⊢
  · exact max_le (by linarith [neg_abs_le t]) (abs_nonneg t)
  · exact max_le (by linarith [le_abs_self t]) (abs_nonneg t)
  · rw [hrow, sub_sub_cancel_left, abs_neg]

/-- What all columns of a row need is its violation. -/
theorem Constraint.sum_needed (c : Constraint Exact) (x : ℕ → ℚ) :
    ((c.sense.slackColumns.map (·.2)).map
      (needed (c.rhs.toRat - c.expression.valueAt x))).sum = c.violationAt x := by
  unfold violationAt
  cases c.sense <;> simp [Sense.slackColumns, needed]
  rw [abs_sub_comm, ← max_zero_add_max_neg_zero_eq_abs_self, neg_sub]

/-- With what they need the columns of a row make it hold. -/
theorem Constraint.holdsAt_needed (c : Constraint Exact) (x : ℕ → ℚ) :
    c.HoldsAt (c.rhs.toRat - ((c.sense.slackColumns.map (·.2)).map fun sign =>
      sign.toRat * needed (c.rhs.toRat - c.expression.valueAt x) sign).sum) x := by
  unfold HoldsAt
  cases c.sense <;> simp [Sense.slackColumns, needed]
  · linarith [le_max_left (c.expression.valueAt x - c.rhs.toRat) 0]
  · linarith [le_max_left (c.rhs.toRat - c.expression.valueAt x) 0]
  · have hparts := max_zero_sub_max_neg_zero_eq_self (c.rhs.toRat - c.expression.valueAt x)
    rw [neg_sub] at hparts
    rw [← sub_eq_add_neg, hparts, sub_sub_cancel]

end Amounts

section Totals
variable {count : ℕ} {x : ℕ → ℚ}

/-- Terms with coefficients one and minus one add up to at most what they would without signs. -/
theorem abs_termSum_le {terms : List (ℕ × Exact)}
    (h : ∀ t ∈ terms, |t.2.toRat| = 1 ∧ 0 ≤ x t.1) : |termSum terms x| ≤ slackTotal terms x := by
  induction terms with
  | nil => simp [slackTotal]
  | cons t terms ih =>
    obtain ⟨⟨hsign, hx⟩, hrest⟩ := List.forall_mem_cons.mp h
    have hfirst : |t.2.toRat * x t.1| = x t.1 := by
      rw [abs_mul, hsign, one_mul, abs_of_nonneg hx]
    calc |termSum (t :: terms) x| ≤ |t.2.toRat * x t.1| + |termSum terms x| := by
          rw [termSum_cons]
          exact abs_add_le _ _
      _ ≤ slackTotal (t :: terms) x := by
          rw [hfirst]
          simpa [slackTotal] using ih hrest

/-- Every slack column is a column of one row. -/
theorem sum_columnsOf {K M : Type} [AddCommMonoid M] {plan : List (ℕ × String × K)}
    (hrows : ∀ column ∈ plan, column.1 < count) (first : ℕ) (x : ℕ → M) :
    ∑ row ∈ Finset.range count, ((columnsOf row plan first).map fun t => x t.1).sum =
      ((List.range' first plan.length).map x).sum := by
  induction plan generalizing first with
  | nil => simp
  | cons column plan ih =>
    obtain ⟨hrow, hrest⟩ := List.forall_mem_cons.mp hrows
    have hfirst (row : ℕ) : ((columnsOf row (column :: plan) first).map fun t => x t.1).sum =
        (if column.1 = row then x first else 0) +
          ((columnsOf row plan (first + 1)).map fun t => x t.1).sum := by
      rw [columnsOf_cons]
      split_ifs <;> simp
    simp only [hfirst, Finset.sum_add_distrib, ih hrest, Finset.sum_ite_eq,
      Finset.mem_range.mpr hrow, if_true, List.length_cons, List.range'_succ, List.map_cons,
      List.sum_cons]

end Totals

section Plan
variable {K : Type} [Scalar K] {m : Model K}

/-- What is made from the entries of a list can be told apart by where it comes from. -/
theorem filter_flatMap_zipIdx {α β : Type} {rows : List α} {first row : ℕ} {a : α}
    {f : α × ℕ → List β} {origin : β → ℕ} (horigin : ∀ entry, ∀ b ∈ f entry, origin b = entry.2)
    (h : rows[row]? = some a) :
    ((rows.zipIdx first).flatMap f).filter (origin · = first + row) = f (a, first + row) := by
  induction rows generalizing first row with
  | nil => cases h
  | cons b rows ih =>
    rw [List.zipIdx_cons, List.flatMap_cons, List.filter_append]
    cases row with
    | zero =>
      obtain rfl : b = a := by simpa using h
      have hown : (f (b, first)).filter (origin · = first + 0) = f (b, first) := by
        apply List.filter_eq_self.mpr
        intro made hmade
        simp [horigin _ _ hmade]
      have hlater : ((rows.zipIdx (first + 1)).flatMap f).filter (origin · = first + 0) = [] := by
        apply List.filter_eq_nil_iff.mpr
        intro made hmade
        obtain ⟨entry, hentry, hmade⟩ := List.mem_flatMap.mp hmade
        have hle := (List.mem_zipIdx_iff_le_and_getElem?_sub.mp hentry).1
        rw [horigin _ _ hmade, decide_eq_true_iff]
        omega
      rw [hown, hlater, List.append_nil, Nat.add_zero]
    | succ row =>
      have hearlier : (f (b, first)).filter (origin · = first + (row + 1)) = [] := by
        apply List.filter_eq_nil_iff.mpr
        intro made hmade
        simp [horigin _ _ hmade]
      have hrest : ((rows.zipIdx (first + 1)).flatMap f).filter (origin · = first + 1 + row) =
          f (a, first + 1 + row) := ih (by simpa using h)
      rw [show first + 1 + row = first + (row + 1) by omega] at hrest
      rw [hearlier, hrest, List.nil_append]

namespace Model

/-- The plan holds just the columns that the relation of a row asks for. -/
theorem filter_slackPlan {row : ℕ} {c : Constraint K} (hc : m.constraints[row]? = some c) :
    (m.slackPlan.filter (·.1 = row)).map (·.2.2) = c.sense.slackColumns.map (·.2) := by
  have hrow : m.slackPlan.filter (·.1 = 0 + row) = c.sense.slackColumns.map fun column =>
      (0 + row, s!"{column.1}[{c.name}]", column.2) := by
    refine filter_flatMap_zipIdx (a := c) (fun entry column hcolumn => ?_) (by simpa using hc)
    obtain ⟨_, -, rfl⟩ := List.mem_map.mp hcolumn
    rfl
  rw [zero_add] at hrow
  rw [hrow, List.map_map]
  rfl

theorem lt_of_mem_slackPlan {column : ℕ × String × K} (h : column ∈ m.slackPlan) :
    column.1 < m.constraints.size := by
  obtain ⟨⟨c, row⟩, hrow, h⟩ := List.mem_flatMap.mp h
  obtain ⟨⟨kind, sign⟩, -, rfl⟩ := List.mem_map.mp h
  simpa using List.snd_lt_of_mem_zipIdx hrow

end Model

end Plan

section Extensions
variable {m : Model Exact} {plan : List (ℕ × String × Exact)} {penalty : Exact}
  {point values : Array Exact} {x y : ℕ → ℚ}

theorem entry_append_left {j : ℕ} (hj : j < point.size) :
    entry (point ++ values) j = entry point j := by
  rw [entry, entry, Array.getElem?_append_left hj]

theorem entry_append_right (k : ℕ) : entry (point ++ values) (point.size + k) = entry values k := by
  rw [entry, entry, Array.getElem?_append_right (by omega), Nat.add_sub_cancel_left]

theorem coordinate_append_left {j : ℕ} (hj : j < point.size) :
    coordinate (point ++ values) j = coordinate point j :=
  congrArg Exact.toRat (entry_append_left hj)

theorem coordinate_append_right (k : ℕ) :
    coordinate (point ++ values) (point.size + k) = coordinate values k :=
  congrArg Exact.toRat (entry_append_right k)

namespace Model

/-- The rows of a widened model ask of the point before what slack columns do not make up for. -/
theorem rows_widened_iff (hm : m.WellFormed) (hw : (m.widened penalty plan).WellFormed)
    (hp : IsFiniteVector m.vars.size point)
    (hext : IsFiniteVector (m.widened penalty plan).vars.size (point ++ values)) :
    (∀ c ∈ (m.widened penalty plan).constraints, c.Holds (point ++ values)) ↔
      ∀ (row : ℕ) (c : Constraint Exact), m.constraints[row]? = some c → c.HoldsAt
        (c.rhs.toRat - termSum (columnsOf row plan m.vars.size) (coordinate (point ++ values)))
        (coordinate point) := by
  have hrow (row : ℕ) (c : Constraint Exact) (hc : m.constraints[row]? = some c) :
      let wide : Constraint Exact := { c with expression := { c.expression with
        terms := c.expression.terms ++ (columnsOf row plan m.vars.size).toArray } }
      (m.widened penalty plan).constraints[row]? = some wide ∧
        (wide.Holds (point ++ values) ↔ c.HoldsAt (c.rhs.toRat -
          termSum (columnsOf row plan m.vars.size) (coordinate (point ++ values)))
          (coordinate point)) := by
    have hget : (m.widened penalty plan).constraints[row]? = some { c with
        expression := { c.expression with
          terms := c.expression.terms ++ (columnsOf row plan m.vars.size).toArray } } := by
      simp [widened, hc]
    obtain ⟨hover, hrhs⟩ := hw.rows _ (Array.mem_of_getElem? hget)
    refine ⟨hget, ?_⟩
    rw [Constraint.holds_iff hover hrhs hext, Constraint.holdsAt_append]
    exact Constraint.holdsAt_congr (hm.rows c (Array.mem_of_getElem? hc)).1
      fun j hj => coordinate_append_left (hp.size.symm ▸ hj)
  constructor
  · intro h row c hc
    exact (hrow row c hc).2.mp (h _ (Array.mem_of_getElem? (hrow row c hc).1))
  · intro h wide hwide
    obtain ⟨row, hget⟩ := Array.mem_iff_getElem?.mp hwide
    obtain ⟨c, hc⟩ : ∃ c, m.constraints[row]? = some c := by
      have hlt := (Array.getElem?_eq_some_iff.mp hget).choose
      exact ⟨_, Array.getElem?_eq_getElem (by simpa [widened] using hlt)⟩
    obtain rfl := Option.some.inj (hget.symm.trans (hrow row c hc).1)
    exact (hrow row c hc).2.mpr (h row c hc)

/-- All slack columns are charged for at the same rate. -/
theorem cost_widened (hm : m.WellFormed) (h : ∀ j < m.vars.size, y j = x j) :
    (m.widened penalty plan).cost y =
      m.cost x + penalty.toRat * ((List.range' m.vars.size plan.length).map y).sum := by
  have hcharge (slacks : List ℕ) : termSum (slacks.map fun slack => (slack, penalty)) y =
      penalty.toRat * (slacks.map y).sum := by
    induction slacks with
    | nil => simp
    | cons slack slacks ih => simp [ih, mul_add]
  have hlinear : (m.widened penalty plan).objective.valueAt y =
      m.objective.valueAt x +
        penalty.toRat * ((List.range' m.vars.size plan.length).map y).sum := by
    rw [← Expression.valueAt_congr hm.objective h, ← hcharge]
    simp [Expression.valueAt, widened, add_assoc]
  have hsquares : termSum m.quadratic.toList (fun v => y v * y v) =
      termSum m.quadratic.toList fun v => x v * x v :=
    termSum_congr fun t ht => by rw [h t.1 (hm.quadratic t (Array.mem_toList_iff.mp ht)).1]
  unfold cost
  rw [hlinear, ← hsquares, add_right_comm]
  rfl

/-- How far a row is below its right-hand side. -/
def gapAt (m : Model Exact) (x : ℕ → ℚ) (row : ℕ) : ℚ :=
  (m.constraints[row]?.map fun c => c.rhs.toRat - c.expression.valueAt x).getD 0

/-- The slack values that make up for all violations and for nothing else. -/
def cheapestSlacks (m : Model Exact) (point : Array Exact) : Array Exact :=
  (m.slackPlan.map fun column =>
    number (needed (m.gapAt (coordinate point) column.1) column.2.2)).toArray

/-- At a cheapest extension every column of a row holds what it needs. -/
theorem coordinate_of_mem_columnsOf (hsize : point.size = m.vars.size) {row : ℕ} {t : ℕ × Exact}
    (ht : t ∈ columnsOf row m.slackPlan m.vars.size) :
    coordinate (point ++ m.cheapestSlacks point) t.1 =
      needed (m.gapAt (coordinate point) row) t.2 := by
  obtain ⟨k, column, hcolumn, rfl, rfl⟩ := exists_of_mem_columnsOf ht
  rw [Option.mem_def] at hcolumn
  rw [← hsize, coordinate_append_right]
  simp [coordinate, entry, cheapestSlacks, hcolumn]

theorem abs_sign_of_mem_slackPlan {column : ℕ × String × Exact} (h : column ∈ m.slackPlan) :
    |column.2.2.toRat| = 1 := by
  obtain ⟨⟨c, row⟩, -, h⟩ := List.mem_flatMap.mp h
  obtain ⟨⟨kind, sign⟩, hkind, rfl⟩ := List.mem_map.mp h
  have hsign := Sense.abs_sign hkind
  exact hsign

theorem size_widened_vars : (m.widened penalty plan).vars.size = m.vars.size + plan.length := by
  simp [widened]

/-- The columns of a row at a cheapest extension: they make up for its violation and hold just
that. -/
theorem columnsOf_cheapestSlacks (hsize : point.size = m.vars.size) {row : ℕ} {c : Constraint Exact}
    (hc : m.constraints[row]? = some c) :
    c.HoldsAt (c.rhs.toRat - termSum (columnsOf row m.slackPlan m.vars.size)
        (coordinate (point ++ m.cheapestSlacks point))) (coordinate point) ∧
      slackTotal (columnsOf row m.slackPlan m.vars.size)
        (coordinate (point ++ m.cheapestSlacks point)) = c.violationAt (coordinate point) := by
  have hgap : m.gapAt (coordinate point) row =
      c.rhs.toRat - c.expression.valueAt (coordinate point) := by
    simp [gapAt, hc]
  have hsigns : (columnsOf row m.slackPlan m.vars.size).map (·.2) =
      c.sense.slackColumns.map (·.2) := by
    rw [map_sign_columnsOf, filter_slackPlan hc]
  have hneeded : ∀ t ∈ columnsOf row m.slackPlan m.vars.size,
      coordinate (point ++ m.cheapestSlacks point) t.1 =
        needed (c.rhs.toRat - c.expression.valueAt (coordinate point)) t.2 :=
    fun t ht => hgap ▸ coordinate_of_mem_columnsOf hsize ht
  constructor
  · have hsum : termSum (columnsOf row m.slackPlan m.vars.size)
        (coordinate (point ++ m.cheapestSlacks point)) =
        ((c.sense.slackColumns.map (·.2)).map fun sign => sign.toRat *
          needed (c.rhs.toRat - c.expression.valueAt (coordinate point)) sign).sum := by
      rw [← hsigns, List.map_map, termSum]
      exact congrArg List.sum (List.map_congr_left fun t ht => by rw [hneeded t ht]; rfl)
    rw [hsum]
    exact c.holdsAt_needed _
  · rw [← c.sum_needed, ← hsigns, List.map_map, slackTotal]
    exact congrArg List.sum (List.map_congr_left hneeded)

theorem coordinate_nonneg {xs : Array Exact} (h : ∀ a ∈ xs, (0.0 : Exact) ≤ a)
    (hfinite : ∀ a ∈ xs, isFinite a = true) (k : ℕ) : 0 ≤ coordinate xs k := by
  unfold coordinate entry
  cases hk : xs[k]? with
  | none => exact le_refl _
  | some a =>
    have ha := Array.mem_of_getElem? hk
    obtain ⟨q, rfl⟩ := Exact.isFinite_iff.mp (hfinite a ha)
    simpa using h _ ha

/-- The slack columns of all rows, put side by side with these rows. -/
theorem sum_slacks_eq (y : ℕ → ℚ) :
    ((List.range' m.vars.size m.slackPlan.length).map y).sum =
      ∑ row : Fin m.constraints.toList.length,
        slackTotal (columnsOf row m.slackPlan m.vars.size) y := by
  rw [← sum_columnsOf (fun _ => lt_of_mem_slackPlan) m.vars.size y, Finset.sum_range]
  rfl

section Penalties
variable (hm : m.WellFormed) (hw : (m.widened penalty m.slackPlan).WellFormed)
  (hp : IsFiniteVector m.vars.size point)
include hm hp

theorem totalViolation_eq : m.totalViolation point = number
    (m.constraints.toList.map fun c => c.violationAt (coordinate point)).sum := by
  have hrow : ∀ c ∈ m.constraints.toList, c.violation point =
      number (c.violationAt (coordinate point)) := by
    intro c hc
    obtain ⟨hover, hrhs⟩ := hm.rows c (Array.mem_toList_iff.mp hc)
    exact Constraint.violation_eq hover hrhs hp
  rw [totalViolation, List.map_congr_left hrow, Exact.sum_map_number]

theorem penalizedValue_eq (hpenalty : isFinite penalty = true) : m.penalizedValue penalty point =
    number (m.cost (coordinate point) + penalty.toRat *
      (m.constraints.toList.map fun c => c.violationAt (coordinate point)).sum) := by
  obtain ⟨q, rfl⟩ := Exact.isFinite_iff.mp hpenalty
  rw [penalizedValue, objectiveValue_eq hm hp, totalViolation_eq hm hp, Exact.number_mul,
    Exact.number_add, Exact.toRat_number]

include hw

/-- The objective of an extension charges for all that its slack columns hold. -/
theorem objectiveValue_extension
    (hext : IsFiniteVector (m.widened penalty m.slackPlan).vars.size (point ++ values)) :
    (m.widened penalty m.slackPlan).objectiveValue (point ++ values) =
      number (m.cost (coordinate point) + penalty.toRat *
        ∑ row : Fin m.constraints.toList.length,
          slackTotal (columnsOf row m.slackPlan m.vars.size) (coordinate (point ++ values))) := by
  rw [objectiveValue_eq hw hext, ← sum_slacks_eq, cost_widened hm]
  exact fun j hj => coordinate_append_left (hp.size.symm ▸ hj)

theorem isExtension_cheapestSlacks :
    (m.widened penalty m.slackPlan).IsExtension point (m.cheapestSlacks point) := by
  have hext : IsFiniteVector (m.widened penalty m.slackPlan).vars.size
      (point ++ m.cheapestSlacks point) := by
    constructor
    · simp [size_widened_vars, cheapestSlacks, hp.size]
    · intro a ha
      rcases Array.mem_append.mp ha with ha | ha
      · exact hp.finite a ha
      · obtain ⟨column, -, rfl⟩ := List.mem_map.mp (List.mem_toArray.mp ha)
        exact Exact.isFinite_number _
  refine ⟨hext, fun s hs => ?_, ?_⟩
  · obtain ⟨column, -, rfl⟩ := List.mem_map.mp (List.mem_toArray.mp hs)
    rw [Exact.zero_eq, Exact.number_le]
    exact le_max_right _ _
  · rw [rows_widened_iff hm hw hp hext]
    exact fun row c hc => (columnsOf_cheapestSlacks hp.size hc).1

/-- Making up for each violation, once and by the right column, is the cheapest way to meet all
rows. -/
theorem hasCheapestExtension (hpenalty : isFinite penalty = true ∧ 0.0 < penalty) :
    (m.widened penalty m.slackPlan).HasCheapestExtension point
      (m.penalizedValue penalty point) := by
  have hviolations : (m.constraints.toList.map fun c => c.violationAt (coordinate point)).sum =
      ∑ row : Fin m.constraints.toList.length,
        m.constraints.toList[row].violationAt (coordinate point) :=
    (Fin.sum_univ_fun_getElem _ _).symm
  have hget (row : Fin m.constraints.toList.length) :
      m.constraints[row.val]? = some m.constraints.toList[row] := by
    simp
  rw [penalizedValue_eq hm hp hpenalty.1, hviolations]
  constructor
  · refine ⟨_, isExtension_cheapestSlacks hm hw hp, ?_⟩
    rw [objectiveValue_extension hm hw hp (isExtension_cheapestSlacks hm hw hp).toIsFiniteVector]
    congr 3
    exact Finset.sum_congr rfl fun row _ => (columnsOf_cheapestSlacks hp.size (hget row)).2
  · intro slacks hslacks
    rw [objectiveValue_extension hm hw hp hslacks.toIsFiniteVector, Exact.number_le]
    obtain ⟨q, hq⟩ := Exact.isFinite_iff.mp hpenalty.1
    have hpositive : 0 ≤ penalty.toRat := by
      have hlt := hpenalty.2
      rw [hq, Exact.zero_eq, Exact.number_lt] at hlt
      rw [hq, Exact.toRat_number]
      exact hlt.le
    have hle (row : Fin m.constraints.toList.length) :
        m.constraints.toList[row].violationAt (coordinate point) ≤
          slackTotal (columnsOf row m.slackPlan m.vars.size) (coordinate (point ++ slacks)) := by
      have hrow := (rows_widened_iff hm hw hp hslacks.toIsFiniteVector).mp hslacks.rows row _
        (hget row)
      refine Constraint.violationAt_le hrow (abs_termSum_le fun t ht => ?_)
      obtain ⟨k, column, hcolumn, rfl, -⟩ := exists_of_mem_columnsOf ht
      refine ⟨abs_sign_of_mem_slackPlan (List.mem_of_getElem? hcolumn), ?_⟩
      rw [← hp.size, coordinate_append_right]
      exact coordinate_nonneg hslacks.nonnegative (fun a ha => hslacks.finite a
        (Array.mem_append.mpr (.inr ha))) k
    have hsum := Finset.sum_le_sum fun row (_ : row ∈ Finset.univ) => hle row
    exact add_le_add_right (mul_le_mul_of_nonneg_left hsum hpositive) _

end Penalties

end Model

end Extensions

section Kept

namespace Model

variable {K : Type} [Scalar K] {m : Model K} {penalty : K} {plan : List (ℕ × String × K)}

theorem getElem?_widened_vars {j : ℕ} {v : Variable K} (hv : m.vars[j]? = some v) :
    (m.widened penalty plan).vars[j]? = some v := by
  rw [widened, Array.getElem?_append_left (Array.getElem?_eq_some_iff.mp hv).choose, hv]

theorem getElem?_widened_slacks {k : ℕ} {column : ℕ × String × K}
    (hcolumn : plan[k]? = some column) :
    (m.widened penalty plan).vars[m.vars.size + k]? =
      some (.continuous column.2.1 (some 0.0) none) := by
  rw [widened, Array.getElem?_append_right (by omega)]
  simp [hcolumn]

theorem WellFormed.widened_keeps (hm : m.WellFormed) (hw : (m.widened penalty plan).WellFormed) :
    (m.widened penalty plan).Keeps m where
  vars _ _ hv := getElem?_widened_vars hv
  variableNamed name j h := by
    obtain ⟨v, hv, hname⟩ := Option.map_eq_some_iff.mp (hm.variableNamed?_eq_some_iff.mp h)
    rw [hw.variableNamed?_eq_some_iff, getElem?_widened_vars hv, ← hname]
    rfl
  rows := by
    refine Array.ext (by simp [widened]) fun i _ _ => ?_
    simp [widened]
  constraintNamed name := by
    refine Option.ext fun row => ?_
    rw [hw.constraintNamed?_eq_some_iff, hm.constraintNamed?_eq_some_iff]
    simp [widened, Function.comp_def]
  quadratic := rfl
  expressions := rfl

end Model

end Kept

section Points
variable {m : Model Exact} {penalty : Exact} {point values : Array Exact}

theorem Exact.le_infinity {x : Exact} (h : isFinite x = true) : x ≤ Scalar.infinity := by
  obtain ⟨q, rfl⟩ := Exact.isFinite_iff.mp h
  exact .inl rfl

namespace Model

/-- A slack variable admits just the values that are not negative. -/
theorem admits_slack_iff {name : String} {x : Exact} (hx : isFinite x = true) :
    (Variable.continuous name (some 0.0) none).Admits x ↔ (0.0 : Exact) ≤ x :=
  ⟨fun h => h.1, fun h => ⟨h, Exact.le_infinity hx, nofun⟩⟩

/-- A point of the elastic model is a point within the bounds of the model before and an extension
of it. -/
theorem feasible_widened_iff (hp : IsFiniteVector m.vars.size point) :
    (m.widened penalty m.slackPlan).Feasible (point ++ values) ↔
      m.Admits point ∧ (m.widened penalty m.slackPlan).IsExtension point values := by
  have hsize : (m.widened penalty m.slackPlan).vars.size = m.vars.size + m.slackPlan.length :=
    size_widened_vars
  constructor
  · intro h
    refine ⟨⟨hp, fun j v hv => ?_⟩, h.toIsFiniteVector, fun s hs => ?_, h.rows⟩
    · have hj : j < point.size := hp.size ▸ (Array.getElem?_eq_some_iff.mp hv).choose
      have hadmits := h.admitted j v (getElem?_widened_vars hv)
      rwa [entry_append_left hj] at hadmits
    · obtain ⟨k, hk, rfl⟩ := Array.getElem_of_mem hs
      have hall := h.size
      rw [Array.size_append, hsize, hp.size] at hall
      have hlt : k < m.slackPlan.length := by omega
      have hplan : m.slackPlan[k]? = some m.slackPlan[k] := List.getElem?_eq_getElem hlt
      have hadmits := h.admitted _ _ (getElem?_widened_slacks hplan)
      rw [← hp.size, entry_append_right, entry_eq_getElem hk] at hadmits
      exact hadmits.1
  · rintro ⟨hadmits, hext⟩
    refine ⟨hext.toIsFiniteVector, fun j v hv => ?_, hext.rows⟩
    have hj : j < m.vars.size + m.slackPlan.length :=
      hsize ▸ (Array.getElem?_eq_some_iff.mp hv).choose
    by_cases hold : j < m.vars.size
    · have hsame : (m.widened penalty m.slackPlan).vars[j]? = some m.vars[j] :=
        getElem?_widened_vars (Array.getElem?_eq_getElem hold)
      obtain rfl := Option.some.inj (hv.symm.trans hsame)
      rw [entry_append_left (hp.size.symm ▸ hold)]
      exact hadmits.admitted j _ (Array.getElem?_eq_getElem hold)
    · obtain ⟨k, rfl⟩ := Nat.exists_eq_add_of_le (not_lt.mp hold)
      have hlt : k < m.slackPlan.length := by omega
      have hplan : m.slackPlan[k]? = some m.slackPlan[k] := List.getElem?_eq_getElem hlt
      obtain rfl := Option.some.inj (hv.symm.trans (getElem?_widened_slacks hplan))
      have hall := hext.size
      rw [Array.size_append, hsize, hp.size] at hall
      have hk : k < values.size := by omega
      rw [← hp.size, entry_append_right, entry_eq_getElem hk, admits_slack_iff]
      · exact hext.nonnegative _ (Array.getElem_mem hk)
      · exact hext.finite _ (Array.mem_append_right _ (Array.getElem_mem hk))

/-- With all slack columns at zero the rows are those of the model before. -/
theorem isExtension_zero_iff (hm : m.WellFormed) (hw : (m.widened penalty m.slackPlan).WellFormed)
    (hp : IsFiniteVector m.vars.size point) :
    (m.widened penalty m.slackPlan).IsExtension point (Array.replicate m.slackPlan.length 0.0) ↔
      ∀ c ∈ m.constraints, c.Holds point := by
  have hzero : ∀ a ∈ Array.replicate m.slackPlan.length (0.0 : Exact), a = 0.0 :=
    fun a ha => Array.eq_of_mem_replicate ha
  have hext : IsFiniteVector (m.widened penalty m.slackPlan).vars.size
      (point ++ Array.replicate m.slackPlan.length 0.0) := by
    constructor
    · simp [size_widened_vars, hp.size]
    · intro a ha
      rcases Array.mem_append.mp ha with ha | ha
      · exact hp.finite a ha
      · exact hzero a ha ▸ Scalar.isFinite_zero
  have hunused (row : ℕ) : termSum (columnsOf row m.slackPlan m.vars.size)
      (coordinate (point ++ Array.replicate m.slackPlan.length 0.0)) = 0 := by
    apply List.sum_eq_zero
    intro q hq
    obtain ⟨t, ht, rfl⟩ := List.mem_map.mp hq
    obtain ⟨k, column, hcolumn, rfl, -⟩ := exists_of_mem_columnsOf ht
    have hk : k < m.slackPlan.length := (List.getElem?_eq_some_iff.mp hcolumn).choose
    rw [← hp.size, coordinate_append_right]
    simp [coordinate, entry, hk]
  have hrows := rows_widened_iff hm hw hp hext
  simp only [hunused, sub_zero] at hrows
  constructor
  · intro h c hc
    obtain ⟨row, hrow⟩ := Array.mem_iff_getElem?.mp hc
    obtain ⟨hover, hrhs⟩ := hm.rows c hc
    rw [Constraint.holds_iff hover hrhs hp]
    exact hrows.mp h.rows row c hrow
  · intro h
    refine ⟨hext, fun s hs => by simp [hzero s hs], hrows.mpr fun row c hrow => ?_⟩
    have hc := Array.mem_of_getElem? hrow
    obtain ⟨hover, hrhs⟩ := hm.rows c hc
    exact (Constraint.holds_iff hover hrhs hp).mp (h c hc)

/-- Making rows elastic is an exact penalty: whatever point is chosen for the variables that there
were before, the least objective with slack columns is that of the point and the penalty for its
violations. Only bounds keep an elastic model from having a point, and without slack its points are
those of the model before, of which it keeps variables, rows and their names. -/
theorem relaxWithPenalty_isExact {m' : Model Exact} {slacks : Array ℕ} (hm : m.WellFormed)
    (h : m.relaxWithPenalty penalty = (m', .ok slacks)) :
    m'.Keeps m ∧ slacks = Array.range' m.vars.size slacks.size ∧
      ((∃ all, m'.Feasible all) ↔ ∃ point, m.Admits point) ∧
      ∀ point, IsFiniteVector m.vars.size point →
        m'.HasCheapestExtension point (m.penalizedValue penalty point) ∧
        (∀ values, m'.Feasible (point ++ values) ↔ m.Admits point ∧ m'.IsExtension point values) ∧
        (m'.Feasible (point ++ Array.replicate slacks.size 0.0) ↔ m.Feasible point) := by
  have hw : m'.WellFormed := by simpa [h] using hm.relaxWithPenalty penalty
  obtain ⟨hpenalty, rfl, rfl⟩ := relaxWithPenalty_eq h
  refine ⟨hm.widened_keeps hw, by simp, ⟨?_, ?_⟩, fun point hp => ⟨?_, ?_, ?_⟩⟩
  · rintro ⟨all, hall⟩
    have hsize : m.vars.size ≤ all.size := by simp [hall.size, size_widened_vars]
    have hsplit : all.extract 0 m.vars.size ++ all.extract m.vars.size all.size = all := by
      simp [hsize]
    have hpoint : IsFiniteVector m.vars.size (all.extract 0 m.vars.size) := by
      refine ⟨by simp [hsize], fun a ha => hall.finite a ?_⟩
      rw [← hsplit]
      exact Array.mem_append_left _ ha
    rw [← hsplit] at hall
    exact ⟨_, ((feasible_widened_iff hpoint).mp hall).1⟩
  · rintro ⟨point, hadmits⟩
    have hp := hadmits.toIsFiniteVector
    exact ⟨_, (feasible_widened_iff hp).mpr ⟨hadmits, isExtension_cheapestSlacks hm hw hp⟩⟩
  · exact hasCheapestExtension hm hw hp hpenalty
  · exact fun values => feasible_widened_iff hp
  · rw [Array.size_range', feasible_widened_iff hp, isExtension_zero_iff hm hw hp]
    exact ⟨fun ⟨hadmits, hrows⟩ => ⟨hp, hadmits.admitted, hrows⟩,
      fun hfeasible => ⟨⟨hp, hfeasible.admitted⟩, hfeasible.rows⟩⟩

end Model

end Points

/-- Rows of each relation, one of them with a repeated term, and a square in the objective. -/
def mixedLimits : Model Exact where
  vars := #[.continuous "x" (some (number 0)) (some (number 10)), .continuous "y" none none]
  constraints := #[
    ⟨"cap", ⟨#[(0, number 1), (0, number 1)], number 0⟩, .atMost, number 3⟩,
    ⟨"floor", ⟨#[(1, number 1), (0, number (-1))], number 0⟩, .atLeast, number 2⟩,
    ⟨"balance", ⟨#[(0, number 1), (1, number 1)], number 1⟩, .equal, number 5⟩]
  objective := ⟨#[(0, number 1)], number (1 / 2)⟩
  quadratic := #[(1, number 1)]
  expressions := .empty

/-- At `x = 3`, `y = 2` the rows are violated by 3, 3 and 1. -/
theorem mixedLimits_penalty : mixedLimits.WellFormed ∧
    ∃ m', mixedLimits.relaxWithPenalty (number 10) = (m', .ok #[2, 3, 4, 5]) ∧
      m'.HasCheapestExtension #[number 3, number 2] (number (7 + 1 / 2 + 10 * (3 + 3 + 1))) ∧
      ¬m'.Feasible #[number 3, number 2, number 0, number 0, number 0, number 0] ∧
      m'.Feasible #[number 1, number 3, number 0, number 0, number 0, number 0] := by
  have hm : mixedLimits.WellFormed := by decide +kernel
  have hslacks : (mixedLimits.relaxWithPenalty (number 10)).2 = .ok #[2, 3, 4, 5] := by
    decide +kernel
  have hrelaxed : mixedLimits.relaxWithPenalty (number 10) =
      ((mixedLimits.relaxWithPenalty (number 10)).1, .ok #[2, 3, 4, 5]) := Prod.ext rfl hslacks
  obtain ⟨-, -, -, hpoints⟩ := Model.relaxWithPenalty_isExact hm hrelaxed
  have hvalue : mixedLimits.penalizedValue (number 10) #[number 3, number 2] =
      number (7 + 1 / 2 + 10 * (3 + 3 + 1)) := by decide +kernel
  have hviolated := hpoints #[number 3, number 2] (by decide +kernel)
  have hmet := hpoints #[number 1, number 3] (by decide +kernel)
  have hwithoutSlack : ∀ x y : Exact, #[x, y] ++ Array.replicate #[2, 3, 4, 5].size (0.0 : Exact) =
      #[x, y, number 0, number 0, number 0, number 0] := by
    intro x y
    simp
  rw [hwithoutSlack] at hviolated hmet
  exact ⟨hm, _, hrelaxed, hvalue ▸ hviolated.1, hviolated.2.2.not.mpr (by decide +kernel),
    hmet.2.2.mpr (by decide +kernel)⟩

end BendersPlanning

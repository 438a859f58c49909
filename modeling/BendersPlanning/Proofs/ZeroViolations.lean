import BendersPlanning.Proofs.FeasiblePoints

/-!
# What a violation of zero says

The largest violation of a point is a maximum that passes over values which are no numbers, and it
looks at the bounds of those variables only that the point has an entry for. So a violation of zero
means that nothing which could be measured is violated. For finite points of full length that is
feasibility up to integrality; a shorter point, or one with an entry that is no number, has the
violation zero as soon as its other entries and the rows over them allow for it.
-/

namespace BendersPlanning

open Scalar (larger entry isFinite isUndefined)

section Maxima
variable {K : Type} [Scalar K] [OrderedScalar K] {α : Type} {x y z : K}

/-- To be below the larger of two values is to be below one of them. -/
theorem lt_larger_iff : x < larger y z ↔ x < y ∨ x < z := by
  have hdefined : ∀ {u : K}, x < u → isUndefined u ≠ true := fun hlt htrue =>
    Bool.false_ne_true ((OrderedScalar.defined_of_lt hlt).2.symm.trans htrue)
  unfold larger
  split_ifs with hy hz hyz
  · exact ⟨.inr, fun h => h.resolve_left fun hlt => hdefined hlt hy⟩
  · exact ⟨.inl, fun h => h.resolve_right fun hlt => hdefined hlt hz⟩
  · refine ⟨.inr, fun h => h.elim (fun hxy => ?_) id⟩
    exact OrderedScalar.lt_of_lt_of_not_lt hxy (by simpa using hz) (OrderedScalar.lt_asymm hyz)
  · refine ⟨.inl, fun h => h.elim id fun hxz => ?_⟩
    exact OrderedScalar.lt_of_lt_of_not_lt hxz (by simpa using hy) hyz

theorem lt_foldl_larger_iff (f : α → K) (values : List α) (first : K) :
    x < values.foldl (fun acc a => larger acc (f a)) first ↔
      x < first ∨ ∃ a ∈ values, x < f a := by
  induction values generalizing first with
  | nil => simp
  | cons a values ih => simp [ih, lt_larger_iff, or_assoc]

omit [OrderedScalar K] in
theorem isUndefined_larger (hy : isUndefined y = false) : isUndefined (larger y z) = false := by
  unfold larger
  split_ifs with h₁ h₂
  · exact absurd h₁ (by simp [hy])
  · exact hy
  · simpa using h₂
  · exact hy

omit [OrderedScalar K] in
theorem isUndefined_foldl_larger (f : α → K) (values : List α) {first : K}
    (hfirst : isUndefined first = false) :
    isUndefined (values.foldl (fun acc a => larger acc (f a)) first) = false := by
  induction values generalizing first with
  | nil => exact hfirst
  | cons a values ih => exact ih (isUndefined_larger hfirst)

namespace Model

variable (m : Model K) (point : Array K)

/-- A row, or the bounds of a variable that the point has an entry for, are violated by more. -/
theorem lt_maxViolation_iff : x < m.maxViolation point ↔
    x < 0.0 ∨ (∃ c ∈ m.constraints, x < c.violation point) ∨
      ∃ (j : ℕ) (v : Variable K) (y : K),
        m.vars[j]? = some v ∧ point[j]? = some y ∧ x < v.violation y := by
  have hzip : (∃ vy ∈ (m.vars.zip point).toList, x < vy.1.violation vy.2) ↔
      ∃ (j : ℕ) (v : Variable K) (y : K),
        m.vars[j]? = some v ∧ point[j]? = some y ∧ x < v.violation y := by
    constructor
    · rintro ⟨⟨v, y⟩, hmem, hlt⟩
      obtain ⟨j, hj⟩ := List.mem_iff_getElem?.mp hmem
      rw [Array.getElem?_toList, Array.getElem?_zip_eq_some] at hj
      exact ⟨j, v, y, hj.1, hj.2, hlt⟩
    · rintro ⟨j, v, y, hv, hy, hlt⟩
      refine ⟨(v, y), List.mem_iff_getElem?.mpr ⟨j, ?_⟩, hlt⟩
      rw [Array.getElem?_toList, Array.getElem?_zip_eq_some]
      exact ⟨hv, hy⟩
  rw [maxViolation, lt_larger_iff, ← Array.foldl_toList, ← Array.foldl_toList,
    lt_foldl_larger_iff (fun c : Constraint K => c.violation point),
    lt_foldl_larger_iff (fun vy : Variable K × K => vy.1.violation vy.2), hzip]
  simp only [Array.mem_toList_iff]
  exact or_or_distrib_left.symm

omit [OrderedScalar K] in
theorem isUndefined_maxViolation (hzero : isUndefined (0.0 : K) = false) :
    isUndefined (m.maxViolation point) = false := by
  unfold maxViolation
  rw [← Array.foldl_toList]
  exact isUndefined_larger
    (isUndefined_foldl_larger (fun c : Constraint K => c.violation point) _ hzero)

end Model

end Maxima

open Exact (number)

namespace Exact

variable {x y : Exact}

/-- A difference is positive just when it is one of ordered values, infinite ones included. -/
theorem zero_lt_sub_iff : number 0 < y - x ↔ x < y := by
  change isBelow (number 0) (add y x.neg) = true ↔ isBelow x y = true
  cases x <;> cases y <;> simp [add, neg, isBelow, ← sub_eq_add_neg]

theorem zero_lt_abs_iff : number 0 < Scalar.abs x ↔ number 0 < x ∨ x < number 0 := by
  cases x with
  | number q => simp [abs_number, lt_or_lt_iff_ne, eq_comm]
  | infinity | negInfinity | undefined => decide +kernel

theorem sub_lt_zero_iff : y - x < number 0 ↔ y < x := by
  change isBelow (add y x.neg) (number 0) = true ↔ isBelow y x = true
  cases x <;> cases y <;> simp [add, neg, isBelow, ← sub_eq_add_neg]

theorem not_lt_iff : ¬x < y ↔ isUndefined x = true ∨ isUndefined y = true ∨ y ≤ x := by
  constructor
  · intro h
    by_cases hx : isUndefined x = true
    · exact .inl hx
    by_cases hy : isUndefined y = true
    · exact .inr (.inl hy)
    · exact .inr (.inr (le_of_not_lt (Bool.eq_false_iff.mpr hy) (Bool.eq_false_iff.mpr hx) h))
  · rintro (hx | hy | hle) hlt
    · exact Bool.false_ne_true ((isUndefined_of_lt hlt).1.symm.trans hx)
    · exact Bool.false_ne_true ((isUndefined_of_lt hlt).2.symm.trans hy)
    · exact Exact.not_lt_of_le hle hlt

end Exact

section Measured
variable {m : Model Exact} {point : Array Exact}

/-- A row shows no violation when it holds, or when its activity is no number. -/
theorem Constraint.not_zero_lt_violation_iff {c : Constraint Exact}
    (hrhs : isUndefined c.rhs = false) : ¬number 0 < c.violation point ↔
      isUndefined (c.expression.evaluate point) = true ∨ c.Holds point := by
  have hzero : ¬number 0 < number 0 := lt_irrefl_scalar _
  unfold violation Holds
  rw [Exact.zero_eq]
  cases c.sense with
  | atMost =>
    simp only [lt_larger_iff, Exact.zero_lt_sub_iff, hzero, or_false]
    simp [Exact.not_lt_iff, hrhs]
  | atLeast =>
    simp only [lt_larger_iff, Exact.zero_lt_sub_iff, hzero, or_false]
    simp [Exact.not_lt_iff, hrhs]
  | equal =>
    simp only [Exact.zero_lt_abs_iff, Exact.zero_lt_sub_iff, Exact.sub_lt_zero_iff]
    simp [Exact.not_lt_iff, hrhs, or_and_left]

theorem Variable.not_zero_lt_violation_iff {v : Variable Exact} {x : Exact}
    (hlower : isUndefined v.lowerBound = false) (hupper : isUndefined v.upperBound = false) :
    ¬number 0 < v.violation x ↔
      isUndefined x = true ∨ (v.lowerBound ≤ x ∧ x ≤ v.upperBound) := by
  have hzero : ¬number 0 < number 0 := lt_irrefl_scalar _
  simp only [violation, Exact.zero_eq, lt_larger_iff, Exact.zero_lt_sub_iff, hzero, or_false]
  simp [Exact.not_lt_iff, hlower, hupper, or_and_left]

end Measured

section Undefined
variable {e : Expression Exact} {point : Array Exact}

theorem Exact.mul_undefined (x : Exact) : x * .undefined = .undefined := by cases x <;> rfl

theorem Exact.add_undefined (x : Exact) : x + .undefined = .undefined := by cases x <;> rfl

theorem Exact.undefined_add (x : Exact) : .undefined + x = .undefined := rfl

theorem Exact.eq_undefined {x : Exact} (h : isUndefined x = true) : x = .undefined := by
  cases x with
  | number q => simp at h
  | infinity | negInfinity => cases h
  | undefined => rfl

theorem foldl_terms_undefined (terms : List (ℕ × Exact)) :
    terms.foldl (fun acc t => acc + t.2 * entry point t.1) Exact.undefined = .undefined := by
  induction terms with
  | nil => rfl
  | cons t terms ih => rw [List.foldl_cons, Exact.undefined_add, ih]

/-- One entry that is no number, or is not there, and the activity is no number. -/
theorem Expression.evaluate_eq_undefined {t : ℕ × Exact} (ht : t ∈ e.terms)
    (hentry : isUndefined (entry point t.1) = true) : e.evaluate point = .undefined := by
  obtain ⟨before, after, hterms⟩ := List.append_of_mem (Array.mem_toList_iff.mpr ht)
  obtain ⟨v, coefficient⟩ := t
  rw [evaluate, ← Array.foldl_toList, hterms, List.foldl_append, List.foldl_cons]
  simp only [Exact.eq_undefined hentry, Exact.mul_undefined, Exact.add_undefined]
  exact foldl_terms_undefined after

/-- Where all entries are finite, an activity is a number when the point has an entry for each
variable of the expression. -/
theorem Expression.isUndefined_evaluate_iff {count : ℕ} (he : e.IsOver count)
    (hp : ∀ x ∈ point, isFinite x = true) :
    isUndefined (e.evaluate point) = true ↔ ∃ t ∈ e.terms, point.size ≤ t.1 := by
  constructor
  · intro h
    by_contra! hall
    have hover : e.IsOver point.size :=
      ⟨fun t ht => ⟨hall t ht, (he.terms t ht).2⟩, he.constant⟩
    rw [evaluate_eq hover ⟨rfl, hp⟩] at h
    simp at h
  · rintro ⟨t, ht, hsize⟩
    have hentry : entry point t.1 = .undefined := by
      simp [entry, Array.getElem?_eq_none hsize]
    rw [evaluate_eq_undefined ht (by rw [hentry]; rfl)]
    rfl

end Undefined

namespace Model

variable {m : Model Exact} {point : Array Exact}

/-- The entries that a point has are within the bounds of their variables. -/
def AdmitsEntries (m : Model Exact) (point : Array Exact) : Prop :=
  ∀ (j : ℕ) (v : Variable Exact) (x : Exact), m.vars[j]? = some v → point[j]? = some x →
    v.lowerBound ≤ x ∧ x ≤ v.upperBound

/-- Nothing about a point that is a number is violated: an entry that leaves the bounds of its
variable is none, and so is the activity of a row that does not hold. -/
structure ShowsNoViolation (m : Model Exact) (point : Array Exact) : Prop where
  entries : ∀ (j : ℕ) (v : Variable Exact) (x : Exact), m.vars[j]? = some v →
    point[j]? = some x → isUndefined x = true ∨ (v.lowerBound ≤ x ∧ x ≤ v.upperBound)
  rows : ∀ c ∈ m.constraints, isUndefined (c.expression.evaluate point) = true ∨ c.Holds point

theorem zero_le_maxViolation (m : Model Exact) (point : Array Exact) :
    number 0 ≤ m.maxViolation point := by
  have hdefined : isUndefined (m.maxViolation point) = false :=
    m.isUndefined_maxViolation point (by decide +kernel)
  refine Exact.le_of_not_lt (Exact.isUndefined_number 0) hdefined fun hlt => ?_
  -- A value that is below zero would be below one of the values it is the largest of.
  have hself := (m.lt_maxViolation_iff point).mpr (.inl (Exact.zero_eq ▸ hlt))
  exact lt_irrefl_scalar _ hself

theorem maxViolation_eq_zero_iff_not_lt :
    m.maxViolation point = number 0 ↔ ¬number 0 < m.maxViolation point := by
  constructor
  · intro h
    rw [h]
    exact lt_irrefl_scalar _
  · intro h
    have hsame := (m.zero_le_maxViolation point).resolve_left h
    simp only [Exact.isSame, Bool.and_eq_true, decide_eq_true_eq] at hsame
    exact hsame.2.symm

theorem WellFormed.maxViolation_eq_zero_iff (hm : m.WellFormed) :
    m.maxViolation point = number 0 ↔ m.ShowsNoViolation point := by
  have hrhs : ∀ c ∈ m.constraints, isUndefined c.rhs = false := by
    intro c hc
    obtain ⟨q, hq⟩ := Exact.isFinite_iff.mp (hm.rows c hc).2
    rw [hq, Exact.isUndefined_number]
  have hbounds : ∀ (j : ℕ) (v : Variable Exact), m.vars[j]? = some v →
      isUndefined v.lowerBound = false ∧ isUndefined v.upperBound = false := fun j v hv =>
    have hv := hm.bounds v (Array.mem_of_getElem? hv)
    ⟨hv.1, hv.2.1⟩
  rw [maxViolation_eq_zero_iff_not_lt, lt_maxViolation_iff]
  constructor
  · intro h
    obtain ⟨-, hrows, hentries⟩ := not_or.mp h |>.imp_right not_or.mp
    refine ⟨fun j v x hv hx => ?_, fun c hc => ?_⟩
    · obtain ⟨hlower, hupper⟩ := hbounds j v hv
      exact (Variable.not_zero_lt_violation_iff hlower hupper).mp fun hlt =>
        hentries ⟨j, v, x, hv, hx, hlt⟩
    · exact (Constraint.not_zero_lt_violation_iff (hrhs c hc)).mp fun hlt => hrows ⟨c, hc, hlt⟩
  · rintro h (hzero | ⟨c, hc, hlt⟩ | ⟨j, v, x, hv, hx, hlt⟩)
    · exact lt_irrefl_scalar _ (Exact.zero_eq ▸ hzero)
    · exact (Constraint.not_zero_lt_violation_iff (hrhs c hc)).mpr (h.rows c hc) hlt
    · obtain ⟨hlower, hupper⟩ := hbounds j v hv
      exact (Variable.not_zero_lt_violation_iff hlower hupper).mpr (h.entries j v x hv hx) hlt

/-- With finite entries only, what is passed over are the rows that reach beyond the point. -/
theorem WellFormed.showsNoViolation_iff (hm : m.WellFormed) (hp : ∀ x ∈ point, isFinite x = true) :
    m.ShowsNoViolation point ↔ m.AdmitsEntries point ∧
      ∀ c ∈ m.constraints, (∀ t ∈ c.expression.terms, t.1 < point.size) → c.Holds point := by
  have hrow : ∀ c ∈ m.constraints, (isUndefined (c.expression.evaluate point) = true ∨
      c.Holds point ↔ ((∀ t ∈ c.expression.terms, t.1 < point.size) → c.Holds point)) := by
    intro c hc
    rw [Expression.isUndefined_evaluate_iff (hm.rows c hc).1 hp, imp_iff_not_or]
    simp only [not_forall, not_lt, exists_prop]
  have hentry : ∀ (j : ℕ) (x : Exact), point[j]? = some x → isUndefined x ≠ true := by
    intro j x hx
    obtain ⟨q, rfl⟩ := Exact.isFinite_iff.mp (hp x (Array.mem_of_getElem? hx))
    simp
  constructor
  · intro h
    exact ⟨fun j v x hv hx => (h.entries j v x hv hx).resolve_left (hentry j x hx),
      fun c hc => (hrow c hc).mp (h.rows c hc)⟩
  · rintro ⟨hentries, hrows⟩
    exact ⟨fun j v x hv hx => .inr (hentries j v x hv hx),
      fun c hc => (hrow c hc).mpr (hrows c hc)⟩

/-- A finite point of full length has an entry in reach of every row and bound. -/
theorem WellFormed.showsNoViolation_iff_feasible (hm : m.WellFormed)
    (hp : IsFiniteVector m.vars.size point) :
    m.ShowsNoViolation point ↔ m.relaxIntegrality.Feasible point := by
  have hvars : m.relaxIntegrality.vars.size = m.vars.size := by simp [Model.relaxIntegrality]
  have hentry : ∀ (j : ℕ) (v : Variable Exact), m.vars[j]? = some v →
      point[j]? = some (entry point j) := by
    intro j v hv
    have hj : j < point.size := hp.size ▸ (Array.getElem?_eq_some_iff.mp hv).choose
    simp [entry, hj]
  rw [hm.showsNoViolation_iff hp.finite]
  constructor
  · rintro ⟨hentries, hrows⟩
    refine ⟨hvars ▸ hp, fun j u hu => ?_, fun c hc => hrows c hc fun t ht => ?_⟩
    · obtain ⟨v, hv, rfl⟩ : ∃ v, m.vars[j]? = some v ∧ { v with integer := false } = u := by
        simpa [Model.relaxIntegrality] using hu
      obtain ⟨hlower, hupper⟩ := hentries j v _ hv (hentry j v hv)
      exact ⟨hlower, hupper, fun hinteger => absurd hinteger Bool.false_ne_true⟩
    · exact ((hm.rows c hc).1.terms t ht).1.trans_eq hp.size.symm
  · intro h
    refine ⟨fun j v x hv hx => ?_, fun c hc _ => h.rows c hc⟩
    have hadmitted := h.admitted j { v with integer := false } (by simp [Model.relaxIntegrality, hv])
    obtain rfl : entry point j = x := Option.some.inj ((hentry j v hv).symm.trans hx)
    exact ⟨hadmitted.1, hadmitted.2.1⟩

/-- A violation is never below zero, and it is zero when nothing that is a number is violated. This
is feasibility up to integrality at a finite point of full length; at a finite point of another
length the rows that reach beyond it are passed over, and in general those with a variable whose
entry is not there or is no number. -/
theorem maxViolation_zero_cases (hm : m.WellFormed) :
    (∀ point, number 0 ≤ m.maxViolation point ∧
      (m.maxViolation point = number 0 ↔ m.ShowsNoViolation point)) ∧
    (∀ point, ∀ c ∈ m.constraints,
      (∃ t ∈ c.expression.terms, isUndefined (entry point t.1) = true) →
        isUndefined (c.expression.evaluate point) = true) ∧
    (∀ point, (∀ x ∈ point, isFinite x = true) →
      (m.maxViolation point = number 0 ↔ m.AdmitsEntries point ∧
        ∀ c ∈ m.constraints, (∀ t ∈ c.expression.terms, t.1 < point.size) → c.Holds point)) ∧
    ∀ point, IsFiniteVector m.vars.size point →
      (m.maxViolation point = number 0 ↔ m.relaxIntegrality.Feasible point) := by
  refine ⟨fun point => ⟨m.zero_le_maxViolation point, hm.maxViolation_eq_zero_iff⟩, ?_, ?_, ?_⟩
  · rintro point c - ⟨t, ht, hentry⟩
    rw [Expression.evaluate_eq_undefined ht hentry]
    rfl
  · intro point hp
    rw [hm.maxViolation_eq_zero_iff, hm.showsNoViolation_iff hp]
  · intro point hp
    rw [hm.maxViolation_eq_zero_iff, hm.showsNoViolation_iff_feasible hp]

/-- One variable between one and two, and a row that asks for at least one. -/
def atLeastOne : Model Exact where
  vars := #[.continuous "x" (some (number 1)) (some (number 2))]
  constraints := #[⟨"need", ⟨#[(0, number 1)], number 0⟩, .atLeast, number 1⟩]
  objective := .zero
  quadratic := #[]
  expressions := .empty

theorem maxViolation_zero_cases_atLeastOne :
    atLeastOne.WellFormed ∧ (atLeastOne.maxViolation #[number 2] = number 0 ↔
      atLeastOne.relaxIntegrality.Feasible #[number 2]) ∧
    atLeastOne.relaxIntegrality.Feasible #[number 2] := by
  have hm : atLeastOne.WellFormed := by decide +kernel
  exact ⟨hm, (maxViolation_zero_cases hm).2.2.2 _ (by decide +kernel), by decide +kernel⟩

/-- The point without entries and the one whose entry is no number have the violation zero, although
the row does not hold at them. -/
theorem atLeastOne_zero_violation_without_activity :
    atLeastOne.WellFormed ∧ ∀ point ∈ [#[], #[.undefined]],
      atLeastOne.maxViolation point = number 0 ∧
        ∀ c ∈ atLeastOne.constraints,
          isUndefined (c.expression.evaluate point) = true ∧ ¬c.Holds point := by
  exact ⟨by decide +kernel, by decide +kernel⟩

end Model

end BendersPlanning

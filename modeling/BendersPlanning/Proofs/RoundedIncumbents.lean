import BendersPlanning.Proofs.ElasticModels
import BendersPlanning.Proofs.ExactSearches

/-!
# Rounded incumbents

A search stores a minimiser that is whole up to a tolerance with its integer entries rounded, and
looks neither at the rows nor at the incumbent again once it has rounded. So an incumbent meets
bounds and rows up to what the rounding changes, `Incumbent.IsRoundingOf`, and what is below the
incumbent before it is the objective of the minimiser and not that of the point stored for it.
Where minimisers are whole, as they are under a tolerance of zero, incumbents meet the model and
each is better than the last.
-/

namespace BendersPlanning

section Meaning
variable {K : Type} [Scalar K]

/-- Whether an objective is below that of an incumbent by more than the relative `1e-9`. -/
def Incumbent.IsBeatenBy (best : Incumbent K) (objective : K) : Prop :=
  ¬best.objective - 1e-9 * Scalar.larger (Scalar.abs best.objective) 1.0 ≤ objective

namespace SearchState

/-- The nodes whose minimisers a search makes incumbents of, in that order. -/
def improvingNodes (m : Model K) (tolerance : K) (relax : SearchNode K → Solution K) :
    Nat → SearchState K → List (SearchNode K)
  | budget, s =>
    match s.stack, budget with
    | [], _ => []
    | _ :: _, 0 => []
    | node :: rest, budget + 1 =>
      match s.step m tolerance node rest (relax node) with
      | some s' => (if s.improves m tolerance (relax node) then [node] else []) ++
          improvingNodes m tolerance relax budget s'
      | none => []

end SearchState

def Model.improvingNodes (m : Model K) (settings : SolverSettings K)
    (relax : SearchNode K → Solution K) : List (SearchNode K) :=
  SearchState.improvingNodes m settings.integralityTol relax settings.maxNodes m.searchStart

end Meaning

section Incumbents
variable {K : Type} [Scalar K] {m : Model K} {tolerance : K} {s s' final : SearchState K}
  {node : SearchNode K} {rest nodes : List (SearchNode K)} {outcome : Solution K}
  {relax : SearchNode K → Solution K} {budget : Nat} {reason : SearchEnd} {best : Incumbent K}

namespace SearchState

theorem isBeatenBy_of_improves (h : s.improves m tolerance outcome = true)
    (hbest : s.incumbent = some best) : best.IsBeatenBy outcome.objective := by
  obtain ⟨-, hkept⟩ := Bool.and_eq_true_iff.mp h
  simpa [prunes, hbest, Incumbent.IsBeatenBy] using hkept

theorem improvingNodes_of_stack_eq_nil (h : s.stack = []) :
    improvingNodes m tolerance relax budget s = [] := by
  unfold improvingNodes
  rw [h]

theorem improvingNodes_zero : improvingNodes m tolerance relax 0 s = [] := by
  unfold improvingNodes
  cases s.stack <;> rfl

theorem improvingNodes_of_step_eq_none (hstack : s.stack = node :: rest)
    (hnone : s.step m tolerance node rest (relax node) = none) :
    improvingNodes m tolerance relax (budget + 1) s = [] := by
  unfold improvingNodes
  simp only [hstack, hnone]

theorem improvingNodes_of_step_eq_some (hstack : s.stack = node :: rest)
    (hsome : s.step m tolerance node rest (relax node) = some s') :
    improvingNodes m tolerance relax (budget + 1) s =
      (if s.improves m tolerance (relax node) then [node] else []) ++
        improvingNodes m tolerance relax budget s' := by
  conv_lhs => unfold improvingNodes
  simp only [hstack, hsome]

namespace Explores

theorem of_mem_improvingNodes (h : Explores m tolerance relax budget s nodes final reason)
    (hnode : node ∈ improvingNodes m tolerance relax budget s) :
    node ∈ nodes ∧ m.isWhole tolerance (relax node) = true := by
  induction h with
  | exhausted hstack => simp [improvingNodes_of_stack_eq_nil hstack] at hnode
  | nodeLimit hstack => simp [improvingNodes_zero] at hnode
  | unbounded hstack hnone => simp [improvingNodes_of_step_eq_none hstack hnone] at hnode
  | @explored _ s _ _ first _ _ _ hstack hsome hrun ih =>
    rw [improvingNodes_of_step_eq_some hstack hsome] at hnode
    rcases List.mem_append.mp hnode with hfirst | hlater
    · split_ifs at hfirst with himproves
      · obtain rfl := List.mem_singleton.mp hfirst
        exact ⟨List.mem_cons_self, (Bool.and_eq_true_iff.mp himproves).1⟩
      · cases hfirst
    · exact ⟨List.mem_cons_of_mem _ (ih hlater).1, (ih hlater).2⟩

/-- A search ends with the incumbent that it made last. -/
theorem incumbent_eq (h : Explores m tolerance relax budget s nodes final reason) :
    final.incumbent = ((improvingNodes m tolerance relax budget s).getLast?.map
      fun node => m.rounding (relax node)).or s.incumbent := by
  induction h with
  | exhausted hstack => simp [improvingNodes_of_stack_eq_nil hstack]
  | nodeLimit hstack => simp [improvingNodes_zero]
  | unbounded hstack hnone => simp [improvingNodes_of_step_eq_none hstack hnone]
  | @explored _ s s' _ first _ _ _ hstack hsome hrun ih =>
    rw [ih, (stepsTo_of_step hsome).incumbent_eq, improvingNodes_of_step_eq_some hstack hsome,
      List.getLast?_append]
    cases improvingNodes m tolerance relax _ s' |>.getLast? <;> split_ifs <;> simp

/-- Each minimiser that a search makes an incumbent of beats the incumbent made before. -/
theorem isChain_improvingNodes (h : Explores m tolerance relax budget s nodes final reason) :
    (∀ first ∈ (improvingNodes m tolerance relax budget s).head?, ∀ best ∈ s.incumbent,
        best.IsBeatenBy (relax first).objective) ∧
      (improvingNodes m tolerance relax budget s).IsChain fun old new =>
        (m.rounding (relax old)).IsBeatenBy (relax new).objective := by
  induction h with
  | exhausted hstack => simp [improvingNodes_of_stack_eq_nil hstack]
  | nodeLimit hstack => simp [improvingNodes_zero]
  | unbounded hstack hnone => simp [improvingNodes_of_step_eq_none hstack hnone]
  | @explored _ s s' _ first _ _ _ hstack hsome hrun ih =>
    -- The state carries the last incumbent past nodes that store nothing, so the first node that
    -- stores something is compared with it.
    obtain ⟨hhead, hchain⟩ := ih
    have hincumbent := (stepsTo_of_step hsome).incumbent_eq
    rw [improvingNodes_of_step_eq_some hstack hsome]
    by_cases himproves : s.improves m tolerance (relax first) = true
    · rw [if_pos himproves] at hincumbent ⊢
      rw [List.singleton_append, List.head?_cons, List.isChain_cons]
      refine ⟨fun node hnode best hbest => ?_, fun new hnew => hhead new hnew _ hincumbent, hchain⟩
      obtain rfl := Option.some.inj hnode
      exact isBeatenBy_of_improves himproves hbest
    · rw [if_neg himproves] at hincumbent ⊢
      rw [List.nil_append, ← hincumbent]
      exact ⟨hhead, hchain⟩

end Explores

end SearchState

end Incumbents

open Exact (number)
open Scalar (entry)

namespace Exact

theorem intCast_le_nearest {i : ℤ} {q : ℚ} (h : (i : ℚ) ≤ q) : i ≤ nearest q := by
  by_contra hless
  have hbelow : (nearest q : ℚ) ≤ i - 1 := by exact_mod_cast Int.le_sub_one_of_lt (not_le.mp hless)
  linarith [le_abs_self (q - nearest q), abs_sub_nearest_le q]

theorem nearest_le_intCast {i : ℤ} {q : ℚ} (h : q ≤ i) : nearest q ≤ i := by
  by_contra hmore
  have habove : (i : ℚ) + 1 ≤ nearest q := by exact_mod_cast Int.add_one_le_of_lt (not_le.mp hmore)
  linarith [neg_abs_le (q - nearest q), abs_sub_nearest_le q]

theorem half_eq : (0.5 : Exact) = number (1 / 2) := by
  change number (Rat.ofScientific 5 true 1) = number (1 / 2)
  norm_num [Rat.ofScientific_def, Rat.mkRat_eq_div]

/-- Rounding within a tolerance moves values by a bounded distance even if the tolerance is infinite. -/
theorem exists_smaller_half {tolerance : Exact} (h : 0.0 ≤ tolerance) :
    ∃ t : ℚ, 0 ≤ t ∧ Scalar.smaller tolerance 0.5 = number t := by
  rw [half_eq]
  rw [zero_eq] at h
  cases tolerance with
  | number q => exact ⟨_, le_min (number_le.mp h) (by norm_num), smaller_number q _⟩
  | infinity =>
    refine ⟨1 / 2, by norm_num, ?_⟩
    rw [Scalar.smaller, isUndefined_number]
    rfl
  | negInfinity => rcases h with h | h <;> cases h
  | undefined => rcases h with h | h <;> cases h

end Exact

/-- How much an expression changes at most per unit by which integer variables change. -/
def Expression.integerSpread (e : Expression Exact) (m : Model Exact) : ℚ :=
  ∑ j ∈ Finset.range m.vars.size,
    if m.vars[j]?.any (·.integer) then |coefficientOf e.terms.toList j| else 0

/-- A stored point and the minimiser that it comes from: the point is whole, keeps the continuous
entries, leaves the others by at most the slack, and meets bounds and rows up to what that changes. -/
structure Incumbent.IsRoundingOf (best : Incumbent Exact) (m : Model Exact) (slack : Exact)
    (minimiser : Array Exact) : Prop extends IsFiniteVector m.vars.size best.point where
  value : best.objective = m.objectiveValue best.point
  whole : m.IsIntegral best.point
  kept : ∀ j (v : Variable Exact), m.vars[j]? = some v → v.integer = false →
    entry best.point j = entry minimiser j
  close : ∀ j (v : Variable Exact), m.vars[j]? = some v → v.integer = true →
    Scalar.abs (entry best.point j - entry minimiser j) ≤ slack
  lower : ∀ j (v : Variable Exact), m.vars[j]? = some v →
    v.lowerBound ≤ entry best.point j + slack ∧
      (v.integer = false ∨ (∃ i : ℤ, v.lowerBound = Scalar.ofInt i) →
        v.lowerBound ≤ entry best.point j)
  upper : ∀ j (v : Variable Exact), m.vars[j]? = some v →
    entry best.point j - slack ≤ v.upperBound ∧
      (v.integer = false ∨ (∃ i : ℤ, v.upperBound = Scalar.ofInt i) →
        entry best.point j ≤ v.upperBound)
  rows : ∀ c ∈ m.constraints,
    c.violation best.point ≤ slack * number (c.expression.integerSpread m)
  linear : (∀ t ∈ m.quadratic, ∀ v, m.vars[t.1]? = some v → v.integer = false) →
    Scalar.abs (best.objective - m.objectiveValue minimiser) ≤
      slack * number (m.objective.integerSpread m)

section Rounding
variable {m : Model Exact} {minimiser : Array Exact} {tolerance : Exact} {x y : ℕ → ℚ} {t : ℚ}
  {j : ℕ} {v : Variable Exact} {c : Constraint Exact}

theorem Expression.abs_valueAt_sub_le {e : Expression Exact} (hover : e.IsOver m.vars.size)
    (h : ∀ j < m.vars.size, |x j - y j| ≤ if m.vars[j]?.any (·.integer) then t else 0) :
    |e.valueAt x - e.valueAt y| ≤ t * e.integerSpread m := by
  have hterms : ∀ t ∈ e.terms.toList, t.1 < m.vars.size :=
    fun t ht => (hover.terms t (Array.mem_toList_iff.mp ht)).1
  have hdifference : e.valueAt x - e.valueAt y =
      ∑ j ∈ Finset.range m.vars.size, coefficientOf e.terms.toList j * (x j - y j) := by
    rw [sum_coefficientOf _ hterms, termSum_sub, valueAt, valueAt, add_sub_add_left_eq_sub]
  rw [hdifference, integerSpread, Finset.mul_sum]
  refine (Finset.abs_sum_le_sum_abs _ _).trans (Finset.sum_le_sum fun j hj => ?_)
  have hj := h j (Finset.mem_range.mp hj)
  rw [abs_mul]
  split_ifs at hj ⊢ with hinteger
  · exact (mul_le_mul_of_nonneg_left hj (abs_nonneg _)).trans_eq (mul_comm _ _)
  · rw [le_antisymm hj (abs_nonneg _), mul_zero, mul_zero]

/-- A row that holds at one point holds at another up to what its value changes. -/
theorem Constraint.HoldsAt.shift {rhs : ℚ} (h : c.HoldsAt rhs x) :
    c.HoldsAt (rhs - (c.expression.valueAt x - c.expression.valueAt y)) y := by
  unfold HoldsAt at h ⊢
  cases hsense : c.sense <;> simp only [hsense] at h ⊢ <;> linarith

namespace Model

theorem entry_roundIntegers (m : Model Exact) (point : Array Exact) (j : ℕ) :
    entry (m.roundIntegers point) j =
      if m.vars[j]?.any (·.integer) then Scalar.round (entry point j) else entry point j := by
  unfold roundIntegers entry
  rw [Array.getElem?_mapIdx]
  cases point[j]? with
  | none => split_ifs <;> rfl
  | some x => rfl

section Rounded
variable (hminimiser : IsFiniteVector m.vars.size minimiser)
include hminimiser

theorem coordinate_roundIntegers (hj : j < m.vars.size) :
    coordinate (m.roundIntegers minimiser) j =
      if m.vars[j]?.any (·.integer) then (Exact.nearest (coordinate minimiser j) : ℚ)
      else coordinate minimiser j := by
  rw [coordinate, entry_roundIntegers, hminimiser.entry_eq hj]
  split_ifs <;> rfl

theorem isFiniteVector_roundIntegers :
    IsFiniteVector m.vars.size (m.roundIntegers minimiser) := by
  refine isFiniteVector_of_entries (by simp [roundIntegers, hminimiser.size]) fun j hj => ?_
  rw [entry_roundIntegers, hminimiser.entry_eq hj]
  split_ifs
  · exact Exact.isFinite_number _
  · exact Exact.isFinite_number _

theorem isIntegral_roundIntegers : m.IsIntegral (m.roundIntegers minimiser) := by
  intro j v hv hinteger
  obtain ⟨hj, -⟩ := Array.getElem?_eq_some_iff.mp hv
  refine ⟨Exact.nearest (coordinate minimiser j), ?_⟩
  rw [entry_roundIntegers, hminimiser.entry_eq hj, hv, Option.any_some, hinteger, if_pos rfl]
  rfl

variable (hwhole : m.mostFractional? tolerance minimiser = none)
  (ht : Scalar.smaller tolerance 0.5 = number t)
include hwhole ht

/-- Rounding changes an integer entry by no more than the tolerance and by at most a half. -/
theorem abs_sub_nearest_le_slack (hv : m.vars[j]? = some v) (hinteger : v.integer = true) :
    |coordinate minimiser j - Exact.nearest (coordinate minimiser j)| ≤ t := by
  obtain ⟨hj, -⟩ := Array.getElem?_eq_some_iff.mp hv
  have hfraction : fractionality (entry minimiser j) =
      number |coordinate minimiser j - Exact.nearest (coordinate minimiser j)| := by
    rw [hminimiser.entry_eq hj]
    change Scalar.abs (number _ - number _) = _
    rw [Exact.number_sub, Exact.abs_number]
  have htolerance := fractionality_le_of_mostFractional?_eq_none hwhole hv hinteger
  have hhalf : fractionality (entry minimiser j) ≤ (0.5 : Exact) := by
    rw [hfraction, Exact.half_eq, Exact.number_le]
    exact Exact.abs_sub_nearest_le _
  have hslack := Exact.le_smaller htolerance hhalf
  rwa [ht, hfraction, Exact.number_le] at hslack

theorem abs_roundIntegers_sub_le (hj : j < m.vars.size) :
    |coordinate (m.roundIntegers minimiser) j - coordinate minimiser j| ≤
      if m.vars[j]?.any (·.integer) then t else 0 := by
  rw [coordinate_roundIntegers hminimiser hj]
  split_ifs with hinteger
  · obtain ⟨v, hv, hkind⟩ := (Option.any_eq_true _ _).mp hinteger
    rw [abs_sub_comm]
    exact abs_sub_nearest_le_slack hminimiser hwhole ht hv hkind
  · rw [sub_self, abs_zero]

variable (hpositive : 0 ≤ t)
include hpositive

theorem abs_roundIntegers_sub_le_slack (hj : j < m.vars.size) :
    |coordinate (m.roundIntegers minimiser) j - coordinate minimiser j| ≤ t := by
  refine (abs_roundIntegers_sub_le hminimiser hwhole ht hj).trans ?_
  split_ifs
  · exact le_rfl
  · exact hpositive

/-- A lower bound is left by at most the slack, and not at all if it is whole or the variable is
continuous. -/
theorem le_roundIntegers (hv : m.vars[j]? = some v) {bound : Exact}
    (hbound : bound ≤ entry minimiser j) :
    bound ≤ entry (m.roundIntegers minimiser) j + number t ∧
      (v.integer = false ∨ (∃ i : ℤ, bound = Scalar.ofInt i) →
        bound ≤ entry (m.roundIntegers minimiser) j) := by
  obtain ⟨hj, -⟩ := Array.getElem?_eq_some_iff.mp hv
  have hslack := abs_roundIntegers_sub_le_slack hminimiser hwhole ht hpositive hj
  constructor
  · rw [(isFiniteVector_roundIntegers hminimiser).entry_eq hj, Exact.number_add]
    rw [hminimiser.entry_eq hj] at hbound
    apply Exact.le_trans hbound
    rw [Exact.number_le]
    linarith [(abs_le.mp hslack).1]
  · intro hexact
    rw [entry_roundIntegers, hv, Option.any_some]
    split_ifs with hinteger
    · obtain ⟨i, rfl⟩ := hexact.resolve_left (by simp [hinteger])
      rw [hminimiser.entry_eq hj] at hbound ⊢
      apply Exact.number_le.mpr
      exact_mod_cast Exact.intCast_le_nearest (Exact.number_le.mp hbound)
    · exact hbound

theorem roundIntegers_le (hv : m.vars[j]? = some v) {bound : Exact}
    (hbound : entry minimiser j ≤ bound) :
    entry (m.roundIntegers minimiser) j - number t ≤ bound ∧
      (v.integer = false ∨ (∃ i : ℤ, bound = Scalar.ofInt i) →
        entry (m.roundIntegers minimiser) j ≤ bound) := by
  obtain ⟨hj, -⟩ := Array.getElem?_eq_some_iff.mp hv
  have hslack := abs_roundIntegers_sub_le_slack hminimiser hwhole ht hpositive hj
  constructor
  · rw [(isFiniteVector_roundIntegers hminimiser).entry_eq hj, Exact.number_sub]
    rw [hminimiser.entry_eq hj] at hbound
    refine Exact.le_trans ?_ hbound
    rw [Exact.number_le]
    linarith [(abs_le.mp hslack).2]
  · intro hexact
    rw [entry_roundIntegers, hv, Option.any_some]
    split_ifs with hinteger
    · obtain ⟨i, rfl⟩ := hexact.resolve_left (by simp [hinteger])
      rw [hminimiser.entry_eq hj] at hbound ⊢
      apply Exact.number_le.mpr
      exact_mod_cast Exact.nearest_le_intCast (Exact.number_le.mp hbound)
    · exact hbound

omit hpositive in
theorem violation_roundIntegers_le (hm : m.WellFormed) (hc : c ∈ m.constraints)
    (hholds : c.Holds minimiser) :
    c.violation (m.roundIntegers minimiser) ≤ number t * number (c.expression.integerSpread m) := by
  obtain ⟨hover, hrhs⟩ := hm.rows c hc
  have hrow := (Constraint.holds_iff hover hrhs hminimiser).mp hholds
  rw [Constraint.violation_eq hover hrhs (isFiniteVector_roundIntegers hminimiser),
    Exact.number_mul, Exact.number_le]
  refine Constraint.violationAt_le hrow.shift ?_
  rw [abs_sub_comm]
  exact Expression.abs_valueAt_sub_le hover
    fun j hj => abs_roundIntegers_sub_le hminimiser hwhole ht hj

omit hpositive in
/-- The objective changes by no more than its linear part if only continuous variables are squared.
-/
theorem abs_objectiveValue_roundIntegers_sub_le (hm : m.WellFormed)
    (hsquares : ∀ t ∈ m.quadratic, ∀ v, m.vars[t.1]? = some v → v.integer = false) :
    Scalar.abs (m.objectiveValue (m.roundIntegers minimiser) - m.objectiveValue minimiser) ≤
      number t * number (m.objective.integerSpread m) := by
  have hsame : termSum m.quadratic.toList (fun v => coordinate (m.roundIntegers minimiser) v *
        coordinate (m.roundIntegers minimiser) v) =
      termSum m.quadratic.toList fun v => coordinate minimiser v * coordinate minimiser v := by
    refine termSum_congr fun term hterm => ?_
    have hmem := Array.mem_toList_iff.mp hterm
    have hj := (hm.quadratic term hmem).1
    have hv : m.vars[term.1]? = some m.vars[term.1] := Array.getElem?_eq_getElem hj
    have hkind := hsquares term hmem _ hv
    have hentry : coordinate (m.roundIntegers minimiser) term.1 = coordinate minimiser term.1 := by
      rw [coordinate_roundIntegers hminimiser hj, hv, Option.any_some, hkind,
        if_neg Bool.false_ne_true]
    rw [hentry]
  rw [objectiveValue_eq hm (isFiniteVector_roundIntegers hminimiser),
    objectiveValue_eq hm hminimiser, Exact.number_sub, Exact.abs_number, Exact.number_mul,
    Exact.number_le, cost, cost, hsame, add_sub_add_right_eq_sub]
  exact Expression.abs_valueAt_sub_le hm.objective
    fun j hj => abs_roundIntegers_sub_le hminimiser hwhole ht hj

end Rounded

variable {outcome : Solution Exact}

/-- What a search makes of a minimiser of the relaxation is a rounding of it. -/
theorem isRoundingOf_rounding (hm : m.WellFormed) (htolerance : 0.0 ≤ tolerance)
    (hfeasible : (Relaxation.ofModel m).Feasible outcome.primal)
    (hwhole : m.mostFractional? tolerance outcome.primal = none) :
    (m.rounding outcome).IsRoundingOf m (Scalar.smaller tolerance 0.5) outcome.primal := by
  obtain ⟨t, hpositive, ht⟩ := Exact.exists_smaller_half htolerance
  have hminimiser : IsFiniteVector m.vars.size outcome.primal := hfeasible.toIsFiniteVector
  have hbox : ∀ j (v : Variable Exact), m.vars[j]? = some v →
      v.lowerBound ≤ entry outcome.primal j ∧ entry outcome.primal j ≤ v.upperBound := by
    intro j v hv
    obtain ⟨hj, -⟩ := Array.getElem?_eq_some_iff.mp hv
    have hbounds := hfeasible.box j hj
    rwa [(bounds_ofModel hv).1, (bounds_ofModel hv).2] at hbounds
  rw [ht]
  refine
    { toIsFiniteVector := isFiniteVector_roundIntegers hminimiser
      value := rfl
      whole := isIntegral_roundIntegers hminimiser
      kept := ?_
      close := ?_
      lower := fun j v hv => le_roundIntegers hminimiser hwhole ht hpositive hv (hbox j v hv).1
      upper := fun j v hv => roundIntegers_le hminimiser hwhole ht hpositive hv (hbox j v hv).2
      rows := ?_
      linear := abs_objectiveValue_roundIntegers_sub_le hminimiser hwhole ht hm }
  · intro j v hv hkind
    rw [rounding, entry_roundIntegers, hv, Option.any_some, hkind, if_neg Bool.false_ne_true]
  · intro j v hv _
    obtain ⟨hj, -⟩ := Array.getElem?_eq_some_iff.mp hv
    rw [rounding, (isFiniteVector_roundIntegers hminimiser).entry_eq hj, hminimiser.entry_eq hj,
      Exact.number_sub, Exact.abs_number, Exact.number_le]
    exact abs_roundIntegers_sub_le_slack hminimiser hwhole ht hpositive hj
  · intro c hc
    obtain ⟨i, hi, rfl⟩ := Array.mem_iff_getElem.mp hc
    apply violation_roundIntegers_le hminimiser hwhole ht hm hc
    exact hfeasible.rows i _ (Array.getElem?_eq_getElem hi) (by simp [Relaxation.ofModel, hi])

/-- Under a tolerance of zero only whole minimisers pass for whole. -/
theorem isIntegral_of_tolerance_eq_zero (hzero : tolerance = 0.0)
    (hminimiser : IsFiniteVector m.vars.size minimiser)
    (hwhole : m.mostFractional? tolerance minimiser = none) : m.IsIntegral minimiser := by
  intro j v hv hinteger
  obtain ⟨hj, -⟩ := Array.getElem?_eq_some_iff.mp hv
  have hslack : Scalar.smaller tolerance 0.5 = number 0 := by
    rw [hzero, Exact.zero_eq, Exact.half_eq, Exact.smaller_number]
    norm_num
  have hsame : coordinate minimiser j = Exact.nearest (coordinate minimiser j) :=
    eq_of_abs_sub_nonpos (abs_sub_nearest_le_slack hminimiser hwhole hslack hv hinteger)
  exact ⟨_, (hminimiser.entry_eq hj).trans (congrArg number hsame)⟩

end Model

end Rounding

section Searches
variable {m : Model Exact} {tolerance : Exact} {s s' final : SearchState Exact}
  {node : SearchNode Exact} {rest nodes : List (SearchNode Exact)} {outcome : Solution Exact}
  {relax : SearchNode Exact → Solution Exact} {budget : Nat} {reason : SearchEnd}
  {settings : SolverSettings Exact}

namespace SearchState

theorem StepsTo.areInside (h : StepsTo m tolerance s node rest outcome s')
    (hstack : s.stack = node :: rest) (htruthful : outcome.IsTruthfulFor (node.relaxation m))
    (hinside : SearchNode.AreInside m s.stack) : SearchNode.AreInside m s'.stack := by
  rw [hstack] at hinside
  have hrest : SearchNode.AreInside m rest :=
    fun child hchild => hinside child (List.mem_cons_of_mem _ hchild)
  cases h with
  | pruned | improved | emptied | dropped => exact hrest
  | branched hoptimal hkept hsplit =>
    obtain ⟨⟨v, hv, -⟩, rfl⟩ := Model.eq_of_mostFractional?_eq_some hsplit
    obtain ⟨hj, -⟩ := Array.getElem?_eq_some_iff.mp hv
    exact SearchNode.areInside_split hinside (htruthful.feasible hoptimal) hj

theorem Explores.areInside (h : Explores m tolerance relax budget s nodes final reason)
    (htruthful : ∀ node ∈ nodes, (relax node).IsTruthfulFor (node.relaxation m))
    (hinside : SearchNode.AreInside m s.stack) : SearchNode.AreInside m nodes := by
  induction h with
  | exhausted hstack | nodeLimit hstack => exact nofun
  | unbounded hstack hnone =>
    intro node hnode
    obtain rfl := List.mem_singleton.mp hnode
    exact hinside node (hstack ▸ List.mem_cons_self)
  | @explored _ s s' _ first _ _ _ hstack hsome hrun ih =>
    have hfirst := htruthful first List.mem_cons_self
    have hlater := ih (fun node hnode => htruthful node (List.mem_cons_of_mem _ hnode))
      ((stepsTo_of_step hsome).areInside hstack hfirst hinside)
    intro node hnode
    rcases List.mem_cons.mp hnode with rfl | hrest
    · exact hinside node (hstack ▸ List.mem_cons_self)
    · exact hlater node hrest

end SearchState

namespace Incumbent

variable {best : Incumbent Exact} {b q : ℚ}

theorem isBeatenBy_iff (hb : best.objective = number b) :
    best.IsBeatenBy (number q) ↔ number q <
      best.objective - 1e-9 * Scalar.larger (Scalar.abs best.objective) 1.0 := by
  rw [IsBeatenBy, hb, Exact.abs_number, Exact.one_eq, Exact.larger_number, Exact.nano_eq,
    Exact.number_mul, Exact.number_sub, Exact.number_le, Exact.number_lt, not_le]

theorem IsBeatenBy.lt (h : best.IsBeatenBy (number q)) (hb : best.objective = number b) : q < b := by
  rw [isBeatenBy_iff hb, hb, Exact.abs_number, Exact.one_eq, Exact.larger_number, Exact.nano_eq,
    Exact.number_mul, Exact.number_sub, Exact.number_lt] at h
  exact h.trans_le (pruningBound_le b)

end Incumbent

/-- The last of descending values is the least of them. -/
theorem le_of_isChain {α : Type} (value : α → ℚ) {xs : List α} {x last : α}
    (h : xs.IsChain fun old new => value new < value old) (hx : x ∈ xs)
    (hlast : last ∈ xs.getLast?) : value last ≤ value x := by
  have hdescending : (xs.map value).IsChain (· ≥ ·) :=
    (List.isChain_map value).mpr (h.imp fun _ _ hless => hless.le)
  have hleast := hdescending.pairwise.rel_getLast (List.mem_map_of_mem hx)
  obtain ⟨hne, rfl⟩ := List.mem_getLast?_eq_getLast hlast
  rwa [List.getLast_map] at hleast

namespace Model

theorem searched_incumbent (m : Model Exact) (settings : SolverSettings Exact)
    (relax : SearchNode Exact → Solution Exact) : (m.searched settings relax).1.incumbent =
      (m.improvingNodes settings relax).getLast?.map fun node => m.rounding (relax node) :=
  (m.explores_searched settings relax).incumbent_eq.trans Option.or_none

section Truthful
variable (htruthful : ∀ node ∈ m.solvedNodes settings relax,
  (relax node).IsTruthfulFor (node.relaxation m))
include htruthful

/-- What is known of a minimiser that a search makes an incumbent of. -/
theorem of_mem_improvingNodes (hnode : node ∈ m.improvingNodes settings relax) :
    (node ∈ m.solvedNodes settings relax ∧
        m.isWhole settings.integralityTol (relax node) = true) ∧
      (Relaxation.ofModel m).Feasible (relax node).primal ∧
      (relax node).objective = m.objectiveValue (relax node).primal ∧
      m.mostFractional? settings.integralityTol (relax node).primal = none := by
  have hrun := m.explores_searched settings relax
  obtain ⟨hsolved, hwhole⟩ := hrun.of_mem_improvingNodes hnode
  obtain ⟨hoptimal, hnone⟩ := Bool.and_eq_true_iff.mp hwhole
  have hstatus := of_decide_eq_true hoptimal
  have hinside : SearchNode.AreInside m (m.solvedNodes settings relax) := by
    apply hrun.areInside htruthful
    intro root hroot point hpoint
    obtain rfl := List.mem_singleton.mp hroot
    exact hpoint
  exact ⟨⟨hsolved, hwhole⟩, hinside node hsolved _ ((htruthful node hsolved).feasible hstatus),
    (htruthful node hsolved).value hstatus, Option.isNone_iff_eq_none.mp hnone⟩

/-- The objectives of a minimiser and of what is stored for it are rationals. -/
theorem objectives_of_improving (hm : m.WellFormed)
    (hnode : node ∈ m.improvingNodes settings relax) :
    (m.rounding (relax node)).objective =
        number (m.cost (coordinate (m.roundIntegers (relax node).primal))) ∧
      (relax node).objective = number (m.cost (coordinate (relax node).primal)) := by
  obtain ⟨-, hfeasible, hvalue, -⟩ := of_mem_improvingNodes htruthful hnode
  have hminimiser : IsFiniteVector m.vars.size (relax node).primal := hfeasible.toIsFiniteVector
  exact ⟨objectiveValue_eq hm (isFiniteVector_roundIntegers hminimiser),
    hvalue.trans (objectiveValue_eq hm hminimiser)⟩

theorem cost_lt_of_isBeatenBy {old new : SearchNode Exact} (hm : m.WellFormed)
    (hold : old ∈ m.improvingNodes settings relax) (hnew : new ∈ m.improvingNodes settings relax)
    (hbeaten : (m.rounding (relax old)).IsBeatenBy (relax new).objective)
    (hintegral : m.IsIntegral (relax new).primal) :
    m.cost (coordinate (m.roundIntegers (relax new).primal)) <
      m.cost (coordinate (m.roundIntegers (relax old).primal)) := by
  rw [(objectives_of_improving htruthful hm hnew).2] at hbeaten
  rw [roundIntegers_eq hintegral]
  exact hbeaten.lt (objectives_of_improving htruthful hm hold).1

/-- The objectives along a search, in the order in which incumbents were made. -/
theorem objectives_descend (hm : m.WellFormed) :
    (m.improvingNodes settings relax).IsChain fun old new =>
      (relax new).objective < (m.rounding (relax old)).objective -
          1e-9 * Scalar.larger (Scalar.abs (m.rounding (relax old)).objective) 1.0 ∧
        (m.IsIntegral (relax new).primal →
          (m.rounding (relax new)).objective < (m.rounding (relax old)).objective) := by
  have hchain := (m.explores_searched settings relax).isChain_improvingNodes.2
  refine List.IsChain.imp_of_mem_imp (fun old new hold hnew hbeaten => ⟨?_, ?_⟩) hchain
  · rw [(objectives_of_improving htruthful hm hnew).2] at hbeaten ⊢
    exact (Incumbent.isBeatenBy_iff (objectives_of_improving htruthful hm hold).1).mp hbeaten
  · intro hintegral
    rw [(objectives_of_improving htruthful hm hnew).1,
      (objectives_of_improving htruthful hm hold).1, Exact.number_lt]
    exact cost_lt_of_isBeatenBy htruthful hm hold hnew hbeaten hintegral

/-- The last incumbent is the best if all minimisers were whole. -/
theorem last_le_of_isIntegral {last : SearchNode Exact} (hm : m.WellFormed)
    (hwhole : ∀ node ∈ m.improvingNodes settings relax, m.IsIntegral (relax node).primal)
    (hlast : last ∈ (m.improvingNodes settings relax).getLast?)
    (hnode : node ∈ m.improvingNodes settings relax) :
    (m.rounding (relax last)).objective ≤ (m.rounding (relax node)).objective := by
  let value (node : SearchNode Exact) : ℚ := m.cost (coordinate (m.roundIntegers (relax node).primal))
  have hchain := (m.explores_searched settings relax).isChain_improvingNodes.2
  have hdescending : (m.improvingNodes settings relax).IsChain fun old new =>
      value new < value old :=
    List.IsChain.imp_of_mem_imp (fun old new hold hnew hbeaten =>
      cost_lt_of_isBeatenBy htruthful hm hold hnew hbeaten (hwhole new hnew)) hchain
  rw [(objectives_of_improving htruthful hm (List.mem_of_mem_getLast? hlast)).1,
    (objectives_of_improving htruthful hm hnode).1, Exact.number_le]
  exact le_of_isChain value hdescending hnode hlast

/-- A search whose relaxations are answered truthfully stores roundings of minimisers. Each of these
minimisers has an objective below that of the incumbent before it, and where minimisers are whole,
as under a tolerance of zero, incumbents meet the model and improve, so that the last one, which is
returned, is the best. -/
theorem incumbents_are_roundings (hm : m.WellFormed) (htolerance : 0.0 ≤ settings.integralityTol)
    (hanswered : ∀ node ∈ m.solvedNodes settings relax,
      (relax node).status = .optimal ∨ (relax node).status = .infeasible) :
    let found := m.improvingNodes settings relax
    let stored := fun node => m.rounding (relax node)
    let outcome := m.branchAndBound settings relax
    (∀ node ∈ found,
        (node ∈ m.solvedNodes settings relax ∧
          m.isWhole settings.integralityTol (relax node) = true) ∧
        (Relaxation.ofModel m).Feasible (relax node).primal ∧
        (stored node).IsRoundingOf m (Scalar.smaller settings.integralityTol 0.5)
          (relax node).primal ∧
        (m.IsIntegral (relax node).primal → m.Feasible (stored node).point) ∧
        (settings.integralityTol = 0.0 → m.IsIntegral (relax node).primal)) ∧
      found.IsChain (fun old new =>
        (relax new).objective < (stored old).objective -
            1e-9 * Scalar.larger (Scalar.abs (stored old).objective) 1.0 ∧
          (m.IsIntegral (relax new).primal → (stored new).objective < (stored old).objective)) ∧
      (outcome.status = .optimal → found ≠ []) ∧
      (∀ last ∈ found.getLast?,
        outcome.primal = (stored last).point ∧ outcome.objective = (stored last).objective) ∧
      ((∀ node ∈ found, m.IsIntegral (relax node).primal) →
        ∀ node ∈ found, outcome.objective ≤ (stored node).objective) := by
  intro found stored outcome
  have hincumbent : (m.searched settings relax).1.incumbent = found.getLast?.map stored :=
    searched_incumbent m settings relax
  have hreturned : ∀ last ∈ found.getLast?,
      outcome.primal = (stored last).point ∧ outcome.objective = (stored last).objective := by
    intro last hlast
    rw [Option.mem_def.mp hlast, Option.map_some] at hincumbent
    exact SearchState.solution_of_incumbent hincumbent (searched_ne_unbounded hanswered)
  refine ⟨fun node hnode => ?_, objectives_descend htruthful hm, ?_, hreturned, ?_⟩
  · obtain ⟨hsolved, hfeasible, -, hwhole⟩ := of_mem_improvingNodes htruthful hnode
    refine ⟨hsolved, hfeasible, isRoundingOf_rounding hm htolerance hfeasible hwhole, ?_, ?_⟩
    · intro hintegral
      change m.Feasible (m.roundIntegers (relax node).primal)
      rw [roundIntegers_eq hintegral]
      exact feasible_iff.mpr ⟨hfeasible, hintegral⟩
    · intro hzero
      exact isIntegral_of_tolerance_eq_zero hzero hfeasible.toIsFiniteVector hwhole
  · intro hoptimal hnone
    rw [hnone] at hincumbent
    have hfound := ((SearchState.status_solution (m.searched settings relax).1 _).2.1.mp hoptimal).2
    simp [hincumbent] at hfound
  · intro hwhole node hnode
    cases hlast : found.getLast? with
    | none => exact absurd (List.getLast?_eq_none_iff.mp hlast) (List.ne_nil_of_mem hnode)
    | some last =>
      rw [(hreturned last hlast).2]
      exact last_le_of_isIntegral htruthful hm hwhole hlast hnode

end Truthful

/-- A service with a second desk that may be opened, clerks for the load of its desks and a queue.
-/
def staffing : Model Exact where
  vars := #[⟨"desk", some (number 0), some (number 1), true⟩,
    ⟨"clerks", some (number 0), some (number 3), true⟩, .continuous "waiting" (some (number 0)) none]
  constraints := #[
    ⟨"load", ⟨#[(1, number 10), (0, number (-3))], number 0⟩, .equal, number 17⟩,
    ⟨"queue", ⟨#[(2, number 10), (0, number (-20))], number 0⟩, .atLeast, number (-11)⟩]
  objective := ⟨#[(1, number 1), (2, number 1), (0, number (-1))], number 0⟩
  quadratic := #[]
  expressions := .empty

def staffingOutcome (node : SearchNode Exact) : Solution Exact :=
  (node.relaxation staffing).solve ConicProgram.solveByPivoting .default

/-- Settings under which two fifths still count as whole. -/
def looseSettings : SolverSettings Exact :=
  { SolverSettings.default with integralityTol := number (2 / 5) }

/-- The search of the service makes two incumbents, of relaxations that are solved verifiably. -/
theorem staffing_search :
    (staffing.WellFormed ∧ (0.0 : Exact) ≤ looseSettings.integralityTol ∧
      ∀ node ∈ staffing.solvedNodes looseSettings staffingOutcome,
        (node.relaxation staffing).IsChecked ConicProgram.solveByPivoting .default) ∧
      ((staffing.improvingNodes looseSettings staffingOutcome).map fun node =>
          ((staffing.rounding (staffingOutcome node)).point,
            (staffing.rounding (staffingOutcome node)).objective)) =
        [(#[number 1, number 2, number (9 / 10)], number (19 / 10)),
          (#[number 0, number 2, number 0], number 2)] := by
  decide +kernel

theorem staffing_isTruthful : ∀ node ∈ staffing.solvedNodes looseSettings staffingOutcome,
    (staffingOutcome node).IsTruthfulFor (node.relaxation staffing) ∧
      ((staffingOutcome node).status = .optimal ∨ (staffingOutcome node).status = .infeasible) :=
  fun node hnode => Relaxation.solve_isTruthfulFor (staffing_search.1.2.2 node hnode)

/-- The two incumbents of the service are roundings by at most two fifths, and the second minimiser
is below the first incumbent. -/
theorem staffing_incumbents_are_roundings :
    (staffing.WellFormed ∧ (0.0 : Exact) ≤ looseSettings.integralityTol ∧
      ∀ node ∈ staffing.solvedNodes looseSettings staffingOutcome,
        (staffingOutcome node).IsTruthfulFor (node.relaxation staffing) ∧
          ((staffingOutcome node).status = .optimal ∨
            (staffingOutcome node).status = .infeasible)) ∧
      (staffing.improvingNodes looseSettings staffingOutcome).length = 2 ∧
      (∀ node ∈ staffing.improvingNodes looseSettings staffingOutcome,
        (staffing.rounding (staffingOutcome node)).IsRoundingOf staffing (number (2 / 5))
          (staffingOutcome node).primal) ∧
      (staffing.improvingNodes looseSettings staffingOutcome).IsChain fun old new =>
        (staffingOutcome new).objective < (staffing.rounding (staffingOutcome old)).objective -
          1e-9 * Scalar.larger
            (Scalar.abs (staffing.rounding (staffingOutcome old)).objective) 1.0 := by
  obtain ⟨⟨hm, htolerance, -⟩, hincumbents⟩ := staffing_search
  obtain ⟨hfound, hchain, -⟩ := incumbents_are_roundings
    (fun node hnode => (staffing_isTruthful node hnode).1) hm htolerance
    (fun node hnode => (staffing_isTruthful node hnode).2)
  have hslack : Scalar.smaller looseSettings.integralityTol 0.5 = number (2 / 5) := by
    decide +kernel
  refine ⟨⟨hm, htolerance, staffing_isTruthful⟩, by simpa using congrArg List.length hincumbents,
    fun node hnode => ?_, hchain.imp fun _ _ hbelow => hbelow.1⟩
  obtain ⟨-, -, hrounding, -⟩ := hfound node hnode
  rwa [hslack] at hrounding

/-- Under a loose tolerance the search of the service opens the desk, which two clerks can serve, and
then replaces that by a point that has two clerks where the load asks for fewer, and that costs more.
-/
theorem staffing_incumbent_worsens :
    (staffing.WellFormed ∧ staffing.hasInteger = true ∧
      (0.0 : Exact) ≤ looseSettings.integralityTol ∧
      ∀ node ∈ staffing.solvedNodes looseSettings staffingOutcome,
        (staffingOutcome node).IsTruthfulFor (node.relaxation staffing) ∧
          ((staffingOutcome node).status = .optimal ∨
            (staffingOutcome node).status = .infeasible)) ∧
      ((staffing.improvingNodes looseSettings staffingOutcome).map fun node =>
          ((staffing.rounding (staffingOutcome node)).point,
            (staffing.rounding (staffingOutcome node)).objective)) =
        [(#[number 1, number 2, number (9 / 10)], number (19 / 10)),
          (#[number 0, number 2, number 0], number 2)] ∧
      (staffing.branchAndBound looseSettings staffingOutcome).status = .optimal ∧
      (staffing.branchAndBound looseSettings staffingOutcome).primal =
        #[number 0, number 2, number 0] ∧
      (staffing.branchAndBound looseSettings staffingOutcome).objective = number 2 ∧
      staffing.Feasible #[number 1, number 2, number (9 / 10)] ∧
      ¬staffing.Feasible #[number 0, number 2, number 0] := by
  obtain ⟨⟨hm, htolerance, -⟩, hincumbents⟩ := staffing_search
  exact ⟨⟨hm, by decide +kernel, htolerance, staffing_isTruthful⟩, hincumbents,
    by decide +kernel⟩

end Model

end Searches

end BendersPlanning

import BendersPlanning.Cut.Generate
import BendersPlanning.Proofs.EvaluatedOutcomes
import Mathlib.Algebra.Order.BigOperators.Group.List

/-!
# Validity of cuts

A planning point is served when operations exist for its linking values and its proxies cover their
costs. The row of every cut says no more than that the affine function of an outcome is at most the
proxy, or not positive, so an outcome that is true of its subproblem gives a row that all served
points satisfy, whatever point it was evaluated at.
-/

namespace BendersPlanning

section Meaning
variable {K : Type} [Scalar K]

open Scalar (entry)

namespace PlanningProblem

def linkAt (p : PlanningProblem K) (point : Array K) (name : String) : K :=
  ((p.model.variableNamed? name).map (entry point)).getD Scalar.undefined

/-- A feasible planning point with operations, by subproblem, whose costs the proxies cover: each
its own or, with a single proxy, the sum. -/
structure IsServed (p : PlanningProblem K) (evaluators : List (Evaluator K)) (point : Array K)
    (operation : ℕ → Array K) : Prop where
  planned : p.model.Feasible point
  operated : ∀ e ∈ evaluators, (e.modelAt (p.linkAt point)).Feasible (operation e.index)
  covered :
    if p.isMultiCut then ∀ e ∈ evaluators, ∀ theta, p.thetaFor? e.index = some theta →
      (e.modelAt (p.linkAt point)).objectiveValue (operation e.index) ≤ entry point theta
    else ∀ theta, p.thetaFor? 0 = some theta →
      Scalar.sum (evaluators.map fun e =>
        (e.modelAt (p.linkAt point)).objectiveValue (operation e.index)) ≤ entry point theta

/-- A planning problem after more rows were added. -/
structure Extends (p' p : PlanningProblem K) : Prop where
  vars : p'.model.vars = p.model.vars
  objective : p'.model.objective = p.model.objective
  quadratic : p'.model.quadratic = p.model.quadratic
  theta : p'.theta = p.theta
  fixedCost : p'.fixedCost = p.fixedCost
  rows : ∀ c ∈ p.model.constraints, c ∈ p'.model.constraints

end PlanningProblem

end Meaning

open Exact (number)

namespace PlanningProblem

instance (p : PlanningProblem Exact) (evaluators : List (Evaluator Exact)) (point : Array Exact)
    (operation : ℕ → Array Exact) : Decidable (p.IsServed evaluators point operation) :=
  decidable_of_iff
    (p.model.Feasible point ∧
      (∀ e ∈ evaluators, (e.modelAt (p.linkAt point)).Feasible (operation e.index)) ∧
      if p.isMultiCut then ∀ e ∈ evaluators, ∀ theta ∈ p.thetaFor? e.index,
        (e.modelAt (p.linkAt point)).objectiveValue (operation e.index) ≤ Scalar.entry point theta
      else ∀ theta ∈ p.thetaFor? 0, Scalar.sum (evaluators.map fun e =>
        (e.modelAt (p.linkAt point)).objectiveValue (operation e.index)) ≤ Scalar.entry point theta)
    ⟨fun ⟨hplanned, hoperated, hcovered⟩ => ⟨hplanned, hoperated, hcovered⟩,
      fun h => ⟨h.planned, h.operated, h.covered⟩⟩

variable {p : PlanningProblem Exact} {point : Array Exact} {e : Evaluator Exact}

/-- The rational value of a linking variable, zero for a name the planning model does not have. -/
def linkNumber (p : PlanningProblem Exact) (point : Array Exact) (name : String) : ℚ :=
  ((p.model.variableNamed? name).map (coordinate point)).getD 0

theorem linkAt_eq_number {operation : Array Exact} (he : e.IsReady)
    (hpoint : IsFiniteVector p.model.vars.size point)
    (h : (e.modelAt (p.linkAt point)).Feasible operation) {fixed : String × ℕ}
    (hfixed : fixed ∈ e.fixingRows) :
    p.linkAt point fixed.1 = number (p.linkNumber point fixed.1) := by
  have hdefined := Evaluator.value_ne_undefined he h hfixed
  cases hname : p.model.variableNamed? fixed.1 with
  | some v =>
    have hv : v < p.model.vars.size := (Array.findIdx?_eq_some_iff_getElem.mp hname).choose
    simp [linkAt, linkNumber, hname, hpoint.entry_eq hv]
  | none => exact absurd (by simp [linkAt, hname]) hdefined

theorem modelAt_linkAt {operation : Array Exact} (he : e.IsReady)
    (hpoint : IsFiniteVector p.model.vars.size point)
    (h : (e.modelAt (p.linkAt point)).Feasible operation) :
    e.modelAt (p.linkAt point) = e.modelAt fun name => number (p.linkNumber point name) :=
  Evaluator.modelAt_congr fun _ hfixed => linkAt_eq_number he hpoint h hfixed

end PlanningProblem

theorem weightedSum_eq_ok {coefficients values : SortedMap String Exact} {total : Exact}
    (hfinite : ∀ t ∈ coefficients.entries,
      Scalar.isFinite t.2 = true ∧ Scalar.isFinite (values.valueAt t.1) = true)
    (h : weightedSum coefficients values = .ok total) :
    total = number (termSum coefficients.entries fun name => (values.valueAt name).toRat) := by
  unfold weightedSum at h
  rw [Exact.zero_eq] at h
  suffices hfold : ∀ (terms : List (String × Exact)) (acc : ℚ), (∀ t ∈ terms,
      Scalar.isFinite t.2 = true ∧ Scalar.isFinite (values.valueAt t.1) = true) →
      terms.foldl (fun acc t => acc + t.2 * values.valueAt t.1) (number acc) =
        number (acc + termSum terms fun name => (values.valueAt name).toRat) by
    rw [← zero_add (termSum _ _), ← hfold _ 0 hfinite]
    refine eq_foldl_of_foldlM_eq_ok (fun acc t acc' hstep => ?_) h
    cases hvalue : values.find? t.1 with
    | none => simp [hvalue] at hstep
    | some x => simpa [hvalue, SortedMap.valueAt, eq_comm] using hstep
  intro terms
  induction terms with
  | nil => simp
  | cons t terms ih =>
    intro acc hterms
    obtain ⟨⟨ht, hvalue⟩, hrest⟩ := List.forall_mem_cons.mp hterms
    obtain ⟨q, hq⟩ := Exact.isFinite_iff.mp ht
    obtain ⟨x, hx⟩ := Exact.isFinite_iff.mp hvalue
    rw [List.foldl_cons, hq, hx, Exact.number_mul, Exact.number_add, ih _ hrest, termSum_cons, hq,
      hx, Exact.toRat_number, Exact.toRat_number, add_assoc]

def CutKind.sign : CutKind → ℚ
  | .optimality => -1
  | .feasibility => 1

namespace Cut

variable {p : PlanningProblem Exact} {c : Cut Exact} {point : Array Exact}

theorem valueAt_foldlM_addTerm (point : Array Exact) (sign : ℚ) {signed : Exact}
    (hsign : signed = number sign)
    {terms : List (String × Exact)} (hfinite : AreFiniteTerms terms) {start e : Expression Exact}
    (h : terms.foldlM (fun (e : Expression Exact) (t : String × Exact) =>
      if t.2 == 0.0 then Except.ok e
      else match p.model.variableNamed? t.1 with
        | some v => .ok (e.addTerm v (signed * t.2))
        | none => .error (.problem (.unknownInCut t.1) : RunError Exact)) start = .ok e) :
    e.valueAt (coordinate point) = start.valueAt (coordinate point) +
      sign * termSum terms (p.linkNumber point) := by
  induction terms generalizing start with
  | nil =>
    obtain rfl := Except.ok.inj h
    simp
  | cons t terms ih =>
    obtain ⟨ht, hrest⟩ := hfinite.of_cons
    obtain ⟨q, hq⟩ := Exact.isFinite_iff.mp ht
    rw [List.foldlM_cons] at h
    obtain ⟨next, hfirst, h⟩ := bind_eq_ok.mp h
    have hnext : next.valueAt (coordinate point) =
        start.valueAt (coordinate point) + sign * (q * p.linkNumber point t.1) := by
      rw [hq] at hfirst
      split_ifs at hfirst with hzero
      · obtain rfl := Except.ok.inj hfirst
        rw [Exact.zero_eq, Exact.number_beq, decide_eq_true_iff] at hzero
        rw [hzero, zero_mul, mul_zero, add_zero]
      · cases hname : p.model.variableNamed? t.1 with
        | none => simp [hname] at hfirst
        | some v =>
          simp only [hname, hsign, Except.ok.injEq] at hfirst
          subst hfirst
          simp only [Expression.valueAt, Expression.addTerm, Array.toList_push, termSum_append,
            termSum_cons, termSum_nil, Exact.number_mul, Exact.toRat_number,
            PlanningProblem.linkNumber, hname, Option.map_some, Option.getD_some]
          ring
    rw [ih hrest h, hnext, termSum_cons, hq, Exact.toRat_number]
    ring

/-- The terms of a cut: the proxy, and the coefficients with the sign of the kind. -/
theorem valueAt_expression (point : Array Exact) {e : Expression Exact}
    (hfinite : AreFiniteTerms c.coefficients.entries)
    (h : c.expression p = .ok e) :
    e.valueAt (coordinate point) = (c.theta.map (coordinate point)).getD 0 +
      c.kind.sign * termSum c.coefficients.entries (p.linkNumber point) := by
  have hfold := valueAt_foldlM_addTerm point c.kind.sign
    (by cases c.kind <;> simp [CutKind.sign]) hfinite h
  rw [hfold]
  congr 1
  cases c.theta <;>
    simp [Expression.valueAt, Expression.ofVariable, Expression.zero, Expression.ofConstant,
      Expression.addTerm]

/-- The amount by which the weighted values exceed the proxy and the right-hand side. -/
def excessAt (c : Cut Exact) (p : PlanningProblem Exact) (point : Array Exact) : ℚ :=
  termSum c.coefficients.entries (p.linkNumber point) - (c.theta.map (coordinate point)).getD 0 -
    c.kind.sign * c.rhs.toRat

/-- The row of a cut of either kind is violated by the excess and holds where there is none. -/
theorem row_at_excess (hproxy : c.kind = .feasibility → c.theta = none)
    (hfinite : AreFiniteTerms c.coefficients.entries) {row : Constraint Exact}
    (hrow : c.constraint p = .ok row) (hover : row.expression.IsOver p.model.vars.size)
    (hrhs : Scalar.isFinite row.rhs = true) (hpoint : IsFiniteVector p.model.vars.size point) :
    row.violation point = number (max (c.excessAt p point) 0) ∧
      (row.Holds point ↔ c.excessAt p point ≤ 0) := by
  obtain ⟨e, he, hrow⟩ := bind_eq_ok.mp hrow
  obtain rfl := Except.ok.inj hrow
  obtain ⟨b, hb : c.rhs = number b⟩ := Exact.isFinite_iff.mp hrhs
  have hvalue := valueAt_expression point hfinite he
  rw [Constraint.holds_iff hover hrhs hpoint]
  simp only [Constraint.violation, Constraint.HoldsAt, Expression.evaluate_eq hover hpoint, hvalue,
    excessAt, hb, Exact.toRat_number]
  cases hkind : c.kind with
  | optimality =>
    simp only [CutKind.sign, Exact.number_sub, Exact.zero_eq, Exact.larger_number]
    constructor
    · congr 2
      ring
    · constructor <;> intro h <;> linarith
  | feasibility =>
    simp only [hproxy hkind, CutKind.sign, Exact.number_sub, Exact.zero_eq, Exact.larger_number,
      Option.map_none, Option.getD_none]
    constructor
    · congr 2
      ring
    · constructor <;> intro h <;> linarith

theorem parts_of_ofOptimal {K : Type} [Scalar K] {name : String} {subproblem : Option ℕ} {theta : ℕ}
    {cost : K} {prices values : SortedMap String K} {c : Cut K}
    (h : ofOptimal name subproblem theta cost prices values = .ok c) :
    c.kind = .optimality ∧ c.subproblem = subproblem ∧ c.theta = some theta ∧
      c.coefficients = prices ∧
      ∃ total, weightedSum prices values = .ok total ∧ c.rhs = cost - total := by
  obtain ⟨total, htotal, hcut⟩ := bind_eq_ok.mp h
  obtain rfl := Except.ok.inj hcut
  exact ⟨rfl, rfl, rfl, rfl, total, htotal, rfl⟩

theorem parts_of_ofInfeasible {K : Type} [Scalar K] {name : String} {index : ℕ} {margin : K}
    {prices values : SortedMap String K} {c : Cut K}
    (h : ofInfeasible name index margin prices values = .ok c) :
    c.kind = .feasibility ∧ c.subproblem = some index ∧ c.theta = none ∧
      c.coefficients = prices ∧
      ∃ total, weightedSum prices values = .ok total ∧ c.rhs = total - margin := by
  obtain ⟨total, htotal, hcut⟩ := bind_eq_ok.mp h
  obtain rfl := Except.ok.inj hcut
  exact ⟨rfl, rfl, rfl, rfl, total, htotal, rfl⟩

section Excess
variable {name : String} {values prices : SortedMap String Exact} {total : ℚ}

/-- What exceeds an optimality cut is the affine function that it was made from, beyond the proxy. -/
theorem excessAt_ofOptimal {subproblem : Option ℕ} {theta : ℕ} {cost : ℚ}
    (hcut : ofOptimal name subproblem theta (number cost) prices values = .ok c)
    (htotal : weightedSum prices values = .ok (number total)) :
    c.excessAt p point =
      cost + (termSum prices.entries (p.linkNumber point) - total) - coordinate point theta := by
  obtain ⟨hkind, -, htheta, hprices, t, ht, hrhs⟩ := parts_of_ofOptimal hcut
  obtain rfl := Except.ok.inj (ht.symm.trans htotal)
  simp only [excessAt, hkind, htheta, hprices, hrhs, CutKind.sign, Option.map_some,
    Option.getD_some, Exact.number_sub, Exact.toRat_number]
  ring

/-- What exceeds a feasibility cut is the affine function that it was made from. -/
theorem excessAt_ofInfeasible {index : ℕ} {margin : ℚ}
    (hcut : ofInfeasible name index (number margin) prices values = .ok c)
    (htotal : weightedSum prices values = .ok (number total)) :
    c.excessAt p point = margin + (termSum prices.entries (p.linkNumber point) - total) := by
  obtain ⟨hkind, -, htheta, hprices, t, ht, hrhs⟩ := parts_of_ofInfeasible hcut
  obtain rfl := Except.ok.inj (ht.symm.trans htotal)
  simp only [excessAt, hkind, htheta, hprices, hrhs, CutKind.sign, Option.map_none,
    Option.getD_none, Exact.number_sub, Exact.toRat_number]
  ring

end Excess

/-- Whether the row of a cut holds at a point, if the planning model takes it. -/
def HoldsIn (c : Cut Exact) (p : PlanningProblem Exact) (point : Array Exact) : Prop :=
  ∀ row, c.constraint p = .ok row → row.expression.IsOver p.model.vars.size →
    Scalar.isFinite row.rhs = true → row.Holds point

theorem HoldsIn.of_excessAt (hproxy : c.kind = .feasibility → c.theta = none)
    (hfinite : AreFiniteTerms c.coefficients.entries)
    (hpoint : IsFiniteVector p.model.vars.size point) (h : c.excessAt p point ≤ 0) :
    c.HoldsIn p point :=
  fun _ hrow hover hrhs => (row_at_excess hproxy hfinite hrow hover hrhs hpoint).2.mpr h

variable {name : String} {subproblem : Option ℕ} {theta : ℕ}
  {values prices : SortedMap String Exact}

/-- An optimality cut holds where the proxy is at least the affine function it was made from. -/
theorem ofOptimal_holdsIn {cost : ℚ} (hfinite : ∀ t ∈ prices.entries,
      Scalar.isFinite t.2 = true ∧ Scalar.isFinite (values.valueAt t.1) = true)
    (hcut : ofOptimal name subproblem theta (number cost) prices values = .ok c)
    (hpoint : IsFiniteVector p.model.vars.size point)
    (hbound : cost + (termSum prices.entries (p.linkNumber point) -
      termSum prices.entries fun name => (values.valueAt name).toRat) ≤ coordinate point theta) :
    c.HoldsIn p point := by
  obtain ⟨hkind, -, -, hprices, total, htotal, -⟩ := parts_of_ofOptimal hcut
  obtain rfl := weightedSum_eq_ok hfinite htotal
  refine .of_excessAt (by simp [hkind]) (hprices ▸ fun t ht => (hfinite t ht).1) hpoint ?_
  rw [excessAt_ofOptimal hcut htotal]
  linarith

/-- A feasibility cut holds where the affine function it was made from is not positive. -/
theorem ofInfeasible_holdsIn {index : ℕ} {margin : ℚ} (hfinite : ∀ t ∈ prices.entries,
      Scalar.isFinite t.2 = true ∧ Scalar.isFinite (values.valueAt t.1) = true)
    (hcut : ofInfeasible name index (number margin) prices values = .ok c)
    (hpoint : IsFiniteVector p.model.vars.size point)
    (hbound : margin + (termSum prices.entries (p.linkNumber point) -
      termSum prices.entries fun name => (values.valueAt name).toRat) ≤ 0) :
    c.HoldsIn p point := by
  obtain ⟨-, -, htheta, hprices, total, htotal, -⟩ := parts_of_ofInfeasible hcut
  obtain rfl := weightedSum_eq_ok hfinite htotal
  refine .of_excessAt (fun _ => htheta) (hprices ▸ fun t ht => (hfinite t ht).1) hpoint ?_
  rwa [excessAt_ofInfeasible hcut htotal]

theorem mem_feasibilityCuts {iteration : ℕ} {outcomes : List (ℕ × OperationOutcome Exact)}
    {cuts : List (Cut Exact)} (h : feasibilityCuts iteration values outcomes = .ok cuts)
    (hc : c ∈ cuts) : ∃ index ray margin name, (index, .infeasible ray margin) ∈ outcomes ∧
      ofInfeasible name index margin ray values = .ok c := by
  induction outcomes generalizing cuts with
  | nil =>
    obtain rfl := Except.ok.inj h
    cases hc
  | cons entry rest ih =>
    obtain ⟨index, o⟩ := entry
    cases o with
    | optimal cost prices used =>
      obtain ⟨i, ray, margin, name, hmem, hcut⟩ := ih h hc
      exact ⟨i, ray, margin, name, List.mem_cons_of_mem _ hmem, hcut⟩
    | infeasible ray margin =>
      obtain ⟨first, hfirst, h⟩ := bind_eq_ok.mp h
      obtain ⟨more, hmore, h⟩ := bind_eq_ok.mp h
      obtain rfl := Except.ok.inj h
      rcases List.mem_cons.mp hc with rfl | hc
      · exact ⟨index, ray, margin, _, List.mem_cons_self, hfirst⟩
      · obtain ⟨i, ray, margin, name, hmem, hcut⟩ := ih hmore hc
        exact ⟨i, ray, margin, name, List.mem_cons_of_mem _ hmem, hcut⟩

/-- Every optimality cut comes from an optimal subproblem and bounds the proxy of its index. -/
theorem mem_optimalityCuts {iteration : ℕ} {outcomes : List (ℕ × OperationOutcome Exact)}
    {cuts : List (Cut Exact)} (h : optimalityCuts p iteration values outcomes = .ok cuts)
    (hc : c ∈ cuts) : ∃ index cost prices used theta name,
      (index, .optimal cost prices used) ∈ outcomes ∧ p.thetaFor? index = some theta ∧
        ofOptimal name (some index) theta cost prices values = .ok c := by
  induction outcomes generalizing cuts with
  | nil =>
    obtain rfl := Except.ok.inj h
    cases hc
  | cons entry rest ih =>
    obtain ⟨index, o⟩ := entry
    cases o with
    | infeasible ray margin =>
      obtain ⟨i, cost, prices, used, theta, name, hmem, hcut⟩ := ih h hc
      exact ⟨i, cost, prices, used, theta, name, List.mem_cons_of_mem _ hmem, hcut⟩
    | optimal cost prices used =>
      rw [optimalityCuts] at h
      cases htheta : p.thetaFor? index with
      | none => simp [htheta] at h
      | some theta =>
        simp only [htheta] at h
        obtain ⟨first, hfirst, h⟩ := bind_eq_ok.mp h
        obtain ⟨more, hmore, h⟩ := bind_eq_ok.mp h
        obtain rfl := Except.ok.inj h
        rcases List.mem_cons.mp hc with rfl | hc
        · exact ⟨index, cost, prices, used, theta, _, List.mem_cons_self, htheta, hfirst⟩
        · obtain ⟨i, cost, prices, used, theta, name, hmem, hcut⟩ := ih hmore hc
          exact ⟨i, cost, prices, used, theta, name, List.mem_cons_of_mem _ hmem, hcut⟩

/-- Adding up prices adds up what they make of linking values. -/
theorem termSum_foldl_addPrices {os : List (OperationOutcome Exact)}
    (hos : ∀ o ∈ os, AreFiniteTerms o.prices.entries) {total : SortedMap String Exact}
    (htotal : AreFiniteTerms total.entries) (x : String → ℚ) :
    AreFiniteTerms (os.foldl (fun total o => addPrices total o.prices) total).entries ∧
      termSum (os.foldl (fun total o => addPrices total o.prices) total).entries x =
        termSum total.entries x + (os.map fun o => termSum o.prices.entries x).sum := by
  induction os generalizing total with
  | nil => simp [htotal]
  | cons o os ih =>
    obtain ⟨ho, hos⟩ := List.forall_mem_cons.mp hos
    obtain ⟨hfinite, hsum⟩ := termSum_foldl_alter o.prices.entries ho total htotal x
    obtain ⟨hfinite', hsum'⟩ := ih hos hfinite
    refine ⟨hfinite', hsum'.trans ?_⟩
    rw [List.map_cons, List.sum_cons, ← add_assoc, ← hsum]

theorem mem_foldl_addPrices {os : List (OperationOutcome Exact)} {total : SortedMap String Exact}
    {t : String × Exact}
    (ht : t ∈ (os.foldl (fun total o => addPrices total o.prices) total).entries) :
    t.1 ∈ total.entries.map (·.1) ∨ ∃ o ∈ os, t.1 ∈ o.prices.entries.map (·.1) := by
  induction os generalizing total with
  | nil => exact .inl (List.mem_map_of_mem ht)
  | cons o os ih =>
    rcases ih ht with hmem | ⟨o', ho', hmem⟩
    · obtain ⟨u, hu, hsame⟩ := List.mem_map.mp hmem
      rcases (mem_keys_foldl_alter o.prices.entries total).mp (List.mem_map_of_mem hu) with
        hold | hprices
      · exact .inl (hsame ▸ hold)
      · exact .inr ⟨o, List.mem_cons_self, hsame ▸ hprices⟩
    · exact .inr ⟨o', List.mem_cons_of_mem _ ho', hmem⟩

section MergedPrices
variable {os : List (OperationOutcome Exact)}

theorem finite_mergedPrices (hos : ∀ o ∈ os, AreFiniteTerms o.prices.entries) :
    AreFiniteTerms (os.foldl (fun total o => addPrices total o.prices) .empty).entries :=
  (termSum_foldl_addPrices hos (fun _ h => absurd h List.not_mem_nil) fun _ => 0).1

theorem termSum_mergedPrices (hos : ∀ o ∈ os, AreFiniteTerms o.prices.entries) (x : String → ℚ) :
    termSum (os.foldl (fun total o => addPrices total o.prices) .empty).entries x =
      (os.map fun o => termSum o.prices.entries x).sum := by
  rw [(termSum_foldl_addPrices hos (fun _ h => absurd h List.not_mem_nil) x).2]
  exact zero_add _

theorem mem_mergedPrices {t : String × Exact}
    (ht : t ∈ (os.foldl (fun total o => addPrices total o.prices) .empty).entries) :
    ∃ o ∈ os, t.1 ∈ o.prices.keys :=
  (mem_foldl_addPrices ht).resolve_left List.not_mem_nil

end MergedPrices

end Cut

/-- Cuts on costs: one for each feasible subproblem, or a single one where all are feasible. -/
def PlanningProblem.HasCostCuts {K : Type} [Scalar K] (p : PlanningProblem K) (iteration : ℕ)
    (values : SortedMap String K) (outcomes : SortedMap ℕ (OperationOutcome K))
    (cuts : List (Cut K)) : Prop :=
  p.isMultiCut = true ∧ Cut.optimalityCuts p iteration values outcomes.entries = .ok cuts ∨
    p.isMultiCut = false ∧ outcomes.values.all (·.isFeasible) = true ∧
      (∃ c, Cut.aggregatedCut p iteration values outcomes.values = .ok c ∧ cuts = [c]) ∨
    p.isMultiCut = false ∧ outcomes.values.all (·.isFeasible) = false ∧ cuts = []

/-- The cuts of an iteration are those of infeasible subproblems and those on costs. -/
theorem PlanningProblem.cuts_eq_ok {K : Type} [Scalar K] {p : PlanningProblem K} {iteration : ℕ}
    {values : SortedMap String K} {outcomes : SortedMap ℕ (OperationOutcome K)}
    {cuts : List (Cut K)} : p.cuts iteration values outcomes = .ok cuts ↔
    ∃ feasibility optimality,
      Cut.feasibilityCuts iteration values outcomes.entries = .ok feasibility ∧
      p.HasCostCuts iteration values outcomes optimality ∧ cuts = feasibility ++ optimality := by
  constructor
  · intro h
    obtain ⟨feasibility, hfeasibility, h⟩ := bind_eq_ok.mp h
    split_ifs at h with hmulti hall
    · obtain ⟨optimality, hoptimality, h⟩ := bind_eq_ok.mp h
      exact ⟨feasibility, optimality, hfeasibility, .inl ⟨hmulti, hoptimality⟩,
        (Except.ok.inj h).symm⟩
    · obtain ⟨optimality, hoptimality, h⟩ := bind_eq_ok.mp h
      obtain ⟨c, hc, rfl⟩ := map_eq_ok.mp hoptimality
      exact ⟨feasibility, [c], hfeasibility,
        .inr (.inl ⟨by simpa using hmulti, hall, c, hc, rfl⟩), (Except.ok.inj h).symm⟩
    · obtain ⟨optimality, hoptimality, h⟩ := bind_eq_ok.mp h
      obtain rfl := Except.ok.inj hoptimality
      exact ⟨feasibility, [], hfeasibility,
        .inr (.inr ⟨by simpa using hmulti, by simpa using hall, rfl⟩), (Except.ok.inj h).symm⟩
  · rintro ⟨feasibility, optimality, hfeasibility, hoptimality, rfl⟩
    refine bind_eq_ok.mpr ⟨feasibility, hfeasibility, ?_⟩
    rcases hoptimality with ⟨hmulti, hoptimality⟩ | ⟨hsingle, hall, c, hc, rfl⟩ | ⟨hsingle, hall, rfl⟩
    · simp only [hmulti, if_true]
      exact bind_eq_ok.mpr ⟨optimality, hoptimality, rfl⟩
    · simp only [hsingle, hall, if_true]
      exact bind_eq_ok.mpr ⟨[c], map_eq_ok.mpr ⟨c, hc, rfl⟩, rfl⟩
    · simp only [hsingle, hall]
      exact bind_eq_ok.mpr ⟨[], rfl, rfl⟩

theorem sum_map_add_sub {α : Type} (xs : List α) (f g h : α → ℚ) :
    (xs.map f).sum + ((xs.map g).sum - (xs.map h).sum) =
      (xs.map fun a => f a + (g a - h a)).sum := by
  induction xs with
  | nil => simp
  | cons a xs ih =>
    simp only [List.map_cons, List.sum_cons, ← ih]
    ring

theorem IsFiniteVector.le_coordinate {count i : ℕ} {point : Array Exact} {q : ℚ}
    (hpoint : IsFiniteVector count point) (h : number q ≤ Scalar.entry point i) :
    q ≤ coordinate point i := by
  by_cases hi : i < count
  · rwa [hpoint.entry_eq hi, Exact.number_le] at h
  · have hnone : Scalar.entry point i = .undefined := by
      simp [Scalar.entry, hpoint.size, not_lt.mp hi]
    rw [hnone] at h
    rcases h with h | h <;> cases h

namespace PlanningProblem

variable {p : PlanningProblem Exact} {point : Array Exact} {operation : ℕ → Array Exact}
  {values : SortedMap String Exact} {pairs : List (Evaluator Exact × OperationOutcome Exact)}

/-- A cut of an iteration comes from an infeasible outcome, from an optimal one with a proxy of its own,
or from all outcomes together. -/
theorem mem_cuts_cases {outcomes : SortedMap ℕ (OperationOutcome Exact)} {iteration : ℕ}
    {cuts : List (Cut Exact)} (h : p.cuts iteration values outcomes = .ok cuts) {c : Cut Exact}
    (hc : c ∈ cuts) :
    (∃ index ray margin name, (index, .infeasible ray margin) ∈ outcomes.entries ∧
      Cut.ofInfeasible name index margin ray values = .ok c) ∨
    (p.isMultiCut = true ∧ ∃ index cost prices used theta name,
      (index, .optimal cost prices used) ∈ outcomes.entries ∧ p.thetaFor? index = some theta ∧
        Cut.ofOptimal name (some index) theta cost prices values = .ok c) ∨
    (p.isMultiCut = false ∧ outcomes.values.all (·.isFeasible) = true ∧
      Cut.aggregatedCut p iteration values outcomes.values = .ok c) := by
  obtain ⟨feasibility, optimality, hfeasibility, hoptimality, rfl⟩ := cuts_eq_ok.mp h
  rcases List.mem_append.mp hc with hc | hc
  · exact .inl (Cut.mem_feasibilityCuts hfeasibility hc)
  obtain ⟨hmulti, hcuts⟩ | ⟨hsingle, hall, cut, hcut, rfl⟩ | ⟨-, -, rfl⟩ := hoptimality
  · exact .inr (.inl ⟨hmulti, Cut.mem_optimalityCuts hcuts hc⟩)
  · obtain rfl := List.mem_singleton.mp hc
    exact .inr (.inr ⟨hsingle, hall, hcut⟩)
  · cases hc

theorem objectiveValue_operation {e : Evaluator Exact} (he : e.IsReady) {v : String → Exact}
    {y : Array Exact} (hy : (e.modelAt v).Feasible y) :
    (e.modelAt v).objectiveValue y = number (e.activeModel.cost (coordinate y)) :=
  Model.objectiveValue_eq he.model hy.toIsFiniteVector

section Served
variable (hready : ∀ q ∈ pairs, q.1.IsReady) (htrue : ∀ q ∈ pairs, q.2.IsTrueOf q.1 values)
  (hserved : p.IsServed (pairs.map (·.1)) point operation)
include hready htrue hserved

/-- The cost of serving a subproblem is at least the affine function of its optimal outcome. -/
theorem affine_le_objectiveValue {q : Evaluator Exact × OperationOutcome Exact} (hq : q ∈ pairs)
    (hoptimal : q.2.isFeasible = true) :
    number (q.2.affine values (p.linkNumber point)) ≤
      (q.1.modelAt (p.linkAt point)).objectiveValue (operation q.1.index) := by
  have hy := hserved.operated q.1 (List.mem_map_of_mem hq)
  have hsame := modelAt_linkAt (hready q hq) hserved.planned.toIsFiniteVector hy
  rw [hsame] at hy ⊢
  exact (htrue q hq).supports hoptimal hy

/-- The affine function of an infeasible outcome is not positive where operations exist. -/
theorem affine_nonpos {q : Evaluator Exact × OperationOutcome Exact} (hq : q ∈ pairs)
    (hinfeasible : q.2.isFeasible = false) : q.2.affine values (p.linkNumber point) ≤ 0 := by
  have hy := hserved.operated q.1 (List.mem_map_of_mem hq)
  rw [modelAt_linkAt (hready q hq) hserved.planned.toIsFiniteVector hy] at hy
  exact (htrue q hq).refutes hinfeasible hy

omit htrue in
/-- With a single proxy the costs of serving all subproblems are covered by it. -/
theorem sum_cost_le (hsingle : p.isMultiCut = false) {theta : ℕ}
    (htheta : p.thetaFor? 0 = some theta) :
    (pairs.map fun q => q.1.activeModel.cost (coordinate (operation q.1.index))).sum ≤
      coordinate point theta := by
  have hcovered := hserved.covered
  rw [if_neg (by simp [hsingle])] at hcovered
  have hsum := hcovered theta htheta
  have hcosts : ∀ q ∈ pairs,
      (q.1.modelAt (p.linkAt point)).objectiveValue (operation q.1.index) =
        number (q.1.activeModel.cost (coordinate (operation q.1.index))) := fun q hq =>
    objectiveValue_operation (hready q hq) (hserved.operated q.1 (List.mem_map_of_mem hq))
  rw [List.map_map, List.map_congr_left (f := _ ∘ _) hcosts, Exact.sum_map_number] at hsum
  exact hserved.planned.toIsFiniteVector.le_coordinate hsum

variable {outcomes : SortedMap ℕ (OperationOutcome Exact)} {iteration : ℕ} {cuts : List (Cut Exact)}
  (hentries : outcomes.entries.Perm (pairs.map fun q => (q.1.index, q.2)))
include hentries

theorem feasibilityCut_holdsIn {name : String} {index : ℕ} {ray : SortedMap String Exact}
    {margin : Exact} (hmem : (index, .infeasible ray margin) ∈ outcomes.entries) {c : Cut Exact}
    (hcut : Cut.ofInfeasible name index margin ray values = .ok c) : c.HoldsIn p point := by
  obtain ⟨e, hpair, rfl⟩ := OperationOutcome.exists_of_mem_entries hentries hmem
  have ho := htrue _ hpair
  have hle := affine_nonpos hready htrue hserved hpair rfl
  obtain ⟨q, hq⟩ := Exact.isFinite_iff.mp ho.2.2.1
  subst hq
  exact Cut.ofInfeasible_holdsIn ho.1 hcut hserved.planned.toIsFiniteVector hle

theorem optimalityCut_holdsIn (hmulti : p.isMultiCut = true) {name : String} {index theta : ℕ}
    {cost used : Exact} {prices : SortedMap String Exact}
    (hmem : (index, .optimal cost prices used) ∈ outcomes.entries)
    (htheta : p.thetaFor? index = some theta) {c : Cut Exact}
    (hcut : Cut.ofOptimal name (some index) theta cost prices values = .ok c) :
    c.HoldsIn p point := by
  obtain ⟨e, hpair, rfl⟩ := OperationOutcome.exists_of_mem_entries hentries hmem
  have ho := htrue _ hpair
  have hle := affine_le_objectiveValue hready htrue hserved hpair rfl
  have hcovered := hserved.covered
  rw [if_pos hmulti] at hcovered
  have hproxy := hcovered e (List.mem_map_of_mem (f := (·.1)) hpair) theta htheta
  obtain ⟨q, hq⟩ := Exact.isFinite_iff.mp ho.2.2.1
  subst hq
  exact Cut.ofOptimal_holdsIn ho.1 hcut hserved.planned.toIsFiniteVector
    (hserved.planned.toIsFiniteVector.le_coordinate (Exact.le_trans hle hproxy))

theorem aggregatedCut_holdsIn (hsingle : p.isMultiCut = false)
    (hfeasible : outcomes.values.all (·.isFeasible) = true) {c : Cut Exact}
    (h : Cut.aggregatedCut p iteration values outcomes.values = .ok c) : c.HoldsIn p point := by
  have hvalues := OperationOutcome.values_perm hentries
  have hall := (OperationOutcome.all_isFeasible_iff hentries).mp hfeasible
  have hfinite : ∀ o ∈ outcomes.values, AreFiniteTerms o.prices.entries := by
    intro o ho t ht
    obtain ⟨q, hq, rfl⟩ := List.mem_map.mp (hvalues.mem_iff.mp ho)
    exact ((htrue q hq).1 t ht).1
  unfold Cut.aggregatedCut at h
  cases htheta : p.thetaFor? 0 with
  | none => simp [htheta] at h
  | some theta =>
    simp only [htheta] at h
    rw [List.map_congr_left (OperationOutcome.number_cost_of_mem hentries htrue hfeasible),
      Exact.sum_map_number] at h
    refine Cut.ofOptimal_holdsIn (fun t ht => ⟨?_, ?_⟩) h hserved.planned.toIsFiniteVector ?_
    · exact Cut.finite_mergedPrices hfinite t ht
    · obtain ⟨o, ho, hkey⟩ := Cut.mem_mergedPrices ht
      obtain ⟨q, hq, rfl⟩ := List.mem_map.mp (hvalues.mem_iff.mp ho)
      obtain ⟨u, hu, hsame⟩ := List.mem_map.mp hkey
      exact hsame ▸ ((htrue q hq).1 u hu).2
    -- The affine functions of all outcomes add up to that of the cut, the costs to the proxy.
    have haffine : (outcomes.values.map fun o => o.affine values (p.linkNumber point)).sum =
        (pairs.map fun q => q.2.affine values (p.linkNumber point)).sum := by
      have hperm := (hvalues.map fun o => o.affine values (p.linkNumber point)).sum_eq
      rwa [List.map_map] at hperm
    have hserve : (pairs.map fun q => q.2.affine values (p.linkNumber point)).sum ≤
        coordinate point theta := by
      refine le_trans (List.sum_le_sum fun q hq => ?_)
        (sum_cost_le hready hserved hsingle htheta)
      have hle := affine_le_objectiveValue hready htrue hserved hq (hall q hq)
      rwa [objectiveValue_operation (hready q hq)
        (hserved.operated q.1 (List.mem_map_of_mem hq)), Exact.number_le] at hle
    rw [Cut.termSum_mergedPrices hfinite, Cut.termSum_mergedPrices hfinite]
    refine le_trans (le_of_eq ?_) (haffine.trans_le hserve)
    rw [List.map_congr_left fun o ho => OperationOutcome.affine_eq
      (List.all_eq_true.mp hfeasible o ho), ← sum_map_add_sub]

theorem cuts_holdIn (h : p.cuts iteration values outcomes = .ok cuts) {c : Cut Exact}
    (hc : c ∈ cuts) : c.HoldsIn p point := by
  obtain ⟨index, ray, margin, name, hmem, hcut⟩ |
    ⟨hmulti, index, cost, prices, used, theta, name, hmem, htheta, hcut⟩ |
    ⟨hsingle, hall, hcut⟩ := mem_cuts_cases h hc
  · exact feasibilityCut_holdsIn hready htrue hserved hentries hmem hcut
  · exact optimalityCut_holdsIn hready htrue hserved hentries hmulti hmem htheta hcut
  · exact aggregatedCut_holdsIn hready htrue hserved hentries hsingle hall hcut

end Served

section Adding
variable {p' p'' : PlanningProblem Exact} {cuts : List (Cut Exact)}

theorem Extends.refl (p : PlanningProblem Exact) : p.Extends p :=
  ⟨rfl, rfl, rfl, rfl, rfl, fun _ hc => hc⟩

theorem Extends.trans (h' : p''.Extends p') (h : p'.Extends p) : p''.Extends p :=
  ⟨h'.vars.trans h.vars, h'.objective.trans h.objective, h'.quadratic.trans h.quadratic,
    h'.theta.trans h.theta, h'.fixedCost.trans h.fixedCost, fun c hc => h'.rows c (h.rows c hc)⟩

theorem Extends.feasible (h : p'.Extends p) (hpoint : p'.model.Feasible point) :
    p.model.Feasible point :=
  ⟨h.vars ▸ hpoint.toIsFiniteVector, fun j v hv => hpoint.admitted j v (h.vars ▸ hv),
    fun c hc => hpoint.rows c (h.rows c hc)⟩

theorem Extends.objectiveValue (h : p'.Extends p) :
    p'.model.objectiveValue point = p.model.objectiveValue point := by
  simp only [Model.objectiveValue, Model.quadraticValue, h.objective, h.quadratic]

theorem Extends.variableNamed? (h : p'.Extends p) (name : String) :
    p'.model.variableNamed? name = p.model.variableNamed? name := by
  simp only [Model.variableNamed?, h.vars]

theorem Extends.ofPoint (h : p'.Extends p) (linking : List String) (point : Array Exact)
    (bound : Exact) :
    Candidate.ofPoint p' linking point bound = Candidate.ofPoint p linking point bound := by
  simp only [Candidate.ofPoint, h.variableNamed?, objectiveParts, h.fixedCost, h.theta]

theorem Extends.linkAt (h : p'.Extends p) : p'.linkAt point = p.linkAt point := by
  funext name
  simp only [PlanningProblem.linkAt, h.variableNamed?]

theorem Extends.isMultiCut (h : p'.Extends p) : p'.isMultiCut = p.isMultiCut := by
  simp only [PlanningProblem.isMultiCut, h.theta]

theorem Extends.thetaFor? (h : p'.Extends p) (index : ℕ) :
    p'.thetaFor? index = p.thetaFor? index := by
  simp only [PlanningProblem.thetaFor?, h.isMultiCut, h.theta]

theorem Extends.constraint (h : p'.Extends p) (c : Cut Exact) :
    c.constraint p' = c.constraint p := by
  simp only [Cut.constraint, Cut.expression, h.variableNamed?]

/-- More rows do not change what it takes to serve a point that meets them. -/
theorem Extends.isServed (h : p'.Extends p) {evaluators : List (Evaluator Exact)}
    (hserved : p.IsServed evaluators point operation) (hpoint : p'.model.Feasible point) :
    p'.IsServed evaluators point operation where
  planned := hpoint
  operated := h.linkAt ▸ hserved.operated
  covered := by
    simp only [h.isMultiCut, h.thetaFor?, h.linkAt]
    exact hserved.covered

theorem addCut_eq_ok {c : Cut Exact} (hp : p.model.WellFormed) (h : p.addCut c = .ok p') :
    p'.Extends p ∧ p'.model.WellFormed ∧ ∀ point, p.model.Feasible point → c.HoldsIn p point →
      p'.model.Feasible point := by
  obtain ⟨row, hrow, h⟩ := bind_eq_ok.mp h
  obtain ⟨⟨model, id⟩, hadd, h⟩ := bind_eq_ok.mp h
  rw [mapError_eq_ok] at hadd
  obtain rfl := Except.ok.inj h
  have hwellFormed := hp.addConstraint hadd
  obtain ⟨-, -, hrhs, hover, -, rfl⟩ := Model.addConstraint_eq_ok.mp hadd
  refine ⟨⟨rfl, rfl, rfl, rfl, rfl, fun c hc => Array.mem_push_of_mem _ hc⟩, hwellFormed,
    fun point hpoint hcut => ⟨hpoint.toIsFiniteVector, hpoint.admitted, fun c' hc' => ?_⟩⟩
  rcases Array.mem_push.mp hc' with hc' | rfl
  · exact hpoint.rows c' hc'
  · exact hcut _ hrow hover hrhs

theorem addCuts_eq_ok (hp : p.model.WellFormed) (h : p.addCuts cuts = (p', .ok ())) :
    p'.Extends p ∧ p'.model.WellFormed ∧ ∀ point, p.model.Feasible point →
      (∀ c ∈ cuts, c.HoldsIn p point) → p'.model.Feasible point := by
  induction cuts generalizing p with
  | nil =>
    obtain ⟨rfl, -⟩ := Prod.mk.inj h
    exact ⟨.refl _, hp, fun point hpoint _ => hpoint⟩
  | cons c cuts ih =>
    rw [addCuts] at h
    cases hfirst : p.addCut c with
    | error x => simp [hfirst] at h
    | ok p₁ =>
      rw [hfirst] at h
      obtain ⟨hextends, hwellFormed, hfeasible⟩ := addCut_eq_ok hp hfirst
      obtain ⟨hextends', hwellFormed', hfeasible'⟩ := ih hwellFormed h
      refine ⟨hextends'.trans hextends, hwellFormed', fun point hpoint hcuts => ?_⟩
      obtain ⟨hc, hcuts⟩ := List.forall_mem_cons.mp hcuts
      refine hfeasible' point (hfeasible point hpoint hc) fun c' hc' row hrow hover hrhs => ?_
      rw [hextends.constraint] at hrow
      rw [hextends.vars] at hover
      exact hcuts c' hc' row hrow hover hrhs

end Adding

end PlanningProblem

end BendersPlanning

import BendersPlanning.Planning.Problem
import BendersPlanning.Proofs.FeasiblePoints
import Mathlib.Algebra.Order.BigOperators.Group.List

/-!
# What a planning problem minimises

Building a planning problem installs its objective: the fixed cost plus each proxy, counted as often
as it is listed. The model may keep a quadratic part from before, whose weights are not negative, so
the objective is never below the fixed cost plus the proxies.
-/

namespace BendersPlanning

open Exact (number)

namespace PlanningProblem

/-- The objective is the fixed cost plus the proxies. -/
def ChargesProxies {K : Type} [Scalar K] (p : PlanningProblem K) : Prop :=
  p.model.objective = p.fixedCost.addScaled (proxyCost p.theta) 1.0

/-- Building succeeds when the proxies and all expressions are over the model, and installs these. -/
theorem ofModel_eq_ok {K : Type} [Scalar K] {m : Model K} {fixedCost : Expression K}
    {theta : Array ℕ} {p : PlanningProblem K} : ofModel m fixedCost theta = .ok p ↔
    m.proxyFault? theta = none ∧
      ((fixedCost.addScaled (proxyCost theta) 1.0).IsOver m.vars.size ∧
        fixedCost.IsOver m.vars.size ∧ (proxyCost theta : Expression K).IsOver m.vars.size) ∧
      p = ⟨{ m with
        objective := fixedCost.addScaled (proxyCost theta) 1.0
        expressions :=
          (m.expressions.insert fixedCostName fixedCost).insert proxyCostName (proxyCost theta) },
        fixedCost, theta⟩ := by
  unfold ofModel
  cases m.proxyFault? theta with
  | some fault => simp
  | none =>
    rw [mapError_eq_ok, and_iff_right rfl]
    constructor
    · intro h
      obtain ⟨m₁, hobjective, h⟩ := bind_eq_ok.mp h
      obtain ⟨m₂, hfixed, h⟩ := bind_eq_ok.mp h
      obtain ⟨m₃, hproxy, h⟩ := bind_eq_ok.mp h
      obtain ⟨hover₁, rfl⟩ := Model.setObjective_eq_ok.mp hobjective
      obtain ⟨hover₂, rfl⟩ := Model.addExpression_eq_ok.mp hfixed
      obtain ⟨hover₃, rfl⟩ := Model.addExpression_eq_ok.mp hproxy
      exact ⟨⟨hover₁, hover₂, hover₃⟩, (Except.ok.inj h).symm⟩
    · rintro ⟨⟨hobjective, hfixed, hproxy⟩, rfl⟩
      exact bind_eq_ok.mpr ⟨_, Model.setObjective_eq_ok.mpr ⟨hobjective, rfl⟩,
        bind_eq_ok.mpr ⟨_, Model.addExpression_eq_ok.mpr ⟨hfixed, rfl⟩,
          bind_eq_ok.mpr ⟨_, Model.addExpression_eq_ok.mpr ⟨hproxy, rfl⟩, rfl⟩⟩⟩

theorem chargesProxies_of_ofModel {K : Type} [Scalar K] {m : Model K} {fixedCost : Expression K}
    {theta : Array ℕ} {p : PlanningProblem K} (h : ofModel m fixedCost theta = .ok p) :
    p.ChargesProxies := by
  obtain ⟨-, -, rfl⟩ := ofModel_eq_ok.mp h
  rfl

variable {p : PlanningProblem Exact}

theorem ChargesProxies.isOver_fixedCost (h : p.ChargesProxies) (hm : p.model.WellFormed) :
    p.fixedCost.IsOver p.model.vars.size := by
  have hover := hm.objective
  rw [h] at hover
  refine ⟨fun t ht => hover.terms t (Array.mem_append.mpr (.inl ht)), ?_⟩
  have hconstant := hover.constant
  simpa [Expression.addScaled, proxyCost, Expression.ofTerms, Exact.add_number_zero] using hconstant

theorem ChargesProxies.proxy_lt (h : p.ChargesProxies) (hm : p.model.WellFormed) {t : ℕ}
    (ht : t ∈ p.theta) : t < p.model.vars.size := by
  have hover := hm.objective
  rw [h] at hover
  apply (hover.terms (t, 1.0 * 1.0) (Array.mem_append.mpr (.inr _))).1
  simp only [proxyCost, Expression.ofTerms, Array.mem_map]
  exact ⟨_, ⟨_, ht, rfl⟩, rfl⟩

theorem ChargesProxies.valueAt_objective (h : p.ChargesProxies) (x : ℕ → ℚ) :
    p.model.objective.valueAt x = p.fixedCost.valueAt x + (p.theta.toList.map x).sum := by
  have hproxies : termSum (((proxyCost p.theta : Expression Exact).terms.map
      fun t => (t.1, 1.0 * t.2)).toList) x = (p.theta.toList.map x).sum := by
    simp [termSum, proxyCost, Expression.ofTerms, Function.comp_def]
  have hconstant : p.fixedCost.constant + 1.0 * (proxyCost p.theta : Expression Exact).constant =
      p.fixedCost.constant := by
    simp [proxyCost, Expression.ofTerms, Exact.add_number_zero]
  rw [h]
  simp only [Expression.valueAt, Expression.addScaled, Array.toList_append, termSum_append,
    hconstant, hproxies]
  ring

end PlanningProblem

theorem Model.WellFormed.toRat_weight_nonneg {m : Model Exact} (hm : m.WellFormed) {t : ℕ × Exact}
    (ht : t ∈ m.quadratic) : 0 ≤ t.2.toRat := by
  obtain ⟨-, hnumber, hweight⟩ := hm.quadratic t ht
  rwa [← Exact.number_toRat hnumber, Exact.zero_eq, Exact.number_lt, not_lt] at hweight

theorem Model.WellFormed.squares_nonneg {m : Model Exact} (hm : m.WellFormed) (x : ℕ → ℚ) :
    0 ≤ termSum m.quadratic.toList fun v => x v * x v := by
  apply List.sum_nonneg
  intro y hy
  obtain ⟨t, ht, rfl⟩ := List.mem_map.mp hy
  exact mul_nonneg (hm.toRat_weight_nonneg (Array.mem_toList_iff.mp ht)) (mul_self_nonneg _)

/-- The objective is at least the fixed cost plus the proxies. -/
theorem PlanningProblem.ChargesProxies.le_cost {p : PlanningProblem Exact} (h : p.ChargesProxies)
    (hm : p.model.WellFormed) (x : ℕ → ℚ) :
    p.fixedCost.valueAt x + (p.theta.toList.map x).sum ≤ p.model.cost x := by
  have hsquares := hm.squares_nonneg x
  rw [Model.cost, h.valueAt_objective]
  linarith

end BendersPlanning

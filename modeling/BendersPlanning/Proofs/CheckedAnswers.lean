import BendersPlanning.Proofs.ExactBackends
import BendersPlanning.Proofs.InfeasibilityCertificates
import BendersPlanning.Proofs.ShadowPrices

/-!
# Checked answers of a conic solver

An answer of a conic solver can be checked: a minimiser by its multipliers, infeasibility by a ray.
A backend that replies with answers that pass and gives up on all others is exact, however the
solver found them.
-/

namespace BendersPlanning

open Exact (number)

namespace Model

variable {m : Model Exact} {rhs point : Array Exact}

theorem changeAlong_self {slopes : Array Exact} (hm : m.WellFormed)
    (hslopes : IsFiniteVector m.constraints.size slopes) :
    changeAlong slopes m.rightHandSides m.rightHandSides = number 0 := by
  rw [changeAlong_eq hslopes hm.rightHandSides hm.rightHandSides]
  simp

/-- At the right-hand sides of the model itself, prices say that nothing is below the objective. -/
theorem IsPricedBy.least {objective : Exact} {duals : Array Exact}
    (h : m.IsPricedBy objective duals) (hm : m.WellFormed) (hpoint : m.Feasible point) :
    objective ≤ m.objectiveValue point := by
  have hbound := h.supports m.rightHandSides point hm.rightHandSides
    (m.withRhs_rightHandSides.symm ▸ hpoint)
  rwa [changeAlong_self hm h.toIsFiniteVector, Exact.add_number_zero] at hbound

theorem IsRefutedBy.not_feasible {c : Certificate Exact} (h : m.IsRefutedBy c) (hm : m.WellFormed) :
    ¬m.Feasible point := by
  intro hpoint
  have hbound := h.supports m.rightHandSides point hm.rightHandSides
    (m.withRhs_rightHandSides.symm ▸ hpoint)
  rw [changeAlong_self hm h.toIsFiniteVector, Exact.add_number_zero] at hbound
  exact Exact.not_lt_of_le hbound h.margin.2

theorem WellFormed.relaxation (hm : m.WellFormed) : (Relaxation.ofModel m).WellFormed where
  model := hm
  lowerSize := by simp [Relaxation.ofModel]
  upperSize := by simp [Relaxation.ofModel]
  activeSize := by simp [Relaxation.ofModel]
  ordered := by
    intro j hj
    change j < m.vars.size at hj
    obtain ⟨hlower, hupper, hordered⟩ := hm.bounds m.vars[j] (Array.getElem_mem hj)
    simpa [Relaxation.ofModel, Scalar.entry, hj] using Exact.le_of_not_lt hlower hupper hordered

theorem Feasible.relaxation (h : (m.withRhs rhs).Feasible point) :
    ((Relaxation.ofModel m).withRhs rhs).Feasible point where
  toIsFiniteVector := h.toIsFiniteVector
  box := by
    intro j hj
    change j < m.vars.size at hj
    obtain ⟨hlower, hupper, -⟩ := h.admitted j m.vars[j] (Array.getElem?_eq_getElem hj)
    simpa [Relaxation.ofModel, Relaxation.withRhs, Scalar.entry, hj] using ⟨hlower, hupper⟩
  rows := fun _ c hc _ => h.rows c (Array.mem_of_getElem? hc)

end Model

def ConicProgram.slack {K : Type} [Scalar K] (p : ConicProgram K) (x : Array K) : Array K :=
  (Array.range p.b.size).map fun i => Scalar.entry p.b i - p.A.mulVec x i

/-- The reply that an answer about the conic program of a model justifies. -/
def Model.checkedReply (m : Model Exact) (iterations : ℕ) : ConicOutcome Exact → Solution Exact
  | .optimal x z =>
    let r := Relaxation.ofModel m
    if m.Feasible x ∧ r.program.IsOptimal x (r.program.slack x) z then
      r.optimum x (r.prices z) iterations
    else .without .numericalFailure iterations
  | .infeasible z =>
    let r := Relaxation.ofModel m
    if r.program.IsRay z then
      { Solution.without .infeasible iterations with certificate := r.certificate? z }
    else .without .numericalFailure iterations
  | .unbounded | .limit | .failed => .without .numericalFailure iterations

/-- The backend that asks a conic solver and checks its answers. It knows no conflicts. -/
def ConicSolver.checkedBackend {σ : Type} (conic : ConicSolver Exact) :
    Backend (StateM σ) Exact where
  solve model settings :=
    let (outcome, iterations) := conic (Relaxation.ofModel model).program settings
    pure (.ok (model.checkedReply iterations outcome))
  conflicts _ _ := pure (.ok none)

section Checked
variable {m : Model Exact} {iterations : ℕ}

theorem isExactFor_without {status : Status} (hoptimal : status ≠ .optimal)
    (hinfeasible : status ≠ .infeasible) : (Solution.without status iterations).IsExactFor m where
  feasible := fun h => absurd h hoptimal
  value := fun h => absurd h hoptimal
  least := fun h => absurd h hoptimal
  priced := fun h => absurd h hoptimal
  infeasible := fun h => absurd h hinfeasible
  refuted := fun h => absurd h hinfeasible

theorem checkedReply_isExactFor (hm : m.WellFormed) (outcome : ConicOutcome Exact) :
    (m.checkedReply iterations outcome).IsExactFor m := by
  have hr := hm.relaxation
  cases outcome with
  | optimal x z =>
    unfold Model.checkedReply
    simp only
    split_ifs with h
    · obtain ⟨hfeasible, hoptimal⟩ := h
      have hpriced := Relaxation.isPricedBy_prices hr rfl hoptimal
      have hmodel : m.IsPricedBy (m.objectiveValue x) ((Relaxation.ofModel m).prices z) :=
        ⟨hpriced.toIsFiniteVector, fun rhs point hrhs hpoint =>
          hpriced.supports rhs point hrhs hpoint.relaxation⟩
      exact ⟨fun _ => hfeasible, fun _ => rfl, fun _ point hpoint => hmodel.least hm hpoint,
        fun _ _ => hmodel, nofun, nofun⟩
    · exact isExactFor_without nofun nofun
  | infeasible z =>
    unfold Model.checkedReply
    simp only
    split_ifs with h
    · obtain ⟨hcertificate, hrefuted⟩ := Relaxation.isRefutedBy_of_isRay hr h
      have hmodel : m.IsRefutedBy ⟨_, _⟩ :=
        ⟨hrefuted.toIsFiniteVector, hrefuted.margin, fun rhs point hrhs hpoint =>
          hrefuted.supports rhs point hrhs hpoint.relaxation⟩
      refine ⟨nofun, nofun, nofun, nofun, fun _ point => hmodel.not_feasible hm, fun _ c hc => ?_⟩
      obtain rfl := Option.some.inj (hcertificate.symm.trans hc)
      exact hmodel
    · exact isExactFor_without nofun nofun
  | unbounded | limit | failed => exact isExactFor_without nofun nofun

/-- A backend that checks the answers of a conic solver is exact. -/
theorem checkedBackend_isExact {σ : Type} (conic : ConicSolver Exact) :
    (conic.checkedBackend : Backend (StateM σ) Exact).IsExact := by
  intro model settings w w' s hm h
  obtain ⟨hreply, -⟩ := answers_pure.mp h
  obtain rfl := Except.ok.inj hreply
  exact checkedReply_isExactFor hm _

end Checked

end BendersPlanning

import BendersPlanning.Proofs.ConvergedRuns
import BendersPlanning.Proofs.FreeProxies

/-!
# Bounds that bracket the optimum

A run compares a lower bound, read from the planning problem, with upper bounds, which are costs of
candidates. If the proxies are free to take the costs they stand for, every candidate with a finite
upper bound has a served point of that objective, and no lower bound exceeds the objective of a
served point: the bounds of all iterations bracket each other, and no gap is negative.

A proxy needs a finite lower bound, but nothing keeps that bound below the cost of operation, nor the
proxy out of the fixed cost and the linking variables. Bounds then cross, and the run takes the
negative gap for a closed one.
-/

namespace BendersPlanning

open Exact (number)

theorem RunState.start_hasProxyFor {c : Configuration Exact} {p : DecomposedProblem Exact}
    {start : RunState Exact} (h : RunState.start c p = .ok start) :
    start.planning.HasProxyFor (start.evaluators.map (·.index)) := by
  obtain ⟨-, hvalid, evaluators, hevaluators, rfl⟩ := start_eq_ok.mp h
  have hcontract := DecomposedProblem.validate_eq_ok.mp hvalid
  have hindices := indices_eq (forall₂_of_mapM_eq_ok hevaluators)
  have hsorted := (List.mergeSort_perm evaluators fun a b => decide (a.index ≤ b.index)).map
    (·.index)
  by_cases hsingle : p.planning.theta.size = 1
  · exact .inl hsingle
  · have hsize := hcontract.proxies.resolve_left hsingle
    refine .inr ⟨?_, hsorted.trans ?_⟩
    · have := hcontract.nonempty.1
      exact decide_eq_true_iff.mpr (by dsimp only; omega)
    · rw [hindices]
      exact hsize ▸ hcontract.indices

namespace History

variable {h : History Exact}

theorem lowerBound_le_bestUpperBound (ht : h.IsTracked)
    (hbounded : ∀ i ∈ h.iterations, i.lowerBound ≤ Scalar.infinity)
    (hbracket : ∀ i ∈ h.iterations, ∀ j ∈ h.iterations, i.lowerBound ≤ j.upperBound) :
    h.lowerBound ≤ h.bestUpperBound := by
  cases hlast : h.iterations.back? with
  | none =>
    simp only [lowerBound, bestUpperBound, hlast, Option.map_none, Option.getD_none]
    exact .inl rfl
  | some i =>
    have hi := Array.mem_of_back? hlast
    have hlower : h.lowerBound = i.lowerBound := by simp [lowerBound, hlast]
    rw [hlower]
    cases hbest : h.best with
    | none =>
      rw [ht.unmarked hbest]
      exact hbounded i hi
    | some k =>
      obtain ⟨j, hj, hupper⟩ := ht.marked k hbest
      rw [← hupper]
      exact hbracket i hi j (Array.mem_of_getElem? hj)

/-- A gap between bounds that bracket each other is not negative. -/
theorem gap_nonneg (hbounds : h.lowerBound ≤ h.bestUpperBound) : number 0 ≤ h.gap := by
  unfold gap
  by_cases hfinite : Scalar.isFinite h.bestUpperBound = true ∧ Scalar.isFinite h.lowerBound = true
  · obtain ⟨u, hu⟩ := Exact.isFinite_iff.mp hfinite.1
    obtain ⟨l, hl⟩ := Exact.isFinite_iff.mp hfinite.2
    rw [hu, hl, Exact.number_le, ← sub_nonneg] at hbounds
    rw [hu, hl]
    obtain ⟨-, hvalue⟩ | ⟨-, hpositive, hvalue⟩ := relativeGap_cases l u <;>
      rw [hvalue, Exact.number_le]
    · exact hbounds
    · exact div_nonneg hbounds hpositive.le
  · rw [relativeGap, if_neg (by rwa [Bool.and_eq_true])]
    exact .inl rfl

end History

namespace RunState

variable {σ : Type} {backend : Backend (StateM σ) Exact} {clock : Clock (StateM σ) Exact}
  {c : Configuration Exact} {linking : List String} {start : RunState Exact} {w : σ}

theorem lowerBound_bounded_of_reaches (hb : backend.IsExact) (hs : start.IsSound)
    (hempty : start.history = .empty) {after : RunState Exact × σ}
    (h : Reaches backend clock c linking (start, w) after) :
    ∀ i ∈ after.1.history.iterations, ∃ v, i.lowerBound ≤ number v := by
  induction h with
  | refl => simp [hempty, History.empty]
  | @tail before after hreach hstep ih =>
    obtain ⟨hsound, -⟩ := reaches_sound hb hs hreach
    obtain ⟨-, -, lower, upper, elapsed, gamma, candidate, hrecord, hlower, hoffers, -⟩ :=
      step_sound hb hsound hstep
    obtain ⟨point, -, hpoint, -⟩ := hoffers
    obtain ⟨v, hv⟩ : ∃ v, before.1.history.lowerBound ≤ number v := by
      cases hlast : before.1.history.iterations.back? with
      | none => exact ⟨0, by simp [History.lowerBound, hlast]⟩
      | some i =>
        obtain ⟨v, hv⟩ := ih i (Array.mem_of_back? hlast)
        exact ⟨v, by simpa [History.lowerBound, hlast] using hv⟩
    -- A planning optimum is no more than the objective of the point that the candidate comes from.
    obtain ⟨u, hu⟩ : ∃ u, lower ≤ number u :=
      ⟨_, Model.objectiveValue_eq hsound.planning hpoint.toIsFiniteVector ▸ hlower point hpoint⟩
    intro i hi
    rw [hrecord] at hi
    rcases History.mem_record hi with hi | hi
    · exact ih i hi
    · refine ⟨max v u, ?_⟩
      rw [hi]
      apply Exact.larger_le
      · exact Exact.le_trans hv (Exact.number_le.mpr (le_max_left _ _))
      · exact Exact.le_trans hu (Exact.number_le.mpr (le_max_right _ _))

/-- No lower bound of an iteration is above the upper bound of an iteration, whichever comes first. -/
theorem lowerBound_le_upperBound_of_reaches (hb : backend.IsExact) (hs : start.IsSound)
    (hempty : start.history = .empty)
    (hfree : start.planning.HasFreeProxies linking start.evaluators)
    (hcount : start.planning.HasProxyFor (start.evaluators.map (·.index)))
    {after : RunState Exact × σ} (h : Reaches backend clock c linking (start, w) after) :
    ∀ i ∈ after.1.history.iterations, ∀ j ∈ after.1.history.iterations,
      i.lowerBound ≤ j.upperBound := by
  intro i hi j hj
  obtain ⟨hoffers, hcosts⟩ := (isTracked_of_reaches hb hs hempty h).2 j hj
  rcases hcosts with ⟨costs, hminima, hupper⟩ | ⟨hupper, -⟩
  · obtain ⟨served, operation, hserved, hvalue⟩ :=
      hfree.exists_served hs.planning hs.evaluators hs.indices hcount hoffers hminima
    rw [hupper, ← hvalue]
    exact lowerBound_le_of_reaches hb hs hempty h hserved i hi
  · obtain ⟨v, hv⟩ := lowerBound_bounded_of_reaches hb hs hempty h i hi
    rw [hupper]
    exact Exact.le_trans hv (.inl rfl)

end RunState

/-- Where the proxies of the initial planning problem are free to take the costs that they stand
for, the bounds of a run never cross: no lower bound is above any upper bound, in every state that
is reached and in the result, and the gap is not negative. -/
theorem bounds_never_cross {σ : Type} {backend : Backend (StateM σ) Exact}
    {clock : Clock (StateM σ) Exact} {c : Configuration Exact} {problem : DecomposedProblem Exact}
    {start : RunState Exact} (hproblem : problem.WellFormed) (hb : backend.IsExact)
    (hstart : RunState.start c problem = .ok start)
    (hfree : start.planning.HasFreeProxies problem.linking start.evaluators) :
    (∀ w after, RunState.Reaches backend clock c problem.linking (start, w) after →
      ∀ i ∈ after.1.history.iterations, ∀ j ∈ after.1.history.iterations,
        i.lowerBound ≤ j.upperBound) ∧
    ∀ w r w', Yields (problem.run backend clock c) w r w' →
      (∀ i ∈ r.history.iterations, ∀ j ∈ r.history.iterations, i.lowerBound ≤ j.upperBound) ∧
      r.lowerBound ≤ r.upperBound ∧ 0.0 ≤ r.history.gap := by
  obtain ⟨hsound, hempty, -⟩ := RunState.start_sound hproblem hstart
  have hcount := RunState.start_hasProxyFor hstart
  have hreached : ∀ w after, RunState.Reaches backend clock c problem.linking (start, w) after →
      ∀ i ∈ after.1.history.iterations, ∀ j ∈ after.1.history.iterations,
        i.lowerBound ≤ j.upperBound := by
    intro w after hreach
    exact RunState.lowerBound_le_upperBound_of_reaches hb hsound hempty hfree hcount hreach
  refine ⟨hreached, fun w r w' hrun => ?_⟩
  obtain ⟨start', before, s, hstart', hreach, hstep, -, hhistory, -⟩ := RunState.run_reaches hrun
  obtain rfl := Except.ok.inj (hstart.symm.trans hstart')
  have hlast := Relation.ReflTransGen.tail hreach hstep
  obtain ⟨htracked, -⟩ := RunState.isTracked_of_reaches hb hsound hempty hlast
  have hbracket := hreached w (s, w') hlast
  have hbounded : ∀ i ∈ s.history.iterations, i.lowerBound ≤ Scalar.infinity := by
    intro i hi
    obtain ⟨v, hv⟩ := RunState.lowerBound_bounded_of_reaches hb hsound hempty hlast i hi
    exact Exact.le_trans hv (.inl rfl)
  have hbounds := History.lowerBound_le_bestUpperBound htracked hbounded hbracket
  rw [RunResult.lowerBound, RunResult.upperBound, hhistory, htracked.least, Exact.zero_eq]
  exact ⟨hbracket, hbounds, History.gap_nonneg hbounds⟩

/-- The proxy of the one plant is at least zero and so is every cost of its operation: the bounds of
the run bracket its optimum. -/
theorem onePlant_bounds_bracket :
    ∃ start r, RunState.start .default onePlant = .ok start ∧
      start.planning.HasFreeProxies onePlant.linking start.evaluators ∧
      Yields onePlantRun () r () ∧ 1 < r.history.iterations.size ∧
      (∀ i ∈ r.history.iterations, ∀ j ∈ r.history.iterations, i.lowerBound ≤ j.upperBound) ∧
      r.lowerBound ≤ r.upperBound ∧ 0.0 ≤ r.history.gap := by
  have hproblem : onePlant.WellFormed := ⟨by decide +kernel, by decide +kernel⟩
  obtain ⟨start, hstart, hdistinct, hobjective, hlinear, hfixed, hunlinked, hrows, hbounds, hearns⟩ :=
    exists_ok_of_any (x := RunState.start .default onePlant)
    (P := fun start =>
      start.planning.theta.toList.Nodup ∧
      start.planning.model.objective =
        start.planning.fixedCost.addScaled (PlanningProblem.proxyCost start.planning.theta) 1.0 ∧
      (∀ t ∈ start.planning.model.quadratic, t.2 = 0.0) ∧
      (∀ t ∈ start.planning.fixedCost.terms, t.1 ∉ start.planning.theta.toList) ∧
      (∀ name ∈ onePlant.linking, ∀ t ∈ start.planning.theta.toList,
        start.planning.model.variableNamed? name ≠ some t) ∧
      (∀ c ∈ start.planning.model.constraints, ∀ t ∈ c.expression.terms,
        t.1 ∉ start.planning.theta.toList) ∧
      (∀ t ∈ start.planning.theta.toList, ∀ v ∈ start.planning.model.vars[t]?,
        v.lowerBound ≤ 0.0 ∧ v.upperBound = Scalar.infinity ∧ v.integer = false) ∧
      ∀ e ∈ start.evaluators, e.activeModel.NeverEarns) (by decide +kernel)
  obtain ⟨r, hrun, hmany⟩ := exists_ok_of_any (x := (onePlantRun.run.run ()).1)
    (P := fun r => 1 < r.history.iterations.size) (by decide +kernel)
  have hyields : Yields onePlantRun () r () := Prod.ext hrun rfl
  obtain ⟨hsound, -⟩ := RunState.start_sound hproblem hstart
  have hcount := RunState.start_hasProxyFor hstart
  have hfree : start.planning.HasFreeProxies onePlant.linking start.evaluators := by
    refine ⟨hdistinct, hobjective, hlinear, hfixed, hunlinked, ?_⟩
    intro point _ candidate costs hpoint _ hcosts
    exact PlanningProblem.admits_of_neverEarns hpoint hdistinct hrows hbounds hsound.evaluators
      hsound.indices hcount hearns hcosts
  obtain ⟨-, hresult⟩ := bounds_never_cross hproblem (checkedBackend_isExact _) hstart hfree
  obtain ⟨hbracket, hbest, hgap⟩ := hresult () r () hyields
  exact ⟨start, r, hstart, hfree, hyields, hmany, hbracket, hbest, hgap⟩

/-- A subproblem that imports `least` units and `share` for each unit of a linking variable, at a
cost of one each. -/
def imports (linked : String) (share least : ℚ) : Subproblem Exact where
  index := 0
  model :=
    { vars := #[.continuous linked none none, .continuous "import" (some (number 0)) none]
      constraints := #[
        ⟨"need", ⟨#[(0, number (-share)), (1, number 1)], number 0⟩, .atLeast, number least⟩]
      objective := ⟨#[(1, number 1)], number 0⟩
      quadratic := #[]
      expressions := .empty }
  linking := [linked]
  slackPenalty := none

/-- A capacity of one to ten units and a proxy of at least `least`. The variable `paid` is the fixed
cost, and squares may be charged as well. -/
def plan (linked : String) (paid : ℕ) (squares : Array (ℕ × Exact)) (least : ℚ)
    (subproblem : Subproblem Exact) : DecomposedProblem Exact where
  planning :=
    { model :=
        { vars := #[.continuous "capacity" (some (number 1)) (some (number 10)),
            .continuous "theta" (some (number least)) none]
          constraints := #[]
          objective := (Expression.ofVariable paid).addScaled (PlanningProblem.proxyCost #[1]) 1.0
          quadratic := squares
          expressions := .empty }
      fixedCost := .ofVariable paid
      theta := #[1] }
  linking := [linked]
  subproblems := [subproblem]

/-- A proxy of at least five for a cost of one. -/
def dearProxy : DecomposedProblem Exact :=
  plan "capacity" 0 #[] 5 (imports "capacity" 0 1)

/-- A square that the planning problem pays for and a candidate does not. -/
def squaredCapacity : DecomposedProblem Exact :=
  plan "capacity" 0 #[(0, number 2)] 0 (imports "capacity" 0 1)

/-- A proxy that is its own fixed cost. -/
def paidProxy : DecomposedProblem Exact :=
  plan "capacity" 1 #[] 0 (imports "capacity" 0 1)

/-- A proxy that the subproblem depends on. -/
def linkedProxy : DecomposedProblem Exact :=
  plan "theta" 0 #[] 0 (imports "theta" (1 / 2) 1)

/-- The run that asks the pivoting solver about a problem and checks its answers. -/
def checkedRun (p : DecomposedProblem Exact) :
    ExceptT (RunError Exact) (StateM Unit) (RunResult Exact) :=
  p.run (ConicSolver.checkedBackend ConicProgram.solveByPivoting) (fun _ => pure (number 1)) .default

/-- Without free proxies the bounds of a valid problem can cross: the run over each of these takes a
negative gap for a closed one. -/
theorem bounds_cross_without_free_proxies :
    (ConicSolver.checkedBackend ConicProgram.solveByPivoting :
        Backend (StateM Unit) Exact).IsExact ∧
      ∀ p ∈ [dearProxy, squaredCapacity, paidProxy, linkedProxy],
        p.WellFormed ∧ p.validate = .ok () ∧ ∃ r, Yields (checkedRun p) () r () ∧
          r.termination = .converged ∧ r.upperBound < r.lowerBound ∧ r.history.gap < number 0 := by
  refine ⟨checkedBackend_isExact _, fun p hp => ?_⟩
  have hchecked : ∀ p ∈ [dearProxy, squaredCapacity, paidProxy, linkedProxy],
      p.planning.model.WellFormed ∧ (∀ s ∈ p.subproblems, s.model.WellFormed) ∧
        p.validate = .ok () ∧ (((checkedRun p).run.run ()).1.toOption.any fun r =>
          r.termination = .converged ∧ r.upperBound < r.lowerBound ∧
            r.history.gap < number 0) = true := by
    decide +kernel
  obtain ⟨hplanning, hsubproblems, hvalid, hany⟩ := hchecked p hp
  obtain ⟨r, hrun, hcrossed⟩ := exists_ok_of_any hany
  exact ⟨⟨hplanning, hsubproblems⟩, hvalid, r, Prod.ext hrun rfl, hcrossed⟩

end BendersPlanning

import BendersPlanning.Proofs.RunBounds
import Mathlib.Tactic.FieldSimp

/-!
# Converged runs

The incumbent is the candidate of an iteration with the least upper bound, and that bound is what
the candidate costs. When the gap is closed, the lower bound, which no served point undercuts, is
within the tolerance of it: the plan that a converged run returns is near-optimal.
-/

namespace BendersPlanning

open Exact (number)

namespace History

variable {h : History Exact} {lower upper elapsed gamma : Exact} {candidate : Candidate Exact}

/-- The least upper bound is a number or infinite, and the marked iteration has it. -/
structure IsTracked (h : History Exact) : Prop where
  defined : Scalar.isUndefined h.bestUpperBound = false
  least : h.iterations.foldl (fun best i => Scalar.smaller best i.upperBound) Scalar.infinity =
    h.bestUpperBound
  unmarked : h.best = none → h.bestUpperBound = Scalar.infinity
  marked : ∀ k, h.best = some k → ∃ i, h.iterations[k]? = some i ∧ i.upperBound = h.bestUpperBound

theorem empty_isTracked : (empty : History Exact).IsTracked :=
  ⟨rfl, rfl, fun _ => rfl, nofun⟩

theorem isTracked_record (ht : h.IsTracked) :
    (h.record lower upper elapsed gamma candidate).IsTracked := by
  have hleast : (h.record lower upper elapsed gamma candidate).iterations.foldl
      (fun best i => Scalar.smaller best i.upperBound) Scalar.infinity =
        Scalar.smaller h.bestUpperBound upper := by
    rw [record, Array.foldl_push, ht.least]
  by_cases himproves : upper < h.bestUpperBound
  · have hsmaller : Scalar.smaller h.bestUpperBound upper = upper := by
      simp [Scalar.smaller, ht.defined, (Exact.isUndefined_of_lt himproves).1, himproves]
    have hbest : (h.record lower upper elapsed gamma candidate).best = some h.count :=
      if_pos (decide_eq_true himproves)
    refine ⟨?_, hleast.trans bestUpperBound_record.symm, fun hnone => ?_, fun k hk => ?_⟩
    · rw [bestUpperBound_record, hsmaller]
      exact (Exact.isUndefined_of_lt himproves).1
    · rw [hbest] at hnone
      cases hnone
    · obtain rfl := Option.some.inj (hbest.symm.trans hk)
      refine ⟨_, Array.getElem?_push_size, ?_⟩
      rw [bestUpperBound_record, hsmaller]
  · have hsmaller : Scalar.smaller h.bestUpperBound upper = h.bestUpperBound := by
      simp [Scalar.smaller, ht.defined, himproves]
    have hbest : (h.record lower upper elapsed gamma candidate).best = h.best :=
      if_neg (by simpa [improves] using himproves)
    refine ⟨?_, hleast.trans bestUpperBound_record.symm, fun hnone => ?_, fun k hk => ?_⟩
    · rw [bestUpperBound_record, hsmaller]
      exact ht.defined
    · rw [bestUpperBound_record, hsmaller]
      exact ht.unmarked (hbest ▸ hnone)
    · obtain ⟨i, hi, hupper⟩ := ht.marked k (hbest ▸ hk)
      refine ⟨i, ?_, by rw [bestUpperBound_record, hsmaller, hupper]⟩
      have hlt := (Array.getElem?_eq_some_iff.mp hi).choose
      simp only [record, Array.getElem?_push, hlt.ne, if_false]
      exact hi

/-- A least upper bound that is a number belongs to an iteration, and so does the incumbent. -/
theorem IsTracked.exists_incumbent (ht : h.IsTracked) {u : ℚ} (hu : h.bestUpperBound = number u) :
    ∃ i ∈ h.iterations, h.incumbent? = some i.candidate ∧ i.upperBound = number u := by
  cases hmarked : h.best with
  | none =>
    rw [ht.unmarked hmarked] at hu
    cases hu
  | some k =>
    obtain ⟨i, hi, hupper⟩ := ht.marked k hmarked
    exact ⟨i, Array.mem_of_getElem? hi, by simp [incumbent?, hmarked, hi], hupper.trans hu⟩

/-- The gap of two numbers, by the size of the upper one. -/
theorem relativeGap_cases (l u : ℚ) :
    Scalar.abs (number u) < 1e-10 ∧ relativeGap (number l) (number u) = number (u - l) ∨
      ¬Scalar.abs (number u) < 1e-10 ∧ 0 < |u| ∧
        relativeGap (number l) (number u) = number ((u - l) / |u|) := by
  unfold relativeGap
  rw [Exact.isFinite_number, Exact.isFinite_number, Bool.and_self, if_pos rfl, Exact.number_sub]
  by_cases hsmall : Scalar.abs (number u) < 1e-10
  · exact .inl ⟨hsmall, if_pos hsmall⟩
  · rw [if_neg hsmall]
    rw [Exact.abs_number] at hsmall ⊢
    have hpositive : 0 < |u| := by
      rw [Exact.tiny_eq, Exact.number_lt, not_lt] at hsmall
      exact lt_of_lt_of_le (by norm_num) hsmall
    exact .inr ⟨hsmall, hpositive, Exact.number_div _ hpositive.ne'⟩

/-- A gap within a finite tolerance: both bounds are numbers, close to each other. -/
theorem bestUpperBound_le_of_gap_le {tolerance : ℚ} (hgap : h.gap ≤ number tolerance) :
    ∃ u l : ℚ, h.bestUpperBound = number u ∧ h.lowerBound = number l ∧
      number u ≤ number l + if Scalar.abs (number u) < 1e-10 then number tolerance
        else number tolerance * Scalar.abs (number u) := by
  have hfinite : Scalar.isFinite h.bestUpperBound = true ∧ Scalar.isFinite h.lowerBound = true := by
    by_contra hinfinite
    rw [gap, relativeGap, if_neg (by rwa [Bool.and_eq_true])] at hgap
    exact Exact.not_infinity_le_number _ hgap
  obtain ⟨u, hu⟩ := Exact.isFinite_iff.mp hfinite.1
  obtain ⟨l, hl⟩ := Exact.isFinite_iff.mp hfinite.2
  refine ⟨u, l, hu, hl, ?_⟩
  rw [gap, hu, hl] at hgap
  obtain ⟨hsmall, hvalue⟩ | ⟨hsmall, hpositive, hvalue⟩ := relativeGap_cases l u
  · rw [hvalue, Exact.number_le] at hgap
    rw [if_pos hsmall, Exact.number_add, Exact.number_le]
    linarith
  · rw [hvalue, Exact.number_le, div_le_iff₀ hpositive] at hgap
    rw [if_neg hsmall, Exact.abs_number, Exact.number_mul, Exact.number_add, Exact.number_le]
    linarith

end History

section Transfer
variable {p p' : PlanningProblem Exact} {linking : List String} {candidate : Candidate Exact}

theorem PlanningProblem.Extends.offers (h : p'.Extends p) (hoffers : p'.Offers linking candidate) :
    p.Offers linking candidate := by
  obtain ⟨point, bound, hfeasible, hpoint⟩ := hoffers
  exact ⟨point, bound, h.feasible hfeasible, h.ofPoint linking point bound ▸ hpoint⟩

theorem Candidate.Costs.of_matches {es es' : List (Evaluator Exact)} {upper : Exact}
    (h : List.Forall₂ Evaluator.Matches es' es) (hcosts : candidate.Costs es' upper) :
    candidate.Costs es upper := by
  have hmodels := RunState.map_eq_of_matches h (f := fun e => e.modelAt candidate.values.valueAt)
    fun e' e hmatches => by rw [hmatches.modelAt]
  rcases hcosts with ⟨costs, hminima, hupper⟩ | ⟨hupper, e', he', hinfeasible⟩
  · refine .inl ⟨costs, ?_, hupper⟩
    rw [← List.forall₂_map_left_iff (R := fun m v => Model.HasMinimum m v)] at hminima ⊢
    rwa [← hmodels]
  · obtain ⟨e, he, hmatches⟩ := RunState.exists_of_forall₂ h he'
    exact .inr ⟨hupper, e, he, hmatches.modelAt ▸ hinfeasible⟩

end Transfer

namespace RunState

variable {σ : Type} {backend : Backend (StateM σ) Exact} {clock : Clock (StateM σ) Exact}
  {c : Configuration Exact} {linking : List String} {start : RunState Exact} {w : σ}

/-- The incumbent is tracked, and every recorded candidate is one of the initial planning problem
with its cost there. -/
theorem isTracked_of_reaches (hb : backend.IsExact) (hs : start.IsSound)
    (hempty : start.history = .empty) {after : RunState Exact × σ}
    (h : Reaches backend clock c linking (start, w) after) :
    after.1.history.IsTracked ∧ ∀ i ∈ after.1.history.iterations,
      start.planning.Offers linking i.candidate ∧
        i.candidate.Costs start.evaluators i.upperBound := by
  induction h with
  | refl =>
    rw [hempty]
    exact ⟨History.empty_isTracked, by simp [History.empty]⟩
  | tail hreach hstep ih =>
    obtain ⟨hsound, hfollows⟩ := reaches_sound hb hs hreach
    obtain ⟨-, hnext, lower, upper, elapsed, gamma, candidate, hrecord, -, hoffers, hcosts⟩ :=
      step_sound hb hsound hstep
    rw [hrecord]
    refine ⟨History.isTracked_record ih.1, fun i hi => ?_⟩
    rcases Array.mem_push.mp hi with hi | rfl
    · exact ih.2 i hi
    · exact ⟨hfollows.planning.offers hoffers,
        hcosts.of_matches (hnext.trans hfollows).evaluators⟩

end RunState

/-- A converged run returns the candidate of an iteration with the least upper bound. It was read
from a feasible point of the initial planning problem, its bound is its fixed cost and the least
costs of all subproblems at its values, and no served point is better by more than the tolerance. -/
theorem converged_runs_are_near_optimal {σ : Type} {backend : Backend (StateM σ) Exact}
    {clock : Clock (StateM σ) Exact} {c : Configuration Exact} {problem : DecomposedProblem Exact}
    {start : RunState Exact} {r : RunResult Exact} {w w' : σ} (hproblem : problem.WellFormed)
    (hb : backend.IsExact) (hstart : RunState.start c problem = .ok start)
    (hrun : Yields (problem.run backend clock c) w r w') (hconverged : r.termination = .converged) :
    (∃ i ∈ r.history.iterations, r.best = i.candidate ∧ i.upperBound = r.upperBound) ∧
    start.planning.Offers problem.linking r.best ∧
    (∃ costs, List.Forall₂ (fun e v => (e.modelAt r.best.values.valueAt).HasMinimum v)
        start.evaluators costs ∧ r.upperBound = r.best.fixedCost + Scalar.sum costs) ∧
    ∀ point operation, start.planning.IsServed start.evaluators point operation →
      r.upperBound ≤ r.planning.model.objectiveValue point +
        if Scalar.abs r.upperBound < 1e-10 then c.convTol
        else c.convTol * Scalar.abs r.upperBound := by
  obtain ⟨hsound, hempty, hvalid⟩ := RunState.start_sound hproblem hstart
  obtain ⟨start', before, s, hstart', hreach, hstep, hplanning, hhistory, hgap, hbest⟩ :=
    RunState.run_reaches hrun
  obtain rfl := Except.ok.inj (hstart.symm.trans hstart')
  have hlast := Relation.ReflTransGen.tail hreach hstep
  obtain ⟨-, hfollows⟩ := RunState.reaches_sound hb hsound hlast
  obtain ⟨htracked, hrecorded⟩ := RunState.isTracked_of_reaches hb hsound hempty hlast
  -- Both bounds are numbers, so there is an incumbent.
  obtain ⟨tolerance, htolerance⟩ := Exact.isFinite_iff.mp (Configuration.validate_eq_ok.mp hvalid).tolerance.1
  obtain ⟨u, l, hu, hl, hclose⟩ :=
    History.bestUpperBound_le_of_gap_le (htolerance ▸ hgap hconverged)
  have hupper : r.upperBound = number u := by
    rw [RunResult.upperBound, hhistory, htracked.least, hu]
  obtain ⟨i, hi, hincumbent, hiupper⟩ := htracked.exists_incumbent hu
  have hsame : i.candidate = r.best := by
    rw [hincumbent] at hbest
    exact Option.some.inj hbest
  obtain ⟨hoffers, hcosts⟩ := hrecorded i hi
  rw [hsame] at hoffers hcosts
  refine ⟨⟨i, hhistory ▸ hi, hsame.symm, hiupper.trans hupper.symm⟩, hoffers, ?_,
    fun point operation hserved => ?_⟩
  · rw [hupper, ← hiupper]
    refine hcosts.resolve_right fun hinfeasible => ?_
    rw [hiupper] at hinfeasible
    cases hinfeasible.1
  · have hbound := RunState.lowerBound_le_of_reaches hb hsound hempty hlast hserved
    have hvalue := Model.objectiveValue_eq hsound.planning hserved.planned.toIsFiniteVector
    rw [hupper, hplanning, hfollows.planning.objectiveValue, htolerance]
    rw [hvalue] at hbound ⊢
    have hlower := History.lowerBound_le hbound
    rw [hl] at hlower
    refine Exact.le_trans hclose ?_
    split_ifs <;>
      simpa [Exact.abs_number] using hlower

/-- The run over one plant converges to the plan without imports, which no served plan undercuts. -/
theorem onePlant_is_near_optimal :
    ∃ start r, RunState.start .default onePlant = .ok start ∧ Yields onePlantRun () r () ∧
      r.termination = .converged ∧ r.upperBound = number 3 ∧
      start.planning.Offers onePlant.linking r.best ∧
      ∀ point operation, start.planning.IsServed start.evaluators point operation →
        r.upperBound ≤ r.planning.model.objectiveValue point +
          if Scalar.abs r.upperBound < 1e-10 then 1e-3 else 1e-3 * Scalar.abs r.upperBound := by
  obtain ⟨start, hstart, -⟩ := exists_ok_of_any (x := RunState.start .default onePlant)
    (P := fun _ => True) (by decide +kernel)
  obtain ⟨r, hrun, hconverged, hupper⟩ := exists_ok_of_any (x := (onePlantRun.run.run ()).1)
    (P := fun r => r.termination = .converged ∧ r.upperBound = number 3) (by decide +kernel)
  have hyields : Yields onePlantRun () r () := Prod.ext hrun rfl
  obtain ⟨-, hoffers, -, hnear⟩ := converged_runs_are_near_optimal
    ⟨by decide +kernel, by decide +kernel⟩ (checkedBackend_isExact _) hstart hyields hconverged
  exact ⟨start, r, hstart, hyields, hconverged, hupper, hoffers, hnear⟩

end BendersPlanning

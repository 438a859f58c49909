import BendersPlanning.Proofs.AcceptedCuts

/-!
# Replies over finite numbers

A backend may answer anything, right or wrong, as long as an optimum comes with finite numbers of
full length and a certificate with finite ones. Candidates that are read from such replies then have
finite values for all linking variables, and outcomes are finite under names that link. Truthful
replies are of this kind.
-/

namespace BendersPlanning

open Scalar (isFinite)

section Promises
variable {K : Type} [Scalar K] {σ : Type}

structure Solution.IsFiniteFor (s : Solution K) (m : Model K) : Prop where
  objective : s.status = .optimal → isFinite s.objective = true
  primal : s.status = .optimal → IsFiniteVector m.vars.size s.primal
  duals : s.status = .optimal → m.hasInteger = false → IsFiniteVector m.constraints.size s.duals
  certificate : s.status = .infeasible → ∀ c ∈ s.certificate,
    isFinite c.infeasibility = true ∧ ∀ x ∈ c.ray, isFinite x = true

def Backend.RepliesFinitely (backend : Backend (StateM σ) K) : Prop :=
  ∀ (model : Model K) (settings : SolverSettings K) (w w' : σ) (s : Solution K),
    model.WellFormed → Answers (backend.solve model settings) w (.ok s) w' → s.IsFiniteFor model

end Promises

section Planning
variable {K : Type} [Scalar K] {σ : Type} {backend : Backend (StateM σ) K} {linking : List String}
  {settings : SolverSettings K} {w w₁ w' : σ}

theorem PlanningProblem.covers_of_solve (hb : backend.RepliesFinitely) {p : PlanningProblem K}
    (hp : p.model.WellFormed) {c : Candidate K}
    (h : Yields (p.solve backend linking settings) w c w') : c.values.Covers linking := by
  obtain ⟨settings', w₁, s, hreplied, hs, -, hpoint⟩ := solve_replied h
  exact covers_of_ofPoint ((hb p.model settings' w₁ w' s hp hreplied).primal hs).finite hpoint

theorem PlanningProblem.covers_of_project (hb : backend.RepliesFinitely) {p : PlanningProblem K}
    (hp : p.model.WellFormed) {centre c : Candidate K} {lower upper gamma : K}
    (h : Yields (p.project backend linking centre lower upper gamma settings) w c w') :
    c.values.Covers linking := by
  obtain ⟨model, settings', w₁, s, bound, hmodel, -, -, hreplied, hs, hpoint⟩ :=
    project_replied hp h
  exact covers_of_ofPoint ((hb model settings' w₁ w' s hmodel hreplied).primal hs).finite hpoint

/-- The candidate that is evaluated has values for all linking variables. -/
theorem RunState.covers_of_candidate (hb : backend.RepliesFinitely) {s : RunState K}
    (hs : s.planning.model.WellFormed) {master point : Candidate K}
    (hsolve : Yields (s.planning.solve backend linking settings) w master w₁)
    (h : Answers (s.candidate backend linking settings master) w₁ point w') :
    point.values.Covers linking := by
  obtain rfl | ⟨-, hproject⟩ := candidate_cases h
  · exact PlanningProblem.covers_of_solve hb hs hsolve
  · exact PlanningProblem.covers_of_project hb hs hproject

end Planning

section Operation
variable {σ : Type} {backend : Backend (StateM σ) Exact} {e : Evaluator Exact}

/-- Truthful replies are finite. -/
theorem Backend.IsExact.repliesFinitely (hb : backend.IsExact) : backend.RepliesFinitely := by
  intro model settings w w' s hm hs
  have hexact := hb model settings w w' s hm hs
  refine ⟨fun h => ?_, fun h => (hexact.feasible h).toIsFiniteVector,
    fun h hcontinuous => (hexact.priced h hcontinuous).toIsFiniteVector, fun h c hc => ?_⟩
  · rw [hexact.value h, Model.objectiveValue_eq hm (hexact.feasible h).toIsFiniteVector]
    exact Exact.isFinite_number _
  · have hrefuted := hexact.refuted h c hc
    exact ⟨hrefuted.margin.1, hrefuted.finite⟩

namespace Evaluator

/-- Shadow prices of all rows give an outcome. -/
theorem IsReady.exists_optimalOutcome (he : e.IsReady) {s : Solution Exact}
    (hduals : s.duals.size = e.activeModel.constraints.size) :
    ∃ o, e.optimalOutcome s = .ok o := by
  refine (exists_foldlM_eq_ok (P := fun _ => True) ?_ trivial).elim fun prices hprices =>
    ⟨_, bind_eq_ok.mpr ⟨prices, hprices.1, rfl⟩⟩
  intro prices entry hentry _
  have hlt : entry.2 < s.duals.size := hduals ▸ he.bound entry hentry
  exact ⟨prices.insert entry.1 s.duals[entry.2], by simp [Solution.dual?, hlt], trivial⟩

/-- What is read on the fixing rows stands under their names. -/
theorem IsReady.mem_ofList_fixingRows (he : e.IsReady) {f : ℕ → Exact} {t : String × Exact}
    (ht : t ∈ (SortedMap.ofList (e.fixingRows.map fun (name, row) => (name, f row))).entries) :
    ∃ entry ∈ e.fixingRows, t = (entry.1, f entry.2) := by
  rw [(SortedMap.ofList_perm (by rw [List.map_map]; exact he.names)).mem_iff] at ht
  obtain ⟨entry, hentry, rfl⟩ := List.mem_map.mp ht
  exact ⟨entry, hentry, rfl⟩

/-- Outcomes that are read from finite replies are finite, under names of linking variables. -/
theorem Obtains.isFiniteOver (hb : backend.RepliesFinitely) (he : e.IsReady) {linking : List String}
    (hlinking : ∀ entry ∈ e.fixingRows, entry.1 ∈ linking) {values : SortedMap String Exact}
    {o : OperationOutcome Exact} (h : e.Obtains backend values o) : o.IsFiniteOver linking := by
  obtain ⟨settings, w, s, w', hreplied, houtcome⟩ := h.replied
  have hfinite := hb _ settings w w' s he.model hreplied
  rcases outcome_eq_ok houtcome with ⟨hs, houtcome⟩ | ⟨hs, c, hc, rfl⟩
  · obtain ⟨used, rfl⟩ := optimalOutcome_eq_ok houtcome
    refine ⟨hfinite.objective hs, fun t ht => ?_⟩
    obtain ⟨entry, hentry, rfl⟩ := he.mem_ofList_fixingRows (f := Scalar.entry s.duals) ht
    refine ⟨hlinking entry hentry, ?_⟩
    rw [(hfinite.duals hs he.continuous).entry_eq (he.bound entry hentry)]
    exact Exact.isFinite_number _
  · obtain ⟨hmargin, hray⟩ := hfinite.certificate hs c hc
    refine ⟨hmargin, fun t ht => ?_⟩
    obtain ⟨entry, hentry, rfl⟩ :=
      he.mem_ofList_fixingRows (f := fun row => c.ray[row]?.getD 0.0) ht
    refine ⟨hlinking entry hentry, ?_⟩
    cases hslope : c.ray[entry.2]? with
    | none => simp
    | some x => simpa [hslope] using hray x (Array.mem_of_getElem? hslope)

end Evaluator

end Operation

end BendersPlanning

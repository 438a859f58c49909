import BendersPlanning.Proofs.AccumulatedCuts
import BendersPlanning.Proofs.FailedProjections

/-!
# Candidates without negative capacities

Solving the planning problem rejects an optimum in which a capacity that may not be negative clearly is.
So no solution of the planning problem has such a value, in no iteration of any run and whatever the
backend replies. The reply about a projection is read as it comes: a candidate has a clearly negative
capacity just when it was read from a projection whose reply has one (`TakesNegative`).
-/

namespace BendersPlanning

variable {K : Type} [Scalar K] {σ : Type}

namespace PlanningProblem

/-- The variable of this name, at this position, may not be negative. -/
def IsCapacity (p : PlanningProblem K) (name : String) (id : ℕ) : Prop :=
  p.model.variableNamed? name = some id ∧ ∃ v, p.model.vars[id]? = some v ∧ 0.0 ≤ v.lowerBound

/-- One of the linking variables may not be negative, and its value clearly is. -/
def ShowsNegative (p : PlanningProblem K) (linking : List String) (values : SortedMap String K) :
    Prop :=
  ∃ name ∈ linking, ∃ id x, p.IsCapacity name id ∧ values.find? name = some x ∧ x < -1e-6

end PlanningProblem

/-- The candidate is not the solution `master` of the planning problem: it was read from an optimal
reply about the projection of the incumbent, in which a capacity is clearly negative. -/
def RunState.TakesNegative (s : RunState K) (backend : Backend (StateM σ) K) (linking : List String)
    (settings : SolverSettings K) (master point : Candidate K) (w w' : σ) : Prop :=
  let lower := Scalar.larger s.history.lowerBound master.lowerBound
  let centre := s.history.incumbent?.getD master
  0.0 < s.gamma ∧ ∃ model reply,
    s.planning.projection linking centre.values
      (PlanningProblem.level lower s.history.bestUpperBound s.gamma) = .ok model ∧
    Answers (backend.solve model settings) w (.ok reply) w' ∧ reply.status = .optimal ∧
    Candidate.ofPoint s.planning linking reply.primal lower = .ok point ∧
    (s.planning.negativeCapacity? linking reply).isSome = true

namespace PlanningProblem

variable {p p' : PlanningProblem K} {linking : List String} {c : Candidate K} {s : Solution K}
  {bound : K} {values : SortedMap String K} {integer : Bool}

theorem isSome_negativeCapacity?_iff : (p.negativeCapacity? linking s).isSome = true ↔
    ∃ name ∈ linking, ∃ id x, p.IsCapacity name id ∧ s.value? id = some x ∧ x < -1e-6 := by
  rw [negativeCapacity?, List.findSome?_isSome_iff]
  refine exists_congr fun name => and_congr_right fun _ => ?_
  constructor
  · intro h
    obtain ⟨found, hfound⟩ := Option.isSome_iff_exists.mp h
    obtain ⟨id, hid, hfound⟩ := Option.bind_eq_some_iff.mp hfound
    obtain ⟨v, hv, hfound⟩ := Option.bind_eq_some_iff.mp hfound
    obtain ⟨x, hx, hfound⟩ := Option.bind_eq_some_iff.mp hfound
    split_ifs at hfound with hnegative
    exact ⟨id, x, ⟨hid, v, hv, hnegative.1⟩, hx, hnegative.2⟩
  · rintro ⟨id, x, ⟨hid, v, hv, hlower⟩, hx, hnegative⟩
    simp [hid, hv, hx, hlower, hnegative]

/-- A candidate shows what the check finds at its point. -/
theorem showsNegative_iff_of_ofPoint (h : Candidate.ofPoint p linking s.primal bound = .ok c) :
    p.ShowsNegative linking c.values ↔ (p.negativeCapacity? linking s).isSome = true := by
  rw [isSome_negativeCapacity?_iff]
  constructor
  · rintro ⟨name, hname, id, x, hcapacity, hx, hnegative⟩
    obtain ⟨-, id', hid', hentry⟩ := find?_of_ofPoint h hx
    obtain rfl := Option.some.inj (hcapacity.1.symm.trans hid')
    exact ⟨name, hname, id, x, hcapacity, hentry, hnegative⟩
  · rintro ⟨name, hname, id, x, hcapacity, hentry, hnegative⟩
    obtain ⟨y, id', hy, hid', hentry'⟩ := exists_find?_of_ofPoint h hname
    obtain rfl := Option.some.inj (hcapacity.1.symm.trans hid')
    obtain rfl := Option.some.inj (hentry.symm.trans hentry')
    exact ⟨name, hname, id, x, hcapacity, hy, hnegative⟩

/-- Integrality and rows do not matter for what may be negative. -/
theorem SharesFrame.isCapacity_iff (h : p'.SharesFrame p integer) {name : String} {id : ℕ} :
    p'.IsCapacity name id ↔ p.IsCapacity name id := by
  unfold IsCapacity Model.variableNamed?
  rw [h.vars]
  cases integer with
  | true => rfl
  | false =>
    simp [Array.findIdx?_map, Function.comp_def, Variable.lowerBound]

theorem SharesFrame.showsNegative_iff (h : p'.SharesFrame p integer) :
    p'.ShowsNegative linking values ↔ p.ShowsNegative linking values := by
  simp only [ShowsNegative, h.isCapacity_iff]

/-- No solution of the planning problem has a clearly negative capacity. -/
theorem not_showsNegative_of_solve {backend : Backend (StateM σ) K} {settings : SolverSettings K}
    {w w' : σ} (h : Yields (p.solve backend linking settings) w c w') :
    ¬p.ShowsNegative linking c.values := by
  obtain ⟨settings', w₁, s, -, -, hguarded, hc⟩ := solve_replied h
  rw [showsNegative_iff_of_ofPoint hc, hguarded]
  exact Bool.false_ne_true

end PlanningProblem

namespace RunState

variable {backend : Backend (StateM σ) K} {clock : Clock (StateM σ) K} {c : Configuration K}
  {linking : List String} {settings : SolverSettings K} {s : RunState K} {w w₁ w₂ : σ}
  {master point : Candidate K}

/-- What is evaluated in one iteration shows a negative capacity just when it was read from such a
projection. -/
theorem showsNegative_candidate_iff
    (hsolve : Yields (s.planning.solve backend linking settings) w master w₁)
    (hcandidate : Answers (s.candidate backend linking settings master) w₁ point w₂) :
    s.planning.ShowsNegative linking point.values ↔
      s.TakesNegative backend linking settings master point w₁ w₂ := by
  constructor
  · intro hnegative
    obtain rfl | ⟨hgamma, hproject⟩ := candidate_cases hcandidate
    · exact absurd hnegative (PlanningProblem.not_showsNegative_of_solve hsolve)
    rcases PlanningProblem.project_cases hproject with
      hagain | ⟨model, reply, hmodel, hreplied, hoptimal, hpoint⟩
    · exact absurd hnegative (PlanningProblem.not_showsNegative_of_solve hagain)
    · exact ⟨hgamma, model, reply, hmodel, hreplied, hoptimal, hpoint,
        (PlanningProblem.showsNegative_iff_of_ofPoint hpoint).mp hnegative⟩
  · rintro ⟨-, model, reply, -, -, -, hpoint, hfound⟩
    exact (PlanningProblem.showsNegative_iff_of_ofPoint hpoint).mpr hfound

/-- In every iteration the planning problem has the capacities that the run started with. -/
theorem showsNegative_chosen_iff {problem : DecomposedProblem K} {start : RunState K}
    {passes : List (Pass K σ)} {before : RunState K × σ}
    (hstart : RunState.start c problem = .ok start)
    (htraces : Traces backend clock c problem.linking (start, w) passes before)
    (hsolve : Yields (before.1.planning.solve backend problem.linking settings) before.2 master w₁)
    (hcandidate : Answers (before.1.candidate backend problem.linking settings master) w₁ point w₂) :
    ¬problem.planning.ShowsNegative problem.linking master.values ∧
      (problem.planning.ShowsNegative problem.linking point.values ↔
        before.1.TakesNegative backend problem.linking settings master point w₁ w₂) := by
  have hframe := sharesFrame_traces (sharesFrame_start hstart) htraces
  rw [← hframe.showsNegative_iff, ← hframe.showsNegative_iff]
  exact ⟨PlanningProblem.not_showsNegative_of_solve hsolve,
    showsNegative_candidate_iff hsolve hcandidate⟩

end RunState

omit [Scalar K] in
/-- The best candidate of a result is that of one of its iterations. -/
theorem History.mem_of_best {h : History K} {best : Candidate K}
    (hbest : h.incumbent?.or (h.iterations.back?.map (·.candidate)) = some best) :
    best ∈ h.iterations.toList.map (·.candidate) := by
  have hmem {it : Iteration K} (hit : it ∈ h.iterations) :
      it.candidate ∈ h.iterations.toList.map (·.candidate) :=
    List.mem_map_of_mem (Array.mem_toList_iff.mpr hit)
  rcases Option.or_eq_some_iff.mp hbest with hincumbent | ⟨-, hlast⟩
  · obtain ⟨i, -, hi⟩ := Option.bind_eq_some_iff.mp hincumbent
    obtain ⟨it, hit, rfl⟩ := Option.map_eq_some_iff.mp hi
    exact hmem (Array.mem_of_getElem? hit)
  · obtain ⟨it, hit, rfl⟩ := Option.map_eq_some_iff.mp hlast
    exact hmem (Array.mem_of_back? hit)

/-- The candidates of a result were chosen in the passes of its run. -/
theorem RunState.exists_pass_of_candidate {backend : Backend (StateM σ) K}
    {clock : Clock (StateM σ) K} {c : Configuration K} {problem : DecomposedProblem K}
    {start : RunState K} {r : RunResult K} {w w' : σ} {candidate : Candidate K}
    (hstart : RunState.start c problem = .ok start)
    (hrun : Yields (problem.run backend clock c) w r w')
    (hcandidate : candidate ∈ r.best :: r.iterations.map (·.candidate)) :
    ∃ passes before, ∃ (after : RunState K × σ) (pass : Pass K σ), pass.point = candidate ∧
      Traces backend clock c problem.linking (start, w) passes before ∧
      pass.Leads backend clock c problem.linking before after := by
  obtain ⟨start', passes, last, hstart', htraces, -, -, -, hhistory, -, hbest⟩ := run_stops hrun
  obtain rfl := Except.ok.inj (hstart'.symm.trans hstart)
  have hmem : candidate ∈ r.iterations.map (·.candidate) := by
    rcases List.mem_cons.mp hcandidate with rfl | hmem
    · exact History.mem_of_best hbest
    · exact hmem
  rw [RunResult.iterations, hhistory,
    History.map_iterations_ofMeasured (f := (·.candidate)) (g := (·.candidate)) fun _ _ _ => rfl,
    List.map_map] at hmem
  obtain ⟨pass, hpass, rfl⟩ := List.mem_map.mp hmem
  obtain ⟨k, hk⟩ := List.mem_iff_getElem?.mp hpass
  obtain ⟨before, after, hbefore, hleads, -⟩ := htraces.exists_leads hk
  exact ⟨_, before, after, pass, rfl, hbefore, hleads⟩

/-- Whatever the backend replies: in every iteration the solution of the planning problem has no clearly
negative capacity, and what is evaluated has one just when it was read from a projection whose reply
has one, also in a run that fails later. So these are the only such candidates in a result, and there
are none without a level-set parameter. -/
theorem negative_candidates_are_projections [LinearScalar K] {backend : Backend (StateM σ) K}
    {clock : Clock (StateM σ) K} {c : Configuration K} {problem : DecomposedProblem K}
    {start : RunState K} {w : σ} (hstart : RunState.start c problem = .ok start) :
    (∀ passes before master w₁ point w₂,
      RunState.Traces backend clock c problem.linking (start, w) passes before →
      Yields (before.1.planning.solve backend problem.linking c.solver) before.2 master w₁ →
      Answers (before.1.candidate backend problem.linking c.solver master) w₁ point w₂ →
      ¬problem.planning.ShowsNegative problem.linking master.values ∧
        (problem.planning.ShowsNegative problem.linking point.values ↔
          before.1.TakesNegative backend problem.linking c.solver master point w₁ w₂)) ∧
    (∀ r w', Yields (problem.run backend clock c) w r w' →
      ∀ candidate ∈ r.best :: r.iterations.map (·.candidate),
        problem.planning.ShowsNegative problem.linking candidate.values →
        ∃ passes before master w₁ w₂,
          RunState.Traces backend clock c problem.linking (start, w) passes before ∧
          Yields (before.1.planning.solve backend problem.linking c.solver) before.2 master w₁ ∧
          before.1.TakesNegative backend problem.linking c.solver master candidate w₁ w₂) ∧
    (c.stabParam ≤ 0.0 → ∀ passes before master w₁ point w₂,
      RunState.Traces backend clock c problem.linking (start, w) passes before →
      ¬before.1.TakesNegative backend problem.linking c.solver master point w₁ w₂) := by
  refine ⟨fun _ _ _ _ _ _ => RunState.showsNegative_chosen_iff hstart, ?_, ?_⟩
  · intro r w' hrun candidate hcandidate hnegative
    obtain ⟨passes, before, after, pass, rfl, htraces, hleads⟩ :=
      RunState.exists_pass_of_candidate hstart hrun hcandidate
    obtain ⟨-, hiff⟩ :=
      RunState.showsNegative_chosen_iff hstart htraces hleads.solves hleads.chooses
    exact ⟨passes, before, pass.master, pass.solved, pass.chosen, htraces, hleads.solves,
      hiff.mp hnegative⟩
  · rintro hplain passes before master w₁ point w₂ htraces ⟨hgamma, -⟩
    refine RunState.not_lt_gamma_of_traces hplain ?_ htraces hgamma
    obtain ⟨-, -, evaluators, -, hstate⟩ := RunState.start_eq_ok.mp hstart
    rw [hstate]
    exact LinearScalar.not_lt_of_le hplain

open Exact (number)

/-- The pivoting solver, except that the reply about a projection has a capacity of minus one. -/
def astrayBackend : Backend (StateM Unit) Exact :=
  .replying (fun model settings =>
    if (model.constraintNamed? PlanningProblem.levelName).isSome then
      .ok ⟨.optimal, number 0, #[number (-1), number 0], #[], none, 1⟩
    else .ok (model.solve ConicProgram.solveByPivoting settings)) fun _ _ => .ok none

/-- Three iterations, of which the last one asks for a projection. -/
def onePlantAstray : Configuration Exact :=
  { Configuration.default with stabParam := number (1 / 2), maxIter := 3 }

def onePlantAstrayRun : ExceptT (RunError Exact) (StateM Unit) (RunResult Exact) :=
  onePlant.run astrayBackend (fun _ => pure (number 1)) onePlantAstray

theorem onePlantAstrayRun_plans :
    ∃ r, Yields onePlantAstrayRun () r () ∧
      (r.iterations.map (·.candidate)).map (·.values) =
        [0, 1, -1].map fun x => .ofList [("capacity", number x)] :=
  exists_yields_of_any (by decide +kernel)

/-- A plan of minus one is clearly negative. -/
theorem exists_negative_of_plans {r : RunResult Exact}
    (h : (r.iterations.map (·.candidate)).map (·.values) =
      [0, 1, -1].map fun x => .ofList [("capacity", number x)]) :
    ∃ candidate ∈ r.iterations.map (·.candidate),
      onePlant.planning.ShowsNegative onePlant.linking candidate.values := by
  have hshown : onePlant.planning.ShowsNegative onePlant.linking
      (.ofList [("capacity", number (-1))]) :=
    ⟨"capacity", List.mem_singleton_self _, 0, number (-1),
      ⟨by decide +kernel, _, rfl, by decide +kernel⟩, by decide +kernel, by decide +kernel⟩
  obtain ⟨candidate, hmem, hvalue⟩ : ∃ candidate ∈ r.iterations.map (·.candidate),
      candidate.values = .ofList [("capacity", number (-1))] := by
    rw [← List.mem_map, h]
    simp
  exact ⟨candidate, hmem, hvalue ▸ hshown⟩

/-- The plan of minus one was read from the projection. -/
theorem onePlant_negative_candidate_is_projection :
    ∃ r start passes before master, ∃ candidate ∈ r.iterations.map (·.candidate),
      RunState.start onePlantAstray onePlant = .ok start ∧ Yields onePlantAstrayRun () r () ∧
      onePlant.planning.ShowsNegative onePlant.linking candidate.values ∧
      RunState.Traces astrayBackend (fun _ => pure (number 1)) onePlantAstray onePlant.linking
        (start, ()) passes before ∧
      before.1.TakesNegative astrayBackend onePlant.linking onePlantAstray.solver master candidate
        () () := by
  obtain ⟨start, hstart, -⟩ := exists_ok_of_any (x := RunState.start onePlantAstray onePlant)
    (P := fun _ => True) (by decide +kernel)
  obtain ⟨r, hrun, hplans⟩ := onePlantAstrayRun_plans
  obtain ⟨candidate, hmem, hnegative⟩ := exists_negative_of_plans hplans
  obtain ⟨-, hresult, -⟩ := @negative_candidates_are_projections Exact _ Unit _ astrayBackend
    (fun _ => pure (number 1)) onePlantAstray onePlant start () hstart
  obtain ⟨passes, before, master, w₁, w₂, htraces, -, htakes⟩ :=
    hresult r () hrun candidate (List.mem_cons_of_mem _ hmem) hnegative
  exact ⟨r, start, passes, before, master, candidate, hmem, hstart, hrun, hnegative, htraces,
    htakes⟩

/-- The third plan of this run is one of minus one, and it is evaluated although a capacity may not be
negative. -/
theorem onePlant_evaluates_negative_capacity :
    ∃ r, Yields onePlantAstrayRun () r () ∧
      (r.iterations.map (·.candidate)).map (·.values) =
        [0, 1, -1].map (fun x => .ofList [("capacity", number x)]) ∧
      ∃ candidate ∈ r.iterations.map (·.candidate),
        onePlant.planning.ShowsNegative onePlant.linking candidate.values := by
  obtain ⟨r, hrun, hplans⟩ := onePlantAstrayRun_plans
  exact ⟨r, hrun, hplans, exists_negative_of_plans hplans⟩

end BendersPlanning

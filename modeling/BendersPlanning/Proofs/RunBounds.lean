import BendersPlanning.Conic.Pivoting
import BendersPlanning.Proofs.CheckedAnswers
import BendersPlanning.Proofs.RunInvariants

/-!
# Lower bounds of runs

The lower bound of an iteration is the largest optimum of the planning problem so far. Served points
stay feasible for it, so their objective is above the lower bounds of all iterations.
-/

namespace BendersPlanning

open Exact (number)

namespace History

variable {h : History Exact} {lower upper elapsed gamma : Exact} {candidate : Candidate Exact}

theorem mem_record {i : Iteration Exact}
    (hi : i ∈ (h.record lower upper elapsed gamma candidate).iterations) :
    i ∈ h.iterations ∨ i.lowerBound = Scalar.larger h.lowerBound lower := by
  rcases Array.mem_push.mp hi with hi | rfl
  · exact .inl hi
  · exact .inr rfl

/-- The lower bound of a history is one of its iterations or minus infinity. -/
theorem lowerBound_le {v : ℚ} (hall : ∀ i ∈ h.iterations, i.lowerBound ≤ number v) :
    h.lowerBound ≤ number v := by
  unfold lowerBound
  cases hlast : h.iterations.back? with
  | none => simp
  | some i => exact hall i (Array.mem_of_back? hlast)

end History

namespace RunState

variable {σ : Type} {backend : Backend (StateM σ) Exact} {clock : Clock (StateM σ) Exact}
  {c : Configuration Exact} {linking : List String} {start : RunState Exact} {w : σ}

theorem lowerBound_le_of_reaches (hb : backend.IsExact) (hs : start.IsSound)
    (hempty : start.history = .empty) {after : RunState Exact × σ}
    (h : Reaches backend clock c linking (start, w) after) {point : Array Exact}
    {operation : ℕ → Array Exact}
    (hserved : start.planning.IsServed start.evaluators point operation) :
    ∀ i ∈ after.1.history.iterations,
      i.lowerBound ≤ start.planning.model.objectiveValue point := by
  have hvalue := Model.objectiveValue_eq hs.planning hserved.planned.toIsFiniteVector
  induction h with
  | refl => simp [hempty, History.empty]
  | tail hreach hstep ih =>
    obtain ⟨hsound, hfollows⟩ := reaches_sound hb hs hreach
    obtain ⟨-, -, lower, upper, elapsed, gamma, candidate, hrecord, hlower, -⟩ :=
      step_sound hb hsound hstep
    intro i hi
    rw [hrecord] at hi
    rcases History.mem_record hi with hi | hnew
    · exact ih i hi
    · have hplanned := (hfollows.served point operation hserved).planned
      have hbelow := hlower point hplanned
      rw [hfollows.planning.objectiveValue] at hbelow
      rw [hnew]
      rw [hvalue] at ih hbelow ⊢
      exact Exact.larger_le (History.lowerBound_le ih) hbelow

end RunState

/-- Whatever an exact backend answers, all points that some operation serves stay feasible for the
planning problem with its cuts, and their objective is above the lower bounds of all iterations: in
every state that a run reaches, and in its result. -/
theorem runs_keep_served_points {σ : Type} {backend : Backend (StateM σ) Exact}
    {clock : Clock (StateM σ) Exact} {c : Configuration Exact} {problem : DecomposedProblem Exact}
    {start : RunState Exact} (hproblem : problem.WellFormed) (hb : backend.IsExact)
    (hstart : RunState.start c problem = .ok start) {point : Array Exact}
    {operation : ℕ → Array Exact}
    (hserved : start.planning.IsServed start.evaluators point operation) :
    (∀ w after, RunState.Reaches backend clock c problem.linking (start, w) after →
      after.1.planning.model.Feasible point ∧ ∀ i ∈ after.1.history.iterations,
        i.lowerBound ≤ after.1.planning.model.objectiveValue point) ∧
    ∀ w r w', Yields (problem.run backend clock c) w r w' →
      r.planning.model.Feasible point ∧ ∀ i ∈ r.history.iterations,
        i.lowerBound ≤ r.planning.model.objectiveValue point := by
  obtain ⟨hsound, hempty, -⟩ := RunState.start_sound hproblem hstart
  have hreached : ∀ w after, RunState.Reaches backend clock c problem.linking (start, w) after →
      after.1.planning.model.Feasible point ∧ ∀ i ∈ after.1.history.iterations,
        i.lowerBound ≤ after.1.planning.model.objectiveValue point := by
    intro w after hreach
    obtain ⟨-, hfollows⟩ := RunState.reaches_sound hb hsound hreach
    refine ⟨(hfollows.served point operation hserved).planned, ?_⟩
    rw [hfollows.planning.objectiveValue]
    exact RunState.lowerBound_le_of_reaches hb hsound hempty hreach hserved
  refine ⟨hreached, fun w r w' hrun => ?_⟩
  obtain ⟨start', before, s, hstart', hreach, hstep, hplanning, hhistory, -⟩ :=
    RunState.run_reaches hrun
  obtain rfl := Except.ok.inj (hstart.symm.trans hstart')
  have hlast := hreached w (s, w') (.tail hreach hstep)
  rw [hplanning, hhistory]
  exact hlast

/-- A plant of up to ten units at a cost of one each. It is to meet a demand of three, of which up
to two units can be imported at a cost of two each. -/
def onePlant : DecomposedProblem Exact where
  planning :=
    { model :=
        { vars := #[.continuous "capacity" (some (number 0)) (some (number 10)),
            .continuous "theta" (some (number 0)) none]
          constraints := #[]
          objective := ⟨#[(0, number 1), (1, number 1)], number 0⟩
          quadratic := #[]
          expressions := .empty }
      fixedCost := ⟨#[(0, number 1)], number 0⟩
      theta := #[1] }
  linking := ["capacity"]
  subproblems :=
    [{ index := 0
       model :=
        { vars := #[.continuous "capacity" none none,
            .continuous "import" (some (number 0)) (some (number 2))]
          constraints := #[
            ⟨"demand", ⟨#[(0, number 1), (1, number 1)], number 0⟩, .atLeast, number 3⟩]
          objective := ⟨#[(1, number 2)], number 0⟩
          quadratic := #[]
          expressions := .empty }
       linking := ["capacity"]
       slackPenalty := none }]

/-- The run that asks the pivoting solver and checks its answers. -/
def onePlantRun : ExceptT (RunError Exact) (StateM Unit) (RunResult Exact) :=
  onePlant.run (ConicSolver.checkedBackend ConicProgram.solveByPivoting)
    (fun _ => pure (number 1)) .default

theorem exists_ok_of_any {ε α : Type} {x : Except ε α} {P : α → Prop} [DecidablePred P]
    (h : (x.toOption.any fun a => P a) = true) : ∃ a, x = .ok a ∧ P a := by
  cases x with
  | error e => cases h
  | ok a => exact ⟨a, rfl, of_decide_eq_true h⟩

theorem exists_yields_of_any {ε α : Type} {x : ExceptT ε (StateM Unit) α} {P : α → Prop}
    [DecidablePred P] (h : ((x.run.run ()).1.toOption.any fun a => P a) = true) :
    ∃ a, Yields x () a () ∧ P a := by
  obtain ⟨a, ha, hP⟩ := exists_ok_of_any h
  exact ⟨a, Prod.ext ha rfl, hP⟩

/-- The first plan cannot be operated and the second one imports, so the run has cuts of both kinds.
The plan without imports is served and survives all of them. -/
theorem onePlant_keeps_served_plan :
    ∃ start r, RunState.start .default onePlant = .ok start ∧
      start.planning.IsServed start.evaluators #[number 3, number 0]
        (fun _ => #[number 3, number 0]) ∧
      Yields onePlantRun () r () ∧ r.planning.cutCount = 3 ∧
      r.planning.model.Feasible #[number 3, number 0] ∧
      ∀ i ∈ r.history.iterations,
        i.lowerBound ≤ r.planning.model.objectiveValue #[number 3, number 0] := by
  obtain ⟨start, hstart, hserved⟩ := exists_ok_of_any (x := RunState.start .default onePlant)
    (P := fun start => start.planning.IsServed start.evaluators #[number 3, number 0]
      fun _ => #[number 3, number 0]) (by decide +kernel)
  obtain ⟨r, hrun, hcount⟩ := exists_ok_of_any (x := (onePlantRun.run.run ()).1)
    (P := fun r => r.planning.cutCount = 3) (by decide +kernel)
  have hyields : Yields onePlantRun () r () := Prod.ext hrun rfl
  obtain ⟨-, hresult⟩ := runs_keep_served_points ⟨by decide +kernel, by decide +kernel⟩
    (checkedBackend_isExact _) hstart hserved
  obtain ⟨hfeasible, hbounds⟩ := hresult () r () hyields
  exact ⟨start, r, hstart, hserved, hyields, hcount, hfeasible, hbounds⟩

end BendersPlanning

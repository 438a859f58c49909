import BendersPlanning.Proofs.ExactBackends
import BendersPlanning.Proofs.Histories
import BendersPlanning.Run.Loop

/-!
# Traces of runs

A pass is all that happens in one iteration: the solution of the planning problem, the candidate
that was evaluated, its outcomes, the cuts and the clock reading, with the worlds between them. A
trace lists the passes of a run in order. The history of a run is what its passes measured.
-/

namespace BendersPlanning

structure Pass (K σ : Type) where
  /-- The solution of the planning problem. -/
  master : Candidate K
  /-- The candidate that is evaluated. -/
  point : Candidate K
  outcomes : SortedMap ℕ (OperationOutcome K)
  cuts : List (Cut K)
  elapsed : K
  /-- The level-set parameter in use. -/
  gamma : K
  /-- The worlds after the planning problem, the choice of the candidate and the subproblems. -/
  solved : σ
  chosen : σ
  evaluated : σ

variable {K : Type} [Scalar K] {σ : Type}

def Pass.measurement (p : Pass K σ) : Measurement K :=
  ⟨p.master.lowerBound, p.point.upperBound p.outcomes, p.elapsed, p.gamma, p.point⟩

/-- A pass leads from one state and world to the next. -/
structure Pass.Leads (backend : Backend (StateM σ) K) (clock : Clock (StateM σ) K)
    (c : Configuration K) (linking : List String) (p : Pass K σ)
    (before after : RunState K × σ) : Prop where
  solves : Yields (before.1.planning.solve backend linking c.solver) before.2 p.master p.solved
  chooses : Answers (before.1.candidate backend linking c.solver p.master) p.solved p.point p.chosen
  evaluates : Answers
    (Evaluator.evaluateAll backend p.point.values c.solver before.1.evaluators .empty) p.chosen
    (after.1.evaluators, .ok p.outcomes) p.evaluated
  cuts : before.1.planning.cuts (before.1.history.count + 1) p.point.values p.outcomes = .ok p.cuts
  adds : before.1.planning.addCuts p.cuts = (after.1.planning, .ok ())
  reads : Answers (clock (before.1.history.count + 1)) p.evaluated p.elapsed after.2
  records : after.1.history = before.1.history.record p.master.lowerBound
    (p.point.upperBound p.outcomes) p.elapsed p.gamma p.point
  stabilizes : p.gamma = before.1.gamma
  adapts : after.1.gamma = if c.stabDynamic then
      nextGamma p.gamma c.stabParam (before.1.history.improves (p.point.upperBound p.outcomes))
    else p.gamma

namespace RunState

variable {backend : Backend (StateM σ) K} {clock : Clock (StateM σ) K} {c : Configuration K}
  {linking : List String} {before after start : RunState K × σ} {pass : Pass K σ}
  {passes : List (Pass K σ)} {s s' : RunState K} {w w' : σ}

/-- The passes that lead from a state to another one are the ways in which an iteration does. -/
theorem yields_step_iff : Yields (s.step backend clock c linking) w s' w' ↔
    ∃ pass : Pass K σ, pass.Leads backend clock c linking (s, w) (s', w') := by
  unfold step stepOn WorkerPool.inTurn
  simp only [yields_bind, yields_lift, yields_mk_pure]
  constructor
  · rintro ⟨master, w₁, hmaster, point, w₂, hpoint, ⟨evaluators, result⟩, w₃, hevaluated,
      outcomes, w₄, ⟨rfl, rfl⟩, cuts, w₅, ⟨hcuts, rfl⟩, h⟩
    cases hadded : s.planning.addCuts cuts with
    | mk planning result =>
      cases result with
      | error e =>
        simp only [hadded, yields_bind] at h
        obtain ⟨_, _, hthrow, -⟩ := h
        exact (not_yields_throw hthrow).elim
      | ok u =>
        simp only [hadded, yields_bind, yields_lift, yields_pure] at h
        obtain ⟨_, _, ⟨rfl, rfl⟩, elapsed, w₆, helapsed, hafter, rfl⟩ := h
        exact ⟨⟨master, point, outcomes, cuts, elapsed, s.gamma, w₁, w₂, _⟩,
          { solves := hmaster, chooses := hpoint, evaluates := hafter ▸ hevaluated, cuts := hcuts
            adds := hafter ▸ hadded, reads := helapsed, records := hafter ▸ rfl
            stabilizes := rfl, adapts := hafter ▸ rfl }⟩
  · rintro ⟨p, h⟩
    refine ⟨_, _, h.solves, _, _, h.chooses, _, _, h.evaluates, _, _, ⟨rfl, rfl⟩, _, _,
      ⟨h.cuts, rfl⟩, ?_⟩
    have hadds : s.planning.addCuts p.cuts = _ := h.adds
    simp only [hadds, yields_bind, yields_lift, yields_pure]
    refine ⟨_, _, ⟨rfl, rfl⟩, _, _, h.reads, ?_, rfl⟩
    obtain ⟨planning, evaluators, history, gamma⟩ := s'
    rw [RunState.mk.injEq]
    exact ⟨rfl, rfl, h.stabilizes ▸ h.records.symm, h.stabilizes ▸ h.adapts.symm⟩

/-- An iteration fails in the planning problem, in a subproblem, or with cuts that are not made or not
taken. -/
theorem fails_step_cases {e : RunError K} (h : Fails (s.step backend clock c linking) w e w') :
    Fails (s.planning.solve backend linking c.solver) w e w' ∨
      ∃ master w₁ point w₂ evaluators result w₃,
        Yields (s.planning.solve backend linking c.solver) w master w₁ ∧
        Answers (s.candidate backend linking c.solver master) w₁ point w₂ ∧
        Answers (Evaluator.evaluateAll backend point.values c.solver s.evaluators .empty) w₂
          (evaluators, result) w₃ ∧
        (result = .error e ∧ w₃ = w' ∨ ∃ outcomes, result = .ok outcomes ∧
          ∀ cuts planning, s.planning.cuts (s.history.count + 1) point.values outcomes = .ok cuts →
            s.planning.addCuts cuts ≠ (planning, .ok ())) := by
  unfold step stepOn WorkerPool.inTurn at h
  rcases fails_bind.mp h with hsolve | ⟨master, w₁, hsolve, h⟩
  · exact .inl hsolve
  obtain ⟨point, w₂, hpoint, h⟩ := (fails_bind.mp h).resolve_left not_fails_lift
  obtain ⟨⟨evaluators, result⟩, w₃, hevaluated, h⟩ := (fails_bind.mp h).resolve_left not_fails_lift
  refine .inr ⟨master, w₁, point, w₂, evaluators, result, w₃, hsolve, yields_lift.mp hpoint,
    yields_lift.mp hevaluated, ?_⟩
  rcases fails_bind.mp h with houtcomes | ⟨outcomes, w₄, houtcomes, h⟩
  · exact .inl (fails_mk_pure.mp houtcomes)
  refine .inr ⟨outcomes, (yields_mk_pure.mp houtcomes).1, fun cuts planning hcuts hadds => ?_⟩
  -- With the cuts taken nothing is left that can fail.
  rcases fails_bind.mp h with hfailed | ⟨cuts', w₅, hcuts', h⟩
  · cases hcuts.symm.trans (fails_mk_pure.mp hfailed).1
  · obtain rfl : cuts' = cuts := Except.ok.inj ((yields_mk_pure.mp hcuts').1.symm.trans hcuts)
    simp only [hadds] at h
    obtain ⟨_, _, _, h⟩ := (fails_bind.mp h).resolve_left not_fails_pure
    obtain ⟨_, _, _, h⟩ := (fails_bind.mp h).resolve_left not_fails_lift
    exact not_fails_pure h

theorem candidate_eq_pure {settings : SolverSettings K} {master : Candidate K}
    (h : ¬0.0 < s.gamma) : s.candidate backend linking settings master = pure master := by
  unfold candidate
  rw [if_neg (by simp [h])]

/-- The candidate to evaluate is the solution of the planning problem or the projection of the incumbent.
-/
theorem candidate_cases {settings : SolverSettings K} {master point : Candidate K}
    (h : Answers (s.candidate backend linking settings master) w point w') :
    point = master ∨ 0.0 < s.gamma ∧
      Yields (s.planning.project backend linking (s.history.incumbent?.getD master)
        (Scalar.larger s.history.lowerBound master.lowerBound) s.history.bestUpperBound s.gamma
        settings) w point w' := by
  unfold candidate at h
  simp only at h
  split_ifs at h with hprojects
  · obtain ⟨result, w₁, hproject, h⟩ := answers_bind.mp h
    cases result with
    | ok projected =>
      obtain ⟨rfl, rfl⟩ := answers_pure.mp h
      rw [Bool.and_eq_true, decide_eq_true_eq] at hprojects
      exact .inr ⟨hprojects.1, hproject⟩
    | error e => exact .inl (answers_pure.mp h).1.symm
  · exact .inl (answers_pure.mp h).1.symm

/-- The state before the first iteration. -/
theorem start_eq_ok {p : DecomposedProblem K} : RunState.start c p = .ok s ↔
    c.validate = .ok () ∧ p.validate = .ok () ∧ ∃ evaluators,
      (p.subproblems.mapM fun s => Evaluator.ofSubproblem s c.automaticSlackPenalty) =
        .ok evaluators ∧
      s = ⟨{ p.planning with model := if c.integerInvestment then p.planning.model
              else p.planning.model.relaxIntegrality },
        evaluators.mergeSort fun a b => a.index ≤ b.index, .empty, c.stabParam⟩ := by
  constructor
  · intro h
    obtain ⟨⟨⟩, hconfiguration, h⟩ := bind_eq_ok.mp h
    obtain ⟨⟨⟩, hproblem, h⟩ := bind_eq_ok.mp h
    obtain ⟨evaluators, hevaluators, h⟩ := bind_eq_ok.mp h
    exact ⟨hconfiguration, hproblem, evaluators, hevaluators, (Except.ok.inj h).symm⟩
  · rintro ⟨hconfiguration, hproblem, evaluators, hevaluators, rfl⟩
    unfold RunState.start
    rw [hconfiguration, hproblem, hevaluators]
    rfl

theorem iterate_eq (s : RunState K) (more : ℕ) : s.iterate backend clock c linking more =
    s.step backend clock c linking >>= fun s =>
      if s.history.gap ≤ c.convTol then pure (s, .converged)
      else match more with
        | 0 => pure (s, .maxIterations)
        | more + 1 =>
          if s.isTimedOut c then pure (s, .maxCpuTime)
          else s.iterate backend clock c linking more := by
  cases more <;> rfl

/-- After an iteration a run ends there, for the first criterion that holds, or goes on. -/
theorem iterate_cases {more : ℕ} {termination : Termination}
    (h : Yields (s.iterate backend clock c linking more) w (s', termination) w') :
    ∃ s₁ w₁, Yields (s.step backend clock c linking) w s₁ w₁ ∧
      ((s₁, w₁) = (s', w') ∧
          (s₁.history.gap ≤ c.convTol ∧ termination = .converged ∨
            ¬s₁.history.gap ≤ c.convTol ∧ more = 0 ∧ termination = .maxIterations ∨
            ¬s₁.history.gap ≤ c.convTol ∧ more ≠ 0 ∧ s₁.isTimedOut c = true ∧
              termination = .maxCpuTime) ∨
        ∃ rest, more = rest + 1 ∧ ¬s₁.history.gap ≤ c.convTol ∧ ¬s₁.isTimedOut c = true ∧
          Yields (s₁.iterate backend clock c linking rest) w₁ (s', termination) w') := by
  rw [iterate_eq] at h
  obtain ⟨s₁, w₁, hstep, h⟩ := yields_bind.mp h
  refine ⟨s₁, w₁, hstep, ?_⟩
  by_cases hgap : s₁.history.gap ≤ c.convTol
  · rw [if_pos hgap] at h
    obtain ⟨⟨⟩, rfl⟩ := yields_pure.mp h
    exact .inl ⟨rfl, .inl ⟨hgap, rfl⟩⟩
  · rw [if_neg hgap] at h
    cases more with
    | zero =>
      obtain ⟨⟨⟩, rfl⟩ := yields_pure.mp h
      exact .inl ⟨rfl, .inr (.inl ⟨hgap, rfl, rfl⟩)⟩
    | succ rest =>
      by_cases htime : s₁.isTimedOut c = true
      · simp only [htime, if_true] at h
        obtain ⟨⟨⟩, rfl⟩ := yields_pure.mp h
        exact .inl ⟨rfl, .inr (.inr ⟨hgap, rest.succ_ne_zero, htime, rfl⟩)⟩
      · simp only [htime] at h
        exact .inr ⟨rest, rfl, hgap, htime, h⟩

/-- Iterating fails in an iteration, the first one or a later one. -/
theorem fails_iterate_cases {more : ℕ} {e : RunError K}
    (h : Fails (s.iterate backend clock c linking more) w e w') :
    Fails (s.step backend clock c linking) w e w' ∨
      ∃ s₁ w₁ rest, more = rest + 1 ∧ Yields (s.step backend clock c linking) w s₁ w₁ ∧
        Fails (s₁.iterate backend clock c linking rest) w₁ e w' := by
  rw [iterate_eq] at h
  rcases fails_bind.mp h with hstep | ⟨s₁, w₁, hstep, h⟩
  · exact .inl hstep
  by_cases hgap : s₁.history.gap ≤ c.convTol
  · rw [if_pos hgap] at h
    exact (not_fails_pure h).elim
  · rw [if_neg hgap] at h
    cases more with
    | zero => exact (not_fails_pure h).elim
    | succ rest =>
      by_cases htime : s₁.isTimedOut c = true
      · simp only [htime, if_true] at h
        exact (not_fails_pure h).elim
      · simp only [htime] at h
        exact .inr ⟨s₁, w₁, rest, rfl, hstep, h⟩

/-- A run returns the state in which iterating ended, with the incumbent or the last candidate as the
best. -/
theorem run_cases {p : DecomposedProblem K} {r : RunResult K}
    (h : Yields (p.run backend clock c) w r w') :
    ∃ start s, RunState.start c p = .ok start ∧
      Yields (start.iterate backend clock c p.linking (c.maxIter - 1)) w (s, r.termination) w' ∧
      r.planning = s.planning ∧ r.history = s.history ∧
      s.history.incumbent?.or (s.history.iterations.back?.map (·.candidate)) = some r.best := by
  obtain ⟨start, w₁, hlifted, h⟩ := yields_bind.mp h
  obtain ⟨hstart, rfl⟩ := yields_mk_pure.mp hlifted
  obtain ⟨⟨s, termination⟩, w₂, hiterate, h⟩ := yields_bind.mp h
  simp only at h
  cases hbest : s.history.incumbent?.or (s.history.iterations.back?.map (·.candidate)) with
  | none =>
    rw [hbest] at h
    exact (not_yields_throw h).elim
  | some best =>
    rw [hbest] at h
    obtain ⟨rfl, rfl⟩ := yields_pure.mp h
    exact ⟨start, s, hstart, hiterate, rfl, rfl, hbest⟩

/-- A run fails before the first iteration, in an iteration, or for want of a best candidate. -/
theorem fails_run_cases {p : DecomposedProblem K} {e : RunError K}
    (h : Fails (p.run backend clock c) w e w') :
    RunState.start c p = .error e ∨ ∃ start, RunState.start c p = .ok start ∧
      (Fails (start.iterate backend clock c p.linking (c.maxIter - 1)) w e w' ∨
        ∃ s termination w₁,
          Yields (start.iterate backend clock c p.linking (c.maxIter - 1)) w (s, termination) w₁ ∧
          s.history.incumbent?.or (s.history.iterations.back?.map (·.candidate)) = none) := by
  rcases fails_bind.mp h with hfailed | ⟨start, w₁, hlifted, h⟩
  · exact .inl (fails_mk_pure.mp hfailed).1
  obtain ⟨hstart, rfl⟩ := yields_mk_pure.mp hlifted
  refine .inr ⟨start, hstart, ?_⟩
  rcases fails_bind.mp h with hiterate | ⟨⟨s, termination⟩, w₂, hiterate, h⟩
  · exact .inl hiterate
  refine .inr ⟨s, termination, w₂, hiterate, ?_⟩
  simp only at h
  cases hbest : s.history.incumbent?.or (s.history.iterations.back?.map (·.candidate)) with
  | none => rfl
  | some best =>
    rw [hbest] at h
    exact (not_fails_pure h).elim

/-- The passes of some iterations in a row. -/
inductive Traces (backend : Backend (StateM σ) K) (clock : Clock (StateM σ) K)
    (c : Configuration K) (linking : List String) (start : RunState K × σ) :
    List (Pass K σ) → RunState K × σ → Prop where
  | start : Traces backend clock c linking start [] start
  | pass {passes : List (Pass K σ)} {pass : Pass K σ} {before after : RunState K × σ} :
    Traces backend clock c linking start passes before →
      pass.Leads backend clock c linking before after →
      Traces backend clock c linking start (passes ++ [pass]) after

/-- A history is what the passes measured. -/
theorem Traces.history (h : Traces backend clock c linking start passes after)
    (hempty : start.1.history = .empty) :
    after.1.history = .ofMeasured (passes.map (·.measurement)) := by
  induction h with
  | start => exact hempty
  | pass _ hleads ih =>
    rw [hleads.records, ih, List.map_append, List.map_singleton, History.ofMeasured_concat]
    rfl

end RunState

end BendersPlanning

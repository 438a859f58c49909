import BendersPlanning.Conic.Backend
import BendersPlanning.Proofs.StoppingRules

/-!
# Failed projections

A projection that fails leaves nothing behind but its solve: the candidate is the solution of the
planning problem, as in a run without projections. When the replies of the backend only depend on what
it is asked, such a run and the plain one go through the same iterations (`Mirrors`), though the
parameter that is recorded and adapted is another one.
-/

namespace BendersPlanning

open Scalar (isFinite)

variable {K : Type} [Scalar K] {σ : Type}

section Meaning

/-- A backend whose replies depend on the model and the settings only. -/
def Backend.replying (reply : Model K → SolverSettings K → Except (ModelError K) (Solution K))
    (explain : Model K → SolverSettings K → Except (ModelError K) (Option (List String))) :
    Backend (StateM σ) K where
  solve model settings := return reply model settings
  conflicts model settings := return explain model settings

/-- The configuration of a run without projections. -/
def Configuration.plain (c : Configuration K) : Configuration K :=
  { c with stabParam := 0.0, stabDynamic := false }

def Iteration.plain (i : Iteration K) : Iteration K := { i with gamma := 0.0 }

/-- A history as it is when no parameter but zero was in use. -/
def History.plain (h : History K) : History K :=
  { h with iterations := h.iterations.map (·.plain) }

def RunState.plain (s : RunState K) : RunState K :=
  { s with history := s.history.plain, gamma := 0.0 }

def RunResult.plain (r : RunResult K) : RunResult K := { r with history := r.history.plain }

/-- What comes of the projection in the next iteration, if there is one: the planning problem has a
solution, the parameter is positive and some upper bound is finite. -/
def RunState.Attempts (backend : Backend (StateM σ) K) (linking : List String)
    (settings : SolverSettings K) (s : RunState K) (w : σ)
    (projected : Except (RunError K) (Candidate K)) : Prop :=
  ∃ master w₁ w₂, Yields (s.planning.solve backend linking settings) w master w₁ ∧
    0.0 < s.gamma ∧ isFinite s.history.bestUpperBound = true ∧
    Answers (s.planning.project backend linking (s.history.incumbent?.getD master)
      (Scalar.larger s.history.lowerBound master.lowerBound) s.history.bestUpperBound s.gamma
      settings).run w₁ projected w₂

namespace DecomposedProblem

/-- What comes of some projection of a run, in an iteration after passes that did not end it. -/
def Attempts (backend : Backend (StateM σ) K) (clock : Clock (StateM σ) K) (c : Configuration K)
    (p : DecomposedProblem K) (w : σ) (projected : Except (RunError K) (Candidate K)) : Prop :=
  ∃ start passes s w₁, RunState.start c p = .ok start ∧
    RunState.Traces backend clock c p.linking (start, w) passes (s, w₁) ∧
    RunsThrough c (passes.map (·.measurement)) ∧ s.Attempts backend p.linking c.solver w₁ projected

/-- A run ends like the one without projections: with the same error, or with a result that is the
same but for the parameters in its history. -/
def EndsPlainly (backend : Backend (StateM σ) K) (clock : Clock (StateM σ) K) (c : Configuration K)
    (p : DecomposedProblem K) (w : σ) : Prop :=
  ∀ w', (∀ e, Fails (p.run backend clock c) w e w' → Fails (p.run backend clock c.plain) w e w') ∧
    ∀ r, Yields (p.run backend clock c) w r w' →
      Yields (p.run backend clock c.plain) w r.plain w' ∧ r.plain.history.gap = r.history.gap

end DecomposedProblem

end Meaning

section Mirroring
variable {ε α β α' β' : Type} {w : σ}

/-- From the world `w` on, `y` answers what `x` does, seen through `f`, and leaves the same world. -/
def Mirrors (f : α → β) (x : ExceptT ε (StateM σ) α) (y : ExceptT ε (StateM σ) β) (w : σ) : Prop :=
  ∀ result w', Answers x.run w result w' → Answers y.run w (result.map f) w'

theorem Mirrors.refl {x : ExceptT ε (StateM σ) α} : Mirrors id x x w := by
  intro result w' h
  rwa [show result.map id = result by cases result <;> rfl]

theorem Mirrors.mk_pure {f : α → β} {r : Except ε α} :
    Mirrors f (ExceptT.mk (Pure.pure r) : ExceptT ε (StateM σ) α) (ExceptT.mk (Pure.pure (r.map f)))
      w := by
  intro result w' h
  obtain ⟨rfl, rfl⟩ := answers_pure.mp h
  exact answers_pure.mpr ⟨rfl, rfl⟩

theorem Mirrors.pure {f : α → β} {a : α} :
    Mirrors f (pure a : ExceptT ε (StateM σ) α) (pure (f a)) w :=
  Mirrors.mk_pure (r := .ok a)

theorem Mirrors.throw {f : α → β} {e : ε} :
    Mirrors f (throw e : ExceptT ε (StateM σ) α) (throw e) w :=
  Mirrors.mk_pure (r := .error e)

/-- Sequences mirror each other when their parts do. -/
theorem Mirrors.bind {f : α → α'} {g : β → β'} {x : ExceptT ε (StateM σ) α}
    {y : ExceptT ε (StateM σ) α'} {k : α → ExceptT ε (StateM σ) β}
    {l : α' → ExceptT ε (StateM σ) β'} (hxy : Mirrors f x y w)
    (hkl : ∀ a w₁, Yields x w a w₁ → Mirrors g (k a) (l (f a)) w₁) :
    Mirrors g (x >>= k) (y >>= l) w := by
  intro result w' h
  rw [ExceptT.run_bind, answers_bind] at h ⊢
  obtain ⟨first, w₁, hx, hrest⟩ := h
  refine ⟨first.map f, w₁, hxy first w₁ hx, ?_⟩
  cases first with
  | error e =>
    obtain ⟨rfl, rfl⟩ := answers_pure.mp hrest
    exact answers_pure.mpr ⟨rfl, rfl⟩
  | ok a => exact hkl a w₁ hx result w' hrest

theorem Mirrors.same_bind {g : β → β'} {x : ExceptT ε (StateM σ) α}
    {k : α → ExceptT ε (StateM σ) β} {l : α → ExceptT ε (StateM σ) β'}
    (hkl : ∀ a w₁, Yields x w a w₁ → Mirrors g (k a) (l a) w₁) :
    Mirrors g (x >>= k) (x >>= l) w :=
  Mirrors.bind .refl hkl

/-- Different first parts do no harm where both yield the same. -/
theorem Mirrors.bind_of_yields {g : β → β'} {x y : ExceptT ε (StateM σ) α}
    {k : α → ExceptT ε (StateM σ) β} {l : α → ExceptT ε (StateM σ) β'} {a : α} {w₁ : σ}
    (hx : Yields x w a w₁) (hy : Yields y w a w₁) (hkl : Mirrors g (k a) (l a) w₁) :
    Mirrors g (x >>= k) (y >>= l) w := by
  refine Mirrors.bind (f := id) (fun result w' h => ?_) fun a' w' h => ?_
  · obtain ⟨rfl, rfl⟩ := Prod.mk.inj (hx.symm.trans h)
    exact hy
  · obtain ⟨ha, rfl⟩ := Prod.mk.inj (hx.symm.trans h)
    exact Except.ok.inj ha ▸ hkl

end Mirroring

section Stillness
variable {ε α β : Type}

/-- A computation leaves every world as it is. -/
def IsStill (x : StateM σ α) : Prop := ∀ w a w', Answers x w a w' → w' = w

theorem isStill_pure {a : α} : IsStill (pure a : StateM σ α) :=
  fun _ _ _ h => (answers_pure.mp h).2.symm

theorem isStill_run_bind {x : ExceptT ε (StateM σ) α} {f : α → ExceptT ε (StateM σ) β}
    (hx : IsStill x.run) (hf : ∀ a, IsStill (f a).run) : IsStill (x >>= f).run := by
  intro w result w' h
  rw [ExceptT.run_bind, answers_bind] at h
  obtain ⟨first, w₁, hfirst, hrest⟩ := h
  obtain rfl := hx _ _ _ hfirst
  cases first with
  | error e => exact (answers_pure.mp hrest).2.symm
  | ok a => exact hf a _ _ _ hrest

theorem isStill_run_ite_bind {condition : Prop} [Decidable condition]
    {x y : ExceptT ε (StateM σ) α} {f : α → ExceptT ε (StateM σ) β} (hx : IsStill x.run)
    (hy : IsStill y.run) (hf : ∀ a, IsStill (f a).run) :
    IsStill (if condition then x >>= f else y >>= f).run := by
  split_ifs
  · exact isStill_run_bind hx hf
  · exact isStill_run_bind hy hf

theorem isStill_run_lift {x : StateM σ α} (hx : IsStill x) :
    IsStill (ExceptT.lift x : ExceptT ε (StateM σ) α).run := by
  intro w result w' h
  rw [ExceptT.run_lift, map_eq_pure_bind, answers_bind] at h
  obtain ⟨a, w₁, ha, hrest⟩ := h
  obtain rfl := hx _ _ _ ha
  exact (answers_pure.mp hrest).2.symm

variable {reply : Model K → SolverSettings K → Except (ModelError K) (Solution K)}
  {explain : Model K → SolverSettings K → Except (ModelError K) (Option (List String))}
  {p : PlanningProblem K} {linking : List String} {settings : SolverSettings K}

omit [Scalar K] in
theorem isStill_attempt {model : Model K} :
    IsStill ((Backend.replying reply explain : Backend (StateM σ) K).attempt model settings).run :=
  isStill_pure

theorem isStill_solve :
    IsStill (p.solve (.replying reply explain : Backend (StateM σ) K) linking settings).run := by
  unfold PlanningProblem.solve
  refine isStill_run_bind isStill_attempt fun first => ?_
  refine isStill_run_ite_bind isStill_attempt isStill_pure fun s => ?_
  beta_reduce
  split
  · split
    · exact isStill_pure
    · exact isStill_pure
  · exact isStill_pure
  · exact isStill_run_bind (isStill_run_lift isStill_pure) fun conflicts => isStill_pure

theorem isStill_project {centre : Candidate K} {lower upper gamma : K} :
    IsStill (p.project (.replying reply explain : Backend (StateM σ) K) linking centre lower upper
      gamma settings).run := by
  unfold PlanningProblem.project
  split_ifs
  · exact isStill_pure
  · exact isStill_solve
  · exact isStill_pure
  · refine isStill_run_bind isStill_pure fun model => ?_
    refine isStill_run_bind isStill_attempt fun s => ?_
    split_ifs
    · exact isStill_pure
    · exact isStill_pure

end Stillness

namespace History

variable {h : History K}

theorem plain_empty : (empty : History K).plain = .empty := by simp [plain, empty]

theorem back?_plain : h.plain.iterations.back? = h.iterations.back?.map (·.plain) := by
  simp [plain]

@[simp] theorem count_plain : h.plain.count = h.count := by simp [plain, count]

@[simp] theorem lowerBound_plain : h.plain.lowerBound = h.lowerBound := by
  rw [lowerBound, back?_plain, Option.map_map]
  rfl

@[simp] theorem bestUpperBound_plain : h.plain.bestUpperBound = h.bestUpperBound := by
  rw [bestUpperBound, back?_plain, Option.map_map]
  rfl

@[simp] theorem incumbent?_plain : h.plain.incumbent? = h.incumbent? := by
  simp [incumbent?, plain, Function.comp_def, Iteration.plain]

@[simp] theorem gap_plain : h.plain.gap = h.gap := by
  simp [gap]

theorem plain_record (lower upper elapsed gamma : K) (candidate : Candidate K) :
    (h.record lower upper elapsed gamma candidate).plain =
      h.plain.record lower upper elapsed 0.0 candidate := by
  have himproves : h.plain.improves upper = h.improves upper := by simp [improves]
  simp [record, himproves]
  simp [plain, Iteration.plain]

end History

namespace RunState

variable {backend : Backend (StateM σ) K} {clock : Clock (StateM σ) K} {c : Configuration K}
  {linking : List String} {s : RunState K} {w : σ}

theorem isTimedOut_plain : s.plain.isTimedOut c.plain = s.isTimedOut c := by
  rw [isTimedOut, plain, History.back?_plain, Option.any_map]
  rfl

/-- The next iteration evaluates the solution of the planning problem. -/
def TakesMaster (backend : Backend (StateM σ) K) (linking : List String)
    (settings : SolverSettings K) (s : RunState K) (w : σ) : Prop :=
  ∀ master w₁, Yields (s.planning.solve backend linking settings) w master w₁ →
    Answers (s.candidate backend linking settings master) w₁ master w₁

theorem takesMaster_of_gamma (h : ¬0.0 < s.gamma) {settings : SolverSettings K} :
    s.TakesMaster backend linking settings w := by
  intro master w₁ _
  rw [candidate_eq_pure h]
  exact answers_pure.mpr ⟨rfl, rfl⟩

theorem takesMaster_of_replying
    {reply : Model K → SolverSettings K → Except (ModelError K) (Solution K)}
    {explain : Model K → SolverSettings K → Except (ModelError K) (Option (List String))}
    {settings : SolverSettings K}
    (h : ∀ projected, ¬s.Attempts (.replying reply explain) linking settings w (.ok projected)) :
    s.TakesMaster (.replying reply explain) linking settings w := by
  intro master w₁ hmaster
  unfold candidate
  dsimp only
  split_ifs with hprojects
  · rw [Bool.and_eq_true, decide_eq_true_iff] at hprojects
    obtain ⟨⟨projected, w₂⟩, hproject⟩ : ∃ answer, ((s.planning.project (.replying reply explain)
        linking (s.history.incumbent?.getD master)
        (Scalar.larger s.history.lowerBound master.lowerBound) s.history.bestUpperBound s.gamma
        settings).run.run w₁).run = answer := ⟨_, rfl⟩
    obtain rfl := isStill_project _ _ _ hproject
    refine answers_bind.mpr ⟨projected, w₂, hproject, ?_⟩
    cases projected with
    | error e => exact answers_pure.mpr ⟨rfl, rfl⟩
    | ok projected =>
      exact (h projected ⟨master, w₂, w₂, hmaster, hprojects.1, hprojects.2, hproject⟩).elim
  · exact answers_pure.mpr ⟨rfl, rfl⟩

variable [OrderedScalar K]

/-- An iteration that evaluates the solution of the planning problem is one of a plain run. -/
theorem step_mirrors (h : s.TakesMaster backend linking c.solver w) :
    Mirrors RunState.plain (s.step backend clock c linking)
      (s.plain.step backend clock c.plain linking) w := by
  unfold step stepOn WorkerPool.inTurn
  rw [show s.plain.history.count = s.history.count from History.count_plain]
  refine Mirrors.same_bind fun master w₁ hmaster => ?_
  have hplain : Answers (s.plain.candidate backend linking c.solver master) w₁ master w₁ :=
    takesMaster_of_gamma (lt_irrefl_scalar 0.0) master w₁ hmaster
  refine Mirrors.bind_of_yields (yields_lift.mpr (h master w₁ hmaster)) (yields_lift.mpr hplain) ?_
  -- What follows reads the candidate and the parts that both states share.
  refine Mirrors.same_bind fun answer w₂ _ => ?_
  refine Mirrors.same_bind fun outcomes w₃ _ => ?_
  refine Mirrors.same_bind fun cuts w₄ _ => ?_
  rw [show s.plain.planning = s.planning from rfl]
  obtain ⟨planning, result⟩ := s.planning.addCuts cuts
  cases result with
  | error e => exact Mirrors.same_bind fun _ _ hthrow => (not_yields_throw hthrow).elim
  | ok u =>
    refine Mirrors.same_bind fun planning w₅ _ => ?_
    refine Mirrors.same_bind fun elapsed w₆ _ => ?_
    change Mirrors plain (pure _) (pure ⟨planning, answer.1, s.history.plain.record
      master.lowerBound (master.upperBound outcomes) elapsed 0.0 master, 0.0⟩) w₆
    rw [← History.plain_record master.lowerBound _ elapsed s.gamma master]
    exact Mirrors.pure

/-- Passes of a run that always evaluates the solution of the planning problem are those of a plain
one. -/
theorem iterate_mirrors {start : RunState K × σ} {passes : List (Pass K σ)} {more : ℕ}
    (hempty : start.1.history = .empty)
    (hmaster : ∀ passes s w, Traces backend clock c linking start passes (s, w) →
      RunsThrough c (passes.map (·.measurement)) → s.TakesMaster backend linking c.solver w)
    (htraces : Traces backend clock c linking start passes (s, w))
    (hcount : passes.length + more + 1 = c.maxIter)
    (hthrough : RunsThrough c (passes.map (·.measurement))) :
    Mirrors (Prod.map RunState.plain id) (s.iterate backend clock c linking more)
      (s.plain.iterate backend clock c.plain linking more) w := by
  -- On the iterations left; the passes so far say which states the hypothesis speaks of.
  induction more using Nat.strong_induction_on generalizing s w passes with
  | _ more ih =>
    rw [iterate_eq, iterate_eq]
    refine Mirrors.bind (step_mirrors (hmaster _ _ _ htraces hthrough)) fun s₁ w₁ hstep => ?_
    obtain ⟨pass, hleads⟩ := yields_step_iff.mp hstep
    rw [show s₁.plain.history.gap = s₁.history.gap from History.gap_plain,
      show c.plain.convTol = c.convTol from rfl]
    by_cases hgap : s₁.history.gap ≤ c.convTol
    · rw [if_pos hgap, if_pos hgap]
      exact Mirrors.pure
    rw [if_neg hgap, if_neg hgap]
    cases more with
    | zero => exact Mirrors.pure
    | succ rest =>
      by_cases htime : s₁.isTimedOut c = true
      · simp only [isTimedOut_plain, htime, if_true]
        exact Mirrors.pure
      · simp only [isTimedOut_plain, htime]
        exact ih rest rest.lt_succ_self (htraces.pass hleads) (by simp; omega)
          (runsThrough_pass hempty htraces hleads hthrough (by omega) hgap htime)

end RunState

section Main
variable {clock : Clock (StateM σ) K} {c : Configuration K}
  {p : DecomposedProblem K} {w : σ}

theorem DecomposedProblem.EndsPlainly.of_mirrors {backend : Backend (StateM σ) K}
    (h : Mirrors RunResult.plain (p.run backend clock c) (p.run backend clock c.plain) w) :
    p.EndsPlainly backend clock c w :=
  fun w' => ⟨fun e hfails => h (.error e) w' hfails, fun r hyields =>
    ⟨h (.ok r) w' hyields, History.gap_plain⟩⟩

variable [LinearScalar K]

/-- A plain configuration is accepted where the other one is. -/
theorem Configuration.validate_plain (hrange : 0.0 ≤ c.stabParam ∧ c.stabParam ≤ 1.0) :
    c.plain.validate = c.validate := by
  obtain ⟨hzero, hone⟩ := OrderedScalar.defined_of_lt (LinearScalar.zero_lt_one (K := K))
  have hleast : (0.0 : K) ≤ 0.0 := LinearScalar.le_of_not_lt hzero hzero (lt_irrefl_scalar 0.0)
  have hgreatest : (0.0 : K) ≤ 1.0 :=
    LinearScalar.le_of_not_lt hzero hone (OrderedScalar.lt_asymm LinearScalar.zero_lt_one)
  have hlevel : (!(decide (0.0 ≤ c.stabParam) && decide (c.stabParam ≤ 1.0))) = false := by
    simp [hrange]
  have hplain : (!(decide (0.0 ≤ c.plain.stabParam) &&
      decide (c.plain.stabParam ≤ 1.0))) = false := by
    simp [plain, hleast, hgreatest]
  unfold validate fault?
  rw [hlevel, hplain]
  rfl

theorem RunState.start_plain (hrange : 0.0 ≤ c.stabParam ∧ c.stabParam ≤ 1.0) :
    RunState.start c.plain p = (RunState.start c p).map RunState.plain := by
  unfold RunState.start
  rw [Configuration.validate_plain hrange]
  cases c.validate with
  | error e => rfl
  | ok u =>
    cases p.validate with
    | error e => rfl
    | ok u =>
      rw [show c.plain.automaticSlackPenalty = c.automaticSlackPenalty from rfl]
      cases p.subproblems.mapM fun s => Evaluator.ofSubproblem s c.automaticSlackPenalty with
      | error e => rfl
      | ok evaluators =>
        change _ = Except.ok (RunState.mk _ _ History.empty.plain _)
        rw [History.plain_empty]
        rfl

theorem DecomposedProblem.run_mirrors {backend : Backend (StateM σ) K}
    (hrange : 0.0 ≤ c.stabParam ∧ c.stabParam ≤ 1.0)
    (hmaster : ∀ start passes s w₁, RunState.start c p = .ok start →
      RunState.Traces backend clock c p.linking (start, w) passes (s, w₁) →
      RunsThrough c (passes.map (·.measurement)) →
      s.TakesMaster backend p.linking c.solver w₁) :
    Mirrors RunResult.plain (p.run backend clock c) (p.run backend clock c.plain) w := by
  unfold run
  rw [RunState.start_plain hrange]
  refine Mirrors.bind .mk_pure fun start w₁ hlifted => ?_
  obtain ⟨hstart, rfl⟩ := yields_mk_pure.mp hlifted
  obtain ⟨hvalid, -, evaluators, -, hstate⟩ := RunState.start_eq_ok.mp hstart
  have hlimit := (Configuration.validate_eq_ok.mp hvalid).iterations
  have hempty : start.history = .empty := by rw [hstate]
  have hiterates : Mirrors (Prod.map RunState.plain id)
      (start.iterate backend clock c p.linking (c.maxIter - 1))
      (start.plain.iterate backend clock c.plain p.linking (c.maxIter - 1)) w :=
    RunState.iterate_mirrors hempty (fun passes s w₁ => hmaster start passes s w₁ hstart) .start
      (by simp; omega) fun k hk hle => absurd hle (by simpa using hk.ne')
  refine Mirrors.bind hiterates fun ended w₂ _ => ?_
  obtain ⟨s, termination⟩ := ended
  have hbest : s.plain.history.incumbent?.or
      (s.plain.history.iterations.back?.map (·.candidate)) =
        s.history.incumbent?.or (s.history.iterations.back?.map (·.candidate)) := by
    rw [RunState.plain, History.incumbent?_plain, History.back?_plain, Option.map_map]
    rfl
  simp only [Prod.map_apply, id_eq, hbest]
  cases s.history.incumbent?.or (s.history.iterations.back?.map (·.candidate)) with
  | none => exact Mirrors.throw
  | some best => exact Mirrors.pure

/-- A parameter of zero stays zero. -/
theorem RunState.not_lt_gamma_of_traces {backend : Backend (StateM σ) K} {linking : List String}
    {start after : RunState K × σ} {passes : List (Pass K σ)} (hc : c.stabParam ≤ 0.0)
    (hstart : ¬0.0 < start.1.gamma)
    (htraces : Traces backend clock c linking start passes after) : ¬0.0 < after.1.gamma := by
  induction htraces with
  | start => exact hstart
  | pass _ hleads ih =>
    rw [hleads.adapts, hleads.stabilizes]
    split_ifs
    · rw [nextGamma, if_pos hc]
      exact lt_irrefl_scalar 0.0
    · exact ih

/-- Only a projection that succeeds makes a difference to a run whose backend replies by model and
settings: if none does, the run ends like a plain one. With the parameter zero none is attempted, on
any backend, and adapting the parameter changes nothing. -/
theorem runs_differ_only_by_projections (p : DecomposedProblem K) (clock : Clock (StateM σ) K)
    (w : σ) (hrange : 0.0 ≤ c.stabParam ∧ c.stabParam ≤ 1.0) :
    (∀ reply explain,
      (∀ projected, ¬p.Attempts (.replying reply explain) clock c w (.ok projected)) →
        p.EndsPlainly (.replying reply explain) clock c w) ∧
    (c.stabParam ≤ 0.0 → ∀ backend : Backend (StateM σ) K,
      (∀ projected, ¬p.Attempts backend clock c w projected) ∧ p.EndsPlainly backend clock c w) := by
  constructor
  · intro reply explain hfails
    refine .of_mirrors (DecomposedProblem.run_mirrors hrange fun start passes s w₁ hstart htraces
      hthrough => RunState.takesMaster_of_replying fun projected hprojected => ?_)
    exact hfails projected ⟨start, passes, s, w₁, hstart, htraces, hthrough, hprojected⟩
  · intro hzero backend
    have hgamma {start passes s w₁} (hstart : RunState.start c p = .ok start)
        (htraces : RunState.Traces backend clock c p.linking (start, w) passes (s, w₁)) :
        ¬0.0 < s.gamma := by
      refine RunState.not_lt_gamma_of_traces hzero ?_ htraces
      obtain ⟨-, -, evaluators, -, hstate⟩ := RunState.start_eq_ok.mp hstart
      rw [hstate]
      exact LinearScalar.not_lt_of_le hzero
    refine ⟨?_, .of_mirrors (DecomposedProblem.run_mirrors hrange fun start passes s w₁ hstart
      htraces _ => RunState.takesMaster_of_gamma (hgamma hstart htraces))⟩
    rintro projected ⟨start, passes, s, w₁, hstart, htraces, -, master, w₂, w₃, -, hpositive, -⟩
    exact hgamma hstart htraces hpositive

end Main

section Linear
variable {reply : Model K → SolverSettings K → Except (ModelError K) (Solution K)}
  {explain : Model K → SolverSettings K → Except (ModelError K) (Option (List String))}
  {p : PlanningProblem K} {linking : List String} {settings : SolverSettings K}

namespace PlanningProblem

theorem distanceTo_weights {model : Model K} {centre : SortedMap String K}
    {objective : Expression K} {weights : Array (ℕ × K)} (hlinking : linking ≠ [])
    (h : distanceTo model linking centre = .ok (objective, weights)) : weights ≠ #[] := by
  obtain ⟨before, last, rfl⟩ := (List.eq_nil_or_concat linking).resolve_left hlinking
  rw [distanceTo, List.concat_eq_append, List.foldlM_append] at h
  obtain ⟨⟨e, earlier⟩, -, h⟩ := bind_eq_ok.mp h
  obtain ⟨answer, hlast, hreturn⟩ := bind_eq_ok.mp h
  obtain rfl := Except.ok.inj hreturn
  cases hvariable : model.variableNamed? last with
  | none => simp [hvariable] at hlast
  | some v =>
    cases hcentre : centre.find? last with
    | none => simp [hvariable, hcentre] at hlast
    | some c =>
      simp only [hvariable, hcentre] at hlast
      obtain ⟨-, rfl⟩ := Prod.mk.inj (Except.ok.inj hlast)
      exact Array.push_ne_empty

theorem quadratic_of_projection {model : Model K} {centre : SortedMap String K} {level : K}
    (hlinking : linking ≠ []) (h : p.projection linking centre level = .ok model) :
    model.quadratic ≠ #[] := by
  obtain ⟨⟨m₁, id⟩, -, h⟩ := bind_eq_ok.mp h
  obtain ⟨⟨objective, weights⟩, hdistance, h⟩ := bind_eq_ok.mp h
  obtain ⟨m₂, -, h⟩ := bind_eq_ok.mp h
  obtain ⟨-, rfl⟩ := Model.setQuadratic_eq_ok.mp (mapError_eq_ok.mp h)
  exact distanceTo_weights hlinking hdistance

/-- A backend for linear objectives projects nothing. -/
theorem not_yields_project_of_linear
    (hreply : ∀ model settings s, reply model settings = .ok s → model.quadratic = #[])
    (hlinking : linking ≠ []) {centre : Candidate K} {lower upper gamma : K}
    (hgamma : (gamma == 0.0) = false) {w w' : σ} {projected : Candidate K} :
    ¬Yields (p.project (.replying reply explain : Backend (StateM σ) K) linking centre lower upper
      gamma settings) w projected w' := by
  intro h
  unfold project at h
  split_ifs at h with _ hzero
  · exact not_yields_throw h
  · exact absurd hzero (by simp [hgamma])
  · exact not_yields_throw h
  · obtain ⟨model, w₁, hmodel, h⟩ := yields_bind.mp h
    obtain ⟨s, w₂, hattempt, -⟩ := yields_bind.mp h
    have hreplied := (answers_pure.mp (Backend.yields_attempt.mp hattempt)).1
    exact quadratic_of_projection hlinking (yields_mk_pure.mp hmodel).1 (hreply _ _ _ hreplied)

end PlanningProblem

end Linear

section OnePlant
open Exact (number)

/-- The built-in solver, for models without squares. -/
def linearReply (model : Model Exact) (settings : SolverSettings Exact) :
    Except (ModelError Exact) (Solution Exact) :=
  if model.quadratic = #[] then .ok (model.solve ConicProgram.solveByPivoting settings)
  else .error (.backend "no quadratic objectives")

/-- Every iteration of this run after the first upper bound asks for a projection in vain. -/
def onePlantProjecting : Configuration Exact :=
  { Configuration.default with stabParam := number (1 / 2), stabDynamic := true }

theorem linearReply_eq_ok {model : Model Exact} {settings : SolverSettings Exact}
    {s : Solution Exact} (h : linearReply model settings = .ok s) : model.quadratic = #[] := by
  unfold linearReply at h
  split_ifs at h with hquadratic
  exact hquadratic

theorem beq_zero_of_pos {x : Exact} (h : 0.0 < x) : (x == 0.0) = false := by
  rw [Exact.zero_eq] at h ⊢
  cases x with
  | number q => simpa using (Exact.number_lt.mp h).ne'
  | infinity => rfl
  | negInfinity => rfl
  | undefined => rfl

theorem onePlant_projects_in_vain :
    ∃ r, Yields (onePlant.run (.replying linearReply fun _ _ => .ok none)
        (fun _ => pure (number 1)) onePlantProjecting) () r () ∧
      r.history.column (·.gamma) = #[number (1 / 2), number (1 / 4), number (1 / 2)] ∧
      Yields (onePlant.run (.replying linearReply fun _ _ => .ok none)
        (fun _ => pure (number 1)) onePlantProjecting.plain) () r.plain () ∧
      r.plain.history.gap = r.history.gap := by
  obtain ⟨r, hrun, hgammas⟩ := exists_ok_of_any (x := ((onePlant.run
      (.replying linearReply fun _ _ => .ok none) (fun _ => pure (number 1))
      onePlantProjecting).run.run ()).1)
    (P := fun r => r.history.column (·.gamma) = #[number (1 / 2), number (1 / 4), number (1 / 2)])
    (by decide +kernel)
  have hyields : Yields (onePlant.run (.replying linearReply fun _ _ => .ok none)
    (fun _ => pure (number 1)) onePlantProjecting) () r () := Prod.ext hrun rfl
  obtain ⟨hfailed, -⟩ := runs_differ_only_by_projections (c := onePlantProjecting) onePlant
    (fun _ => pure (number 1)) () (by decide +kernel)
  obtain ⟨hplain, hgap⟩ := (hfailed linearReply (fun _ _ => .ok none) (by
    rintro projected ⟨start, passes, s, w, -, -, -, master, w₁, w₂, -, hpositive, -, hproject⟩
    exact PlanningProblem.not_yields_project_of_linear (fun _ _ _ => linearReply_eq_ok) (by decide)
      (beq_zero_of_pos hpositive) hproject) ()).2 r hyields
  exact ⟨r, hyields, hgammas, hplain, hgap⟩

end OnePlant

end BendersPlanning

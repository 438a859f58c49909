import BendersPlanning.Proofs.BracketingBounds
import BendersPlanning.Proofs.FiniteReplies

/-!
# Why runs fail

A run over a valid problem, once its subproblems are prepared, fails only for what the backend said
last: it reported an error of its own, or its reply about the planning problem or a subproblem is of
no use. All that a run looks up by name or index on the way is there, and the planning problem takes
every cut, for `RunState.IsIntact` holds in the beginning and every iteration keeps it. Replies may
have any status and need not be true, as long as their numbers are finite.
-/

namespace BendersPlanning

open Exact (number)

section Causes
variable {K : Type} [Scalar K] {σ : Type}

/-- Replies from which no candidate can be read. -/
inductive PlanningProblem.Rejects (p : PlanningProblem K) (linking : List String) (s : Solution K) :
    PlanningFault K → Prop where
  | unbounded : s.status = .unbounded → p.Rejects linking s .unbounded
  | negative {name : String} {x : K} : s.status = .optimal → name ∈ linking →
      s.valueNamed? p.model name = some x → x < -1e-6 → p.Rejects linking s (.negative name x)

/-- Replies from which no outcome can be read. -/
inductive Evaluator.Rejects (e : Evaluator K) (s : Solution K) : SubproblemFault → Prop where
  | ended : s.status ≠ .optimal → s.status ≠ .infeasible → e.Rejects s (.ended s.status)
  | infeasibleWithSlacks : s.status = .infeasible → e.isElastic = true →
      e.Rejects s .infeasibleWithSlacks
  | noCertificate : s.status = .infeasible → e.isElastic = false → s.certificate = none →
      e.Rejects s .noCertificate

/-- Errors that the last reply accounts for, in a run that begins with some planning problem and
some evaluators: the reply is itself an error, or no solution of the planning problem with its cuts
or of a subproblem at some values. A planning problem that stays unsolved is asked for conflicts
after that. -/
inductive Backend.Causes (backend : Backend (StateM σ) K) (linking : List String)
    (start : RunState K) (w' : σ) : RunError K → Prop where
  | refused {model : Model K} {settings : SolverSettings K} {w : σ} {error : ModelError K} :
      Answers (backend.solve model settings) w (.error error) w' →
      backend.Causes linking start w' (.model error)
  | unsolved {p : PlanningProblem K} {settings settings' : SolverSettings K} {w w₁ : σ}
      {s : Solution K} {conflicts : Except (ModelError K) (Option (List String))} :
      p.Extends start.planning → Answers (backend.solve p.model settings) w (.ok s) w₁ →
      s.status ≠ .optimal → s.status ≠ .unbounded →
      Answers (backend.conflicts p.model settings') w₁ conflicts w' →
      backend.Causes linking start w' (.planningInfeasible s.status conflicts.toOption.join)
  | planning {p : PlanningProblem K} {settings : SolverSettings K} {w : σ} {s : Solution K}
      {fault : PlanningFault K} :
      p.Extends start.planning → Answers (backend.solve p.model settings) w (.ok s) w' →
      p.Rejects linking s fault → backend.Causes linking start w' (.planningFailed fault)
  | subproblem {e e₀ : Evaluator K} {settings : SolverSettings K} {w : σ} {s : Solution K}
      {fault : SubproblemFault} :
      e₀ ∈ start.evaluators → e.Matches e₀ →
      Answers (backend.solve e.activeModel settings) w (.ok s) w' →
      e.Rejects s fault → backend.Causes linking start w' (.subproblemFailed e.index fault)

end Causes

variable {σ : Type} {backend : Backend (StateM σ) Exact} {linking : List String}
  {settings : SolverSettings Exact} {start : RunState Exact} {w w' : σ} {x : RunError Exact}

theorem PlanningProblem.rejects_of_negativeCapacity? {p : PlanningProblem Exact}
    {s : Solution Exact} {name : String} {value : Exact} (hs : s.status = .optimal)
    (h : p.negativeCapacity? linking s = some (name, value)) :
    p.Rejects linking s (.negative name value) := by
  obtain ⟨found, hfound, h⟩ := List.exists_of_findSome?_eq_some h
  obtain ⟨id, hid, h⟩ := Option.bind_eq_some_iff.mp h
  obtain ⟨v, -, h⟩ := Option.bind_eq_some_iff.mp h
  obtain ⟨y, hy, h⟩ := Option.bind_eq_some_iff.mp h
  split_ifs at h with hnegative
  obtain ⟨rfl, rfl⟩ := Prod.mk.inj (Option.some.inj h)
  exact .negative hs hfound (Option.bind_eq_some_iff.mpr ⟨id, hid, hy⟩) hnegative.2

/-- A candidate can be read from every finite optimum without a negative capacity. -/
theorem PlanningProblem.solve_fails (hb : backend.RepliesFinitely) {p : PlanningProblem Exact}
    (hp : p.model.WellFormed) (hextends : p.Extends start.planning)
    (hplanned : ∀ name ∈ linking, (p.model.variableNamed? name).isSome = true)
    (h : Fails (p.solve backend linking settings) w x w') : backend.Causes linking start w' x := by
  have hrefused : ∀ {settings w}, Fails (backend.attempt p.model settings) w x w' →
      backend.Causes linking start w' x := by
    intro settings w h
    obtain ⟨error, rfl, hreplied⟩ := Backend.fails_attempt.mp h
    exact .refused hreplied
  rcases fails_bind.mp h with hfirst | ⟨first, w₁, hfirst, h⟩
  · exact hrefused hfirst
  obtain hsecond | ⟨s, w₂, hsecond, h⟩ := fails_ite_bind.mp h
  · rcases hsecond with ⟨-, hsecond⟩ | ⟨-, hsecond⟩
    · exact hrefused hsecond
    · exact (not_fails_pure hsecond).elim
  obtain ⟨settings', w₀, hreplied⟩ := Backend.replied_of_retried hfirst hsecond
  beta_reduce at h
  cases hs : s.status with
  | optimal =>
    rw [hs] at h
    cases hnegative : p.negativeCapacity? linking s with
    | some entry =>
      rw [hnegative] at h
      obtain ⟨rfl, rfl⟩ := fails_throw.mp h
      exact .planning hextends hreplied (rejects_of_negativeCapacity? hs hnegative)
    | none =>
      rw [hnegative] at h
      have hpoint := ((hb p.model settings' w₀ w₂ s hp hreplied).primal hs).size
      obtain ⟨c, hc⟩ : ∃ c, Candidate.ofPoint p linking s.primal s.objective = .ok c :=
        exists_ofPoint hplanned hpoint
      cases hc.symm.trans (fails_mk_pure.mp h).1
  | unbounded =>
    rw [hs] at h
    obtain ⟨rfl, rfl⟩ := fails_throw.mp h
    exact .planning hextends hreplied (.unbounded hs)
  | infeasible | iterationLimit | numericalFailure =>
    rw [hs] at h
    obtain ⟨conflicts, w₃, hconflicts, h⟩ := (fails_bind.mp h).resolve_left not_fails_lift
    obtain ⟨rfl, rfl⟩ := fails_throw.mp h
    have hcause : backend.Causes linking start w₃
        (.planningInfeasible s.status conflicts.toOption.join) :=
      .unsolved hextends hreplied (by simp [hs]) (by simp [hs]) (yields_lift.mp hconflicts)
    rw [hs] at hcause
    cases conflicts <;> exact hcause

namespace Evaluator

variable {e e' e₀ : Evaluator Exact} {values : SortedMap String Exact}

/-- An outcome can be read from every optimum with all shadow prices, and from every certificate
where there are no slacks. -/
theorem IsReady.outcome_eq_error (he : e.IsReady) {s : Solution Exact}
    (hs : s.IsFiniteFor e.activeModel) (h : e.outcome s = .error x) :
    ∃ fault, x = .subproblemFailed e.index fault ∧ e.Rejects s fault := by
  unfold outcome at h
  cases hstatus : s.status with
  | optimal =>
    simp only [hstatus] at h
    obtain ⟨o, ho⟩ := he.exists_optimalOutcome (hs.duals hstatus he.continuous).size
    cases ho.symm.trans h
  | infeasible =>
    simp only [hstatus, infeasibleOutcome] at h
    split_ifs at h with helastic
    · exact ⟨_, (Except.error.inj h).symm, .infeasibleWithSlacks hstatus helastic⟩
    · cases hcertificate : s.certificate with
      | none =>
        rw [hcertificate] at h
        exact ⟨_, (Except.error.inj h).symm,
          .noCertificate hstatus (Bool.not_eq_true _ ▸ helastic) hcertificate⟩
      | some c =>
        rw [hcertificate] at h
        cases h
  | unbounded | iterationLimit | numericalFailure =>
    simp only [hstatus, Except.error.injEq] at h
    exact ⟨_, h.symm, hstatus ▸ .ended (by simp [hstatus]) (by simp [hstatus])⟩

theorem solveActive_fails (h : Fails (e.solveActive backend settings) w x w') :
    backend.Causes linking start w' x := by
  rcases fails_bind.mp h with hfirst | ⟨first, w₁, -, h⟩
  · obtain ⟨error, rfl, hreplied⟩ := Backend.fails_attempt.mp hfirst
    exact .refused hreplied
  · split_ifs at h
    · obtain ⟨error, rfl, hreplied⟩ := Backend.fails_attempt.mp h
      exact .refused hreplied
    · exact (not_fails_pure h).elim

/-- A subproblem of a run, prepared and perhaps fixed before: all its fixing rows can be set, and
they belong to linking variables. -/
structure IsIntact (e : Evaluator Exact) (start : RunState Exact) (linking : List String) :
    Prop where
  ready : e.IsReady
  rows : ∀ entry ∈ e.fixingRows, entry.1 ∈ linking ∧ entry.2 < e.model.constraints.size
  known : ∃ e₀ ∈ start.evaluators, e.Matches e₀

theorem evaluate_fails (hb : backend.RepliesFinitely) (he : e.IsIntact start linking)
    (hvalues : values.Covers linking)
    (h : Answers (e.evaluate backend values settings) w (e', .error x) w') :
    backend.Causes linking start w' x := by
  obtain ⟨fixed, hfix⟩ : ∃ fixed, e.fixAt values = (fixed, .ok ()) :=
    exists_fixRows (fun entry hentry => ⟨(he.rows entry hentry).2, he.ready.bound entry hentry⟩)
      fun entry hentry => hvalues _ (he.rows entry hentry).1
  obtain ⟨hmatches, hready, -⟩ := fixAt_eq_ok he.ready hfix
  unfold evaluate at h
  simp only [hfix] at h
  obtain ⟨solved, w₁, hsolve, h⟩ := answers_bind.mp h
  obtain ⟨hsame, rfl⟩ := answers_pure.mp h
  obtain ⟨rfl, hread⟩ := Prod.mk.inj hsame
  cases solved with
  | error y =>
    obtain rfl : y = x := Except.error.inj hread
    exact solveActive_fails hsolve
  | ok s =>
    obtain ⟨settings', w₂, hreplied⟩ := solveActive_replied hsolve
    obtain ⟨fault, rfl, hrejects⟩ :=
      hready.outcome_eq_error (hb _ settings' w₂ w₁ s hready.model hreplied) hread
    obtain ⟨e₀, he₀, hknown⟩ := he.known
    exact .subproblem he₀ (hmatches.trans hknown) hreplied hrejects

theorem evaluateAll_fails (hb : backend.RepliesFinitely) {es es' : List (Evaluator Exact)}
    (hes : ∀ e ∈ es, e.IsIntact start linking) (hvalues : values.Covers linking)
    {outcomes : SortedMap ℕ (OperationOutcome Exact)}
    (h : Answers (evaluateAll backend values settings es outcomes) w (es', .error x) w') :
    backend.Causes linking start w' x := by
  induction es generalizing es' outcomes w with
  | nil => cases (Prod.mk.inj (answers_pure.mp h).1).2
  | cons e es ih =>
    obtain ⟨he, hes⟩ := List.forall_mem_cons.mp hes
    rw [evaluateAll] at h
    obtain ⟨⟨e', result⟩, w₁, hfirst, h⟩ := answers_bind.mp h
    cases result with
    | error y =>
      obtain ⟨hsame, rfl⟩ := answers_pure.mp h
      obtain ⟨-, hsame⟩ := Prod.mk.inj hsame
      exact Except.error.inj hsame ▸ evaluate_fails hb he hvalues hfirst
    | ok o =>
      obtain ⟨⟨rest, result⟩, w₂, hrest, h⟩ := answers_bind.mp h
      obtain ⟨hsame, rfl⟩ := answers_pure.mp h
      obtain ⟨rfl, rfl⟩ := Prod.mk.inj hsame
      exact ih hes hrest

end Evaluator

namespace RunState

variable {clock : Clock (StateM σ) Exact} {c : Configuration Exact} {s : RunState Exact}
  {before after : RunState Exact × σ} {pass : Pass Exact σ}

/-- What lets an iteration reach its end unless a reply stops it. -/
structure IsIntact (s start : RunState Exact) (linking : List String) : Prop where
  sound : s.IsSound
  grown : s.planning.Extends start.planning
  evaluators : ∀ e ∈ s.evaluators, e.IsIntact start linking
  planned : ∀ name ∈ linking, (s.planning.model.variableNamed? name).isSome = true
  proxies : s.planning.HasProxyFor (s.evaluators.map (·.index))
  bounded : ∀ t ∈ s.planning.theta, t < s.planning.model.vars.size
  uncut : s.planning.HasNoCutsAfter s.history.count

/-- The cuts that follow from an evaluation are made, and the planning problem takes them. -/
theorem IsIntact.exists_planning (hb : backend.RepliesFinitely) (hs : s.IsIntact start linking)
    {values : SortedMap String Exact} (hvalues : values.Covers linking)
    {es : List (Evaluator Exact)} {outcomes : SortedMap ℕ (OperationOutcome Exact)}
    (h : Answers (Evaluator.evaluateAll backend values settings s.evaluators .empty) w
      (es, .ok outcomes) w') :
    ∃ cuts planning, s.planning.cuts (s.history.count + 1) values outcomes = .ok cuts ∧
      s.planning.addCuts cuts = (planning, .ok ()) ∧
      planning.HasNoCutsAfter (s.history.count + 1) := by
  obtain ⟨hmatches, hready, hindices, pairs, rfl, hobtains, hentries⟩ := hs.sound.exists_pairs h
  have htheta : ∀ index, index = 0 ∨ index ∈ s.evaluators.map (·.index) →
      ∃ t ∈ s.planning.thetaFor? index, t < s.planning.model.vars.size := by
    intro index hindex
    obtain ⟨t, ht, hmem⟩ := hs.proxies.exists_thetaFor? hindex
    exact ⟨t, ht, hs.bounded t hmem⟩
  have houtcomes : ∀ o ∈ outcomes.entries, o.2.IsFiniteOver linking := by
    intro o ho
    obtain ⟨e, he, -, hobtain⟩ := exists_obtained hobtains hentries ho
    obtain ⟨e₀, he₀, hmatch⟩ := exists_of_forall₂ hmatches he
    refine hobtain.isFiniteOver hb (hready e he) fun entry hentry => ?_
    rw [hmatch.fixingRows] at hentry
    exact ((hs.evaluators e₀ he₀).rows entry hentry).1
  have hproxies : ∀ o ∈ outcomes.entries,
      ∃ t ∈ s.planning.thetaFor? o.1, t < s.planning.model.vars.size := by
    intro o ho
    obtain ⟨e, he, hindex, -⟩ := exists_obtained hobtains hentries ho
    exact htheta o.1 (.inr (hindices ▸ hindex ▸ List.mem_map_of_mem (f := (·.index)) he))
  obtain ⟨cuts, hcuts, hfits, hnodup, hnames⟩ :
      ∃ cuts, s.planning.cuts (s.history.count + 1) values outcomes = .ok cuts ∧ _ :=
    PlanningProblem.exists_cuts hs.planned hvalues houtcomes hproxies (htheta 0 (.inl rfl))
  obtain ⟨planning, hadds, huncut⟩ := PlanningProblem.exists_addCuts_of_next
    hs.sound.planning.constraintNames hs.uncut hfits hnodup hnames
  exact ⟨cuts, planning, hcuts, hadds, huncut⟩

theorem step_fails (hb : backend.RepliesFinitely) (hs : s.IsIntact start linking)
    (h : Fails (s.step backend clock c linking) w x w') : backend.Causes linking start w' x := by
  obtain hsolve | ⟨master, w₁, point, w₂, es, result, w₃, hsolve, hpoint, hevaluated, hrest⟩ :=
    fails_step_cases h
  · exact PlanningProblem.solve_fails hb hs.sound.planning hs.grown hs.planned hsolve
  have hvalues := covers_of_candidate hb hs.sound.planning hsolve hpoint
  obtain ⟨rfl, rfl⟩ | ⟨outcomes, rfl, hnone⟩ := hrest
  · exact Evaluator.evaluateAll_fails hb hs.evaluators hvalues hevaluated
  · obtain ⟨cuts, planning, hcuts, hadds, -⟩ := hs.exists_planning hb hvalues hevaluated
    exact (hnone cuts planning hcuts hadds).elim

theorem leads_intact (hb : backend.RepliesFinitely) (hs : before.1.IsIntact start linking)
    (h : pass.Leads backend clock c linking before after) : after.1.IsIntact start linking := by
  obtain ⟨hsound, hextends, hmatches, -⟩ := leads_keeps hs.sound h
  have hindices : after.1.evaluators.map (·.index) = before.1.evaluators.map (·.index) :=
    map_eq_of_matches hmatches fun _ _ hmatch => hmatch.index
  refine ⟨hsound, hextends.trans hs.grown, fun e' he' => ?_, ?_, ?_, ?_, ?_⟩
  · obtain ⟨e₀, he₀, hmatch⟩ := exists_of_forall₂ hmatches he'
    obtain ⟨first, hfirst, hknown⟩ := (hs.evaluators e₀ he₀).known
    refine ⟨hsound.evaluators e' he', ?_, first, hfirst, hmatch.trans hknown⟩
    rw [Evaluator.evaluateAll_fixes h.evaluates] at he'
    obtain ⟨e, he, rfl⟩ := List.mem_map.mp he'
    obtain ⟨hfixing, hsize⟩ := e.fixRows_sizes pass.point.values e.fixingRows
    rw [Evaluator.fixAt, hfixing, hsize]
    exact (hs.evaluators e he).rows
  · exact fun name hname => hextends.variableNamed? name ▸ hs.planned name hname
  · exact hindices ▸ hextends.hasProxyFor hs.proxies
  · rw [hextends.theta, hextends.vars]
    exact hs.bounded
  · have hvalues := covers_of_candidate hb hs.sound.planning h.solves h.chooses
    obtain ⟨cuts, planning, hcuts, hadds, huncut⟩ := hs.exists_planning hb hvalues h.evaluates
    obtain rfl : cuts = pass.cuts := Except.ok.inj (hcuts.symm.trans h.cuts)
    obtain rfl : planning = after.1.planning := (Prod.mk.inj (hadds.symm.trans h.adds)).1
    rw [h.records, History.count_record]
    exact huncut

theorem iterate_fails (hb : backend.RepliesFinitely) {more : ℕ} (hs : s.IsIntact start linking)
    (h : Fails (s.iterate backend clock c linking more) w x w') :
    backend.Causes linking start w' x := by
  induction more using Nat.strong_induction_on generalizing s w with
  | _ more ih =>
    obtain hstep | ⟨s₁, w₁, rest, rfl, hstep, hrest⟩ := fails_iterate_cases h
    · exact step_fails hb hs hstep
    · obtain ⟨pass, hleads⟩ := yields_step_iff.mp hstep
      exact ih rest rest.lt_succ_self (leads_intact hb hs hleads) hrest

theorem fixingRows_of_ofSubproblem {subproblem : Subproblem Exact} {automatic : Bool}
    {e : Evaluator Exact} (hs : subproblem.model.WellFormed)
    (h : Evaluator.ofSubproblem subproblem automatic = .ok e) {entry : String × ℕ}
    (hentry : entry ∈ e.fixingRows) :
    entry.1 ∈ subproblem.linking ∧ entry.2 < e.model.constraints.size := by
  obtain ⟨hfixing, -⟩ := Evaluator.ofSubproblem_cases h
  have hrows : FixingRowsOf e.model e.fixingRows := .addFixingRows hs hfixing
  obtain ⟨-, -, -, hnames⟩ := Model.shape_of_addFixingRows hfixing
  simp only [List.map_nil, List.nil_append] at hnames
  exact ⟨hnames ▸ List.mem_map_of_mem hentry, hrows.lt hentry⟩

theorem start_intact {p : DecomposedProblem Exact} (hp : p.WellFormed)
    (huncut : p.planning.cutRows = []) (hstart : RunState.start c p = .ok start) :
    start.IsIntact start p.linking := by
  have hsound := (start_sound hp hstart).1
  have hproxies := start_hasProxyFor hstart
  obtain ⟨-, hvalid, evaluators, hevaluators, rfl⟩ := start_eq_ok.mp hstart
  have hcontract := DecomposedProblem.validate_eq_ok.mp hvalid
  have hsubproblem : ∀ e ∈ evaluators, ∃ s ∈ p.subproblems,
      Evaluator.ofSubproblem s c.automaticSlackPenalty = .ok e := fun e he =>
    exists_of_forall₂ (forall₂_of_mapM_eq_ok hevaluators).flip he
  refine ⟨hsound, .refl _, fun e he =>
    ⟨hsound.evaluators e he, fun entry hentry => ?_, e, he, .refl e⟩, ?_, hproxies, ?_, ?_⟩
  · obtain ⟨s, hs, hprepared⟩ := hsubproblem e (List.mem_mergeSort.mp he)
    obtain ⟨hname, hrow⟩ := fixingRows_of_ofSubproblem (hp.subproblems s hs) hprepared hentry
    exact ⟨(hcontract.linked s hs _ hname).1, hrow⟩
  · intro name hname
    dsimp only
    split_ifs
    · exact hcontract.planned name hname
    · rw [Model.variableNamed?_relaxIntegrality]
      exact hcontract.planned name hname
  · intro t ht
    obtain ⟨v, hv, -⟩ := hcontract.bounded t ht
    have hlt := (Array.getElem?_eq_some_iff.mp hv).choose
    dsimp only
    split_ifs
    · exact hlt
    · simpa [Model.relaxIntegrality] using hlt
  · apply PlanningProblem.hasNoCutsAfter_of_cutRows
    dsimp only
    split_ifs
    · exact huncut
    · exact huncut

end RunState

/-- A run over a valid problem, with a valid configuration, prepared subproblems and no cuts in its
planning problem, fails only for what the backend replied last, whatever the statuses and as long as
the numbers of its replies are finite. No look-up by name or index fails, and no model refuses a cut
or a right-hand side. -/
theorem runs_fail_on_replies_only {clock : Clock (StateM σ) Exact} {c : Configuration Exact}
    {p : DecomposedProblem Exact} (hp : p.WellFormed) (hc : c.validate = .ok ())
    (hvalid : p.validate = .ok ())
    (hprepared : ∀ s ∈ p.subproblems, ∃ e, Evaluator.ofSubproblem s c.automaticSlackPenalty = .ok e)
    (huncut : p.planning.cutRows = []) (hb : backend.RepliesFinitely)
    (h : Fails (p.run backend clock c) w x w') :
    ∃ start, RunState.start c p = .ok start ∧ backend.Causes p.linking start w' x := by
  obtain ⟨evaluators, hevaluators⟩ := exists_mapM_eq_ok.mpr hprepared
  have hstart : RunState.start c p = .ok _ :=
    RunState.start_eq_ok.mpr ⟨hc, hvalid, evaluators, hevaluators, rfl⟩
  refine ⟨_, hstart, ?_⟩
  have hintact := RunState.start_intact hp huncut hstart
  obtain hfailed | ⟨start, hsame, hfailed⟩ := RunState.fails_run_cases h
  · cases hstart.symm.trans hfailed
  obtain rfl := Except.ok.inj (hstart.symm.trans hsame)
  obtain hiterate | ⟨s, termination, w₁, hiterate, hnone⟩ := hfailed
  · exact RunState.iterate_fails hb hintact hiterate
  · -- Some iteration was recorded, so there is a last candidate.
    obtain ⟨before, -, hstep, -⟩ := RunState.iterate_reaches hiterate
    obtain ⟨pass, hleads⟩ := RunState.yields_step_iff.mp hstep
    have hrecords : s.history = _ := hleads.records
    simp [hrecords, History.record] at hnone

/-- A backend that checks its answers, but ends at an iteration limit after a number of calls. -/
def falteringBackend (calls : ℕ) : Backend (StateM ℕ) Exact where
  solve model settings := do
    let count ← getModify (· + 1)
    if count < calls then
      (ConicSolver.checkedBackend ConicProgram.solveByPivoting).solve model settings
    else return .ok (.without .iterationLimit 0)
  conflicts _ _ := pure (.ok none)

theorem falteringBackend_repliesFinitely (calls : ℕ) :
    (falteringBackend calls).RepliesFinitely := by
  intro model settings w w' s hm h
  obtain ⟨count, w₁, -, h⟩ := answers_bind.mp h
  split_ifs at h
  · exact (checkedBackend_isExact _).repliesFinitely model settings w₁ w' s hm h
  · obtain ⟨hsame, -⟩ := answers_pure.mp h
    obtain rfl := Except.ok.inj hsame
    exact ⟨nofun, nofun, nofun, nofun⟩

/-- With three good answers the run over the plant ends in its second iteration, at the subproblem
and after a second attempt. -/
theorem faltering_run_fails :
    ∃ start, RunState.start .default onePlant = .ok start ∧
      Fails (onePlant.run (falteringBackend 3) (fun _ => pure (number 1)) .default) 0
        (.subproblemFailed 0 (.ended .iterationLimit)) 5 ∧
      (falteringBackend 3).Causes onePlant.linking start 5
        (.subproblemFailed 0 (.ended .iterationLimit)) := by
  have hfails : Fails (onePlant.run (falteringBackend 3) (fun _ => pure (number 1)) .default) 0
      (.subproblemFailed 0 (.ended .iterationLimit)) 5 := by
    unfold Fails Answers
    decide +kernel
  have hprepared : ∀ s ∈ onePlant.subproblems, ((Evaluator.ofSubproblem s
      (Configuration.default : Configuration Exact).automaticSlackPenalty).toOption.any
        fun _ => True) = true := by decide +kernel
  obtain ⟨start, hstart, hcauses⟩ := runs_fail_on_replies_only
    ⟨by decide +kernel, by decide +kernel⟩ (by decide +kernel) (by decide +kernel)
    (fun s hs => (exists_ok_of_any (hprepared s hs)).imp fun _ h => h.1) (by decide +kernel)
    (falteringBackend_repliesFinitely 3) hfails
  exact ⟨start, hstart, hfails, hcauses⟩

end BendersPlanning

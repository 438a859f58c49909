import BendersPlanning.Proofs.GuardedCandidates

/-!
# Retried solves

Planning problems and subproblems are solved with one protocol: a reply of numerical trouble, or with a
clearly negative capacity, gets one second attempt with more careful settings, and only the last reply
counts. Calls are observed through a backend that keeps a log of them (`Backend.logging`), so that one
statement says both what was asked, in which order, and what came of it.
-/

namespace BendersPlanning

variable {K : Type} [Scalar K] {σ : Type}

section Meaning

/-- A call of a backend with its reply. -/
inductive Call (K : Type) where
  | solve (model : Model K) (settings : SolverSettings K)
      (reply : Except (ModelError K) (Solution K))
  | conflicts (model : Model K) (settings : SolverSettings K)
      (reply : Except (ModelError K) (Option (List String)))

/-- A backend that replies like another one and keeps a log of its calls. -/
def Backend.logging (backend : Backend (StateM σ) K) : Backend (StateM (σ × List (Call K))) K where
  solve model settings := do
    let (w, log) ← get
    let (reply, w) := ((backend.solve model settings).run w).run
    set (w, log ++ [.solve model settings reply])
    return reply
  conflicts model settings := do
    let (w, log) ← get
    let (reply, w) := ((backend.conflicts model settings).run w).run
    set (w, log ++ [.conflicts model settings reply])
    return reply

/-- From the world `w` on, `x` answers `a` and leaves `w'`. So does `y`, which is to be `x` with a
backend that keeps a log, and these calls are what it logs. -/
def Logs {α : Type} (x : StateM σ α) (y : StateM (σ × List (Call K)) α) (w : σ) (a : α)
    (calls : List (Call K)) (w' : σ) : Prop :=
  Answers x w a w' ∧ ∀ log, Answers y (w, log) a (w', log ++ calls)

/-- The calls of a solve with one second attempt after some replies, and the reply that counts. -/
inductive Tries (model : Model K) (settings : SolverSettings K) (again : Solution K → Prop) :
    List (Call K) → Except (ModelError K) (Solution K) → Prop where
  | once {reply : Except (ModelError K) (Solution K)} : (∀ s, reply = .ok s → ¬again s) →
      Tries model settings again [.solve model settings reply] reply
  | twice {first : Solution K} {reply : Except (ModelError K) (Solution K)} : again first →
      Tries model settings again
        [.solve model settings (.ok first), .solve model settings.numericallyFocused reply] reply

/-- The names that were found when conflicts were asked for; a failure to find any counts as none. -/
def explained : List (Call K) → Option (List String)
  | [.conflicts _ _ reply] => reply.toOption.join
  | _ => none

def Solution.IsTroubled (s : Solution K) : Prop :=
  s.status = .numericalFailure ∨ s.status = .iterationLimit

namespace PlanningProblem

/-- All linking variables have a value. -/
def HasValues (p : PlanningProblem K) (linking : List String) (s : Solution K) : Prop :=
  ∀ name ∈ linking, ∃ id x, p.model.variableNamed? name = some id ∧ s.value? id = some x

/-- A linking variable that may not be negative clearly is. -/
def HasNegative (p : PlanningProblem K) (linking : List String) (s : Solution K) : Prop :=
  ∃ name ∈ linking, ∃ id x, p.IsCapacity name id ∧ s.value? id = some x ∧ x < -1e-6

/-- What is made of the last reply about the planning problem, with the conflicts that were found. -/
def judgement (p : PlanningProblem K) (linking : List String)
    (last : Except (ModelError K) (Solution K)) (conflicts : Option (List String)) :
    Except (RunError K) (Candidate K) :=
  match last with
  | .error e => .error (.model e)
  | .ok s =>
    match s.status with
    | .optimal =>
      match p.negativeCapacity? linking s with
      | some (name, x) => .error (.planningFailed (.negative name x))
      | none => Candidate.ofPoint p linking s.primal s.objective
    | .unbounded => .error (.planningFailed .unbounded)
    | status => .error (.planningInfeasible status conflicts)

/-- How a solve of the planning problem ends after the last reply: with which result, and with which
further calls. -/
structure Concludes (p : PlanningProblem K) (linking : List String) (settings : SolverSettings K)
    (last : Except (ModelError K) (Solution K)) (asked : List (Call K))
    (result : Except (RunError K) (Candidate K)) : Prop where
  succeeds : (∃ c, result = .ok c) ↔ ∃ s, last = .ok s ∧ s.status = .optimal ∧
    p.HasValues linking s ∧ ¬p.HasNegative linking s
  fails : (∃ fault, result = .error (.planningFailed fault)) ↔ ∃ s, last = .ok s ∧
    (s.status = .unbounded ∨
      s.status = .optimal ∧ (p.HasNegative linking s ∨ ¬p.HasValues linking s))
  explains : ∀ s, last = .ok s → s.status ≠ .optimal → s.status ≠ .unbounded →
    ∃ reply, asked = [.conflicts p.model settings reply] ∧
      result = .error (.planningInfeasible s.status reply.toOption.join)
  silent : ∀ s, last = .ok s → s.status = .optimal ∨ s.status = .unbounded → asked = []
  errs : ∀ e, last = .error e → asked = [] ∧ result = .error (.model e)

/-- One or two solves of the planning problem, of which the last one decides, and its conflicts where
it stays unsolved. -/
def KeepsProtocol (p : PlanningProblem K) (linking : List String) (settings : SolverSettings K)
    (backend : Backend (StateM σ) K) (w : σ) : Prop :=
  ∃ calls last asked w',
    Logs (p.solve backend linking settings).run (p.solve backend.logging linking settings).run w
      (p.judgement linking last (explained asked)) (calls ++ asked) w' ∧
    Tries p.model settings (fun s => s.IsTroubled ∨ s.status = .optimal ∧ p.HasNegative linking s)
      calls last ∧
    p.Concludes linking settings last asked (p.judgement linking last (explained asked))

end PlanningProblem

/-- What an evaluation of a subproblem makes of the last reply, where these rows fix its linking
variables. -/
structure Subproblem.Concludes (s : Subproblem K) (automatic : Bool) (rows : List (String × ℕ))
    (last : Except (ModelError K) (Solution K)) (result : Except (RunError K) (OperationOutcome K)) :
    Prop where
  optimal : (∃ cost prices slack, result = .ok (.optimal cost prices slack)) ↔
    ∃ reply, last = .ok reply ∧ reply.status = .optimal ∧
      ∀ entry ∈ rows, (reply.dual? entry.2).isSome = true
  infeasible : (∃ ray margin, result = .ok (.infeasible ray margin)) ↔
    ∃ reply, last = .ok reply ∧ reply.status = .infeasible ∧ reply.certificate.isSome = true ∧
      s.slackPenalty = none ∧ automatic = false
  fails : ∀ reply, last = .ok reply → (∀ o, result ≠ .ok o) →
    ∃ fault, result = .error (.subproblemFailed s.index fault)
  errs : ∀ e, last = .error e → result = .error (.model e)

namespace Evaluator

/-- The evaluators of a subproblem: a new one, and what fixing rows, the first part of every
evaluation, makes of it. -/
inductive Serves (s : Subproblem K) (automatic : Bool) : Evaluator K → Prop where
  | fresh {e : Evaluator K} : ofSubproblem s automatic = .ok e → Serves s automatic e
  | refixed {e : Evaluator K} (values : SortedMap String K) :
      Serves s automatic e → Serves s automatic (e.fixAt values).1

/-- No call where values cannot be set. Otherwise one or two solves of the active model, of which the
last one decides. -/
def KeepsProtocol (e : Evaluator K) (s : Subproblem K) (automatic : Bool)
    (values : SortedMap String K) (settings : SolverSettings K) (backend : Backend (StateM σ) K)
    (w : σ) : Prop :=
  (∀ fixed x, e.fixAt values = (fixed, .error x) →
    Logs (e.evaluate backend values settings) (e.evaluate backend.logging values settings) w
      (fixed, .error x) [] w) ∧
  ∀ fixed, e.fixAt values = (fixed, .ok ()) → ∃ calls last w',
    Logs (e.evaluate backend values settings) (e.evaluate backend.logging values settings) w
      (fixed, last.mapError RunError.model >>= fixed.outcome) calls w' ∧
    Tries fixed.activeModel settings Solution.IsTroubled calls last ∧
    s.Concludes automatic fixed.fixingRows last (last.mapError RunError.model >>= fixed.outcome)

end Evaluator

end Meaning

section Logging
variable {ε α β : Type} {w w₁ w' : σ} {calls more : List (Call K)}

omit [Scalar K] in
theorem logs_pure {a : α} : Logs (K := K) (pure a : StateM σ α) (pure a) w a [] w :=
  ⟨answers_pure.mpr ⟨rfl, rfl⟩, fun log => answers_pure.mpr ⟨rfl, by rw [List.append_nil]⟩⟩

omit [Scalar K] in
theorem Logs.bind {x : StateM σ α} {y : StateM (σ × List (Call K)) α} {f : α → StateM σ β}
    {g : α → StateM (σ × List (Call K)) β} {a : α} {b : β} (hx : Logs x y w a calls w₁)
    (hf : Logs (f a) (g a) w₁ b more w') : Logs (x >>= f) (y >>= g) w b (calls ++ more) w' := by
  constructor
  · exact answers_bind.mpr ⟨a, w₁, hx.1, hf.1⟩
  · intro log
    rw [← List.append_assoc]
    exact answers_bind.mpr ⟨a, _, hx.2 log, hf.2 _⟩

omit [Scalar K] in
/-- A sequence goes on where its first part succeeds. -/
theorem Logs.bind_ok {x : ExceptT ε (StateM σ) α} {y : ExceptT ε (StateM (σ × List (Call K))) α}
    {f : α → ExceptT ε (StateM σ) β} {g : α → ExceptT ε (StateM (σ × List (Call K))) β} {a : α}
    {b : Except ε β} (hx : Logs x.run y.run w (.ok a) calls w₁)
    (hf : Logs (f a).run (g a).run w₁ b more w') :
    Logs (x >>= f).run (y >>= g).run w b (calls ++ more) w' := by
  rw [ExceptT.run_bind, ExceptT.run_bind]
  exact hx.bind hf

omit [Scalar K] in
/-- A sequence ends where its first part fails. -/
theorem Logs.bind_error {x : ExceptT ε (StateM σ) α}
    {y : ExceptT ε (StateM (σ × List (Call K))) α} {f : α → ExceptT ε (StateM σ) β}
    {g : α → ExceptT ε (StateM (σ × List (Call K))) β} {e : ε}
    (hx : Logs x.run y.run w (.error e) calls w') :
    Logs (x >>= f).run (y >>= g).run w (.error e) calls w' := by
  rw [ExceptT.run_bind, ExceptT.run_bind, ← List.append_nil calls]
  exact hx.bind logs_pure

omit [Scalar K] in
theorem Logs.lift {x : StateM σ α} {y : StateM (σ × List (Call K)) α} {a : α}
    (h : Logs x y w a calls w') :
    Logs (ExceptT.lift x : ExceptT ε (StateM σ) α).run (ExceptT.lift y).run w (.ok a) calls w' := by
  rw [ExceptT.run_lift, ExceptT.run_lift, map_eq_pure_bind, map_eq_pure_bind, ← List.append_nil calls]
  exact h.bind logs_pure

variable {backend : Backend (StateM σ) K} {model : Model K} {settings : SolverSettings K}

omit [Scalar K] in
theorem Backend.exists_logs_conflicts (backend : Backend (StateM σ) K) (model : Model K)
    (settings : SolverSettings K) (w : σ) : ∃ reply w',
    Logs (backend.conflicts model settings) (backend.logging.conflicts model settings) w reply
      [.conflicts model settings reply] w' :=
  ⟨_, _, rfl, fun _ => rfl⟩

omit [Scalar K] in
theorem Backend.exists_logs_attempt (backend : Backend (StateM σ) K) (model : Model K)
    (settings : SolverSettings K) (w : σ) : ∃ reply w',
    Logs (backend.attempt model settings).run (backend.logging.attempt model settings).run w
      (reply.mapError RunError.model) [.solve model settings reply] w' :=
  ⟨_, _, rfl, fun _ => rfl⟩

/-- A first attempt, and a second one after some replies. -/
def Backend.tried {m : Type → Type} [Monad m] (backend : Backend m K) (model : Model K)
    (settings : SolverSettings K) (retries : Solution K → Bool) :
    ExceptT (RunError K) m (Solution K) := do
  let first ← backend.attempt model settings
  if retries first then backend.attempt model settings.numericallyFocused else return first

theorem Backend.tried_bind {retries : Solution K → Bool}
    {f : Solution K → ExceptT (RunError K) (StateM σ) α} :
    backend.tried model settings retries >>= f =
      backend.attempt model settings >>= fun first =>
        if retries first = true then backend.attempt model settings.numericallyFocused >>= f
        else pure first >>= f := by
  rw [tried, bind_assoc]
  congr 1
  funext first
  split_ifs <;> rfl

/-- One call or two are logged, and the reply of the last one counts. -/
theorem Backend.exists_logs_tried (backend : Backend (StateM σ) K) (model : Model K)
    (settings : SolverSettings K) (w : σ) (retries : Solution K → Bool) {again : Solution K → Prop}
    (hagain : ∀ s, retries s = true ↔ again s) : ∃ calls last w',
      Tries model settings again calls last ∧
      Logs (backend.tried model settings retries).run
        (backend.logging.tried model settings retries).run w (last.mapError RunError.model) calls
        w' := by
  obtain ⟨reply, w₁, hfirst⟩ := backend.exists_logs_attempt model settings w
  cases reply with
  | error e => exact ⟨_, .error e, w₁, .once (by simp), hfirst.bind_error⟩
  | ok first =>
    by_cases hretries : retries first = true
    · obtain ⟨second, w₂, hsecond⟩ :=
        backend.exists_logs_attempt model settings.numericallyFocused w₁
      refine ⟨_, second, w₂, .twice ((hagain first).mp hretries), hfirst.bind_ok ?_⟩
      rw [if_pos hretries, if_pos hretries]
      exact hsecond
    · refine ⟨[.solve model settings (.ok first)] ++ [], .ok first, w₁, .once ?_,
        hfirst.bind_ok ?_⟩
      · intro s hs
        rw [← Except.ok.inj hs, ← hagain]
        exact hretries
      · rw [if_neg hretries, if_neg hretries]
        exact logs_pure

end Logging

/-- A fold that looks something up in every step succeeds where all of it is found, and fails with the
error for something that is not. -/
theorem foldlM_lookup_cases {ε α β γ : Type} (look : α → Option β) (add : γ → α → β → γ)
    (missing : α → ε) (xs : List α) (acc : γ) :
    (∃ acc', xs.foldlM (fun acc x => match look x with
        | some y => Except.ok (add acc x y)
        | none => .error (missing x)) acc = .ok acc' ∧ ∀ x ∈ xs, (look x).isSome = true) ∨
      ∃ x ∈ xs, xs.foldlM (fun acc x => match look x with
        | some y => Except.ok (add acc x y)
        | none => .error (missing x)) acc = .error (missing x) ∧ look x = none := by
  induction xs generalizing acc with
  | nil => exact .inl ⟨acc, rfl, by simp⟩
  | cons first xs ih =>
    cases hfirst : look first with
    | none => exact .inr ⟨first, List.mem_cons_self, by simp [hfirst, bind, Except.bind], hfirst⟩
    | some y =>
      simp only [List.foldlM_cons, hfirst, List.forall_mem_cons, List.exists_mem_cons_iff]
      rcases ih (add acc first y) with ⟨acc', hfold, hall⟩ | ⟨x, hx, hfold, hnone⟩
      · exact .inl ⟨acc', hfold, rfl, hall⟩
      · exact .inr (.inr ⟨x, hx, hfold, hnone⟩)

omit [Scalar K] in
theorem isRetried_iff_isTroubled {s : Solution K} : s.status.isRetried = true ↔ s.IsTroubled := by
  cases hs : s.status <;> simp [Solution.IsTroubled, Status.isRetried, hs]

namespace PlanningProblem
variable {p : PlanningProblem K} {linking : List String} {settings : SolverSettings K}
  {s : Solution K} {conflicts : Option (List String)}

theorem isRetried_iff : p.isRetried linking s = true ↔
    s.IsTroubled ∨ s.status = .optimal ∧ p.HasNegative linking s := by
  rw [isRetried, Bool.or_eq_true, Bool.and_eq_true, isSome_negativeCapacity?_iff,
    isRetried_iff_isTroubled, Solution.isOptimal, decide_eq_true_iff, HasNegative]

/-- A candidate is read where all linking variables have a value, and refused for one without. -/
theorem ofPoint_cases (p : PlanningProblem K) (linking : List String) (s : Solution K) :
    (∃ c, Candidate.ofPoint p linking s.primal s.objective = .ok c) ∧ p.HasValues linking s ∨
      ∃ name, Candidate.ofPoint p linking s.primal s.objective =
        .error (.planningFailed (.noValue name)) ∧ ¬p.HasValues linking s := by
  rcases foldlM_lookup_cases (fun name => (p.model.variableNamed? name).bind s.value?)
      (fun (values : SortedMap String K) name x => values.insert name x)
      (fun name => RunError.planningFailed (.noValue name)) linking .empty with
    ⟨values, hvalues, hall⟩ | ⟨name, hname, herror, hnone⟩
  · refine .inl ⟨⟨_, bind_eq_ok.mpr ⟨values, hvalues, rfl⟩⟩, fun name hname => ?_⟩
    obtain ⟨x, hx⟩ := Option.isSome_iff_exists.mp (hall name hname)
    obtain ⟨id, hid, hx⟩ := Option.bind_eq_some_iff.mp hx
    exact ⟨id, x, hid, hx⟩
  · refine .inr ⟨name, congrArg (· >>= _) herror, fun hvalues => ?_⟩
    obtain ⟨id, x, hid, hx⟩ := hvalues name hname
    simp [hid, hx] at hnone

/-- The judgement of a reply that is an optimum. -/
theorem judgement_cases (p : PlanningProblem K) (linking : List String)
    (conflicts : Option (List String)) (hs : s.status = .optimal) :
    (∃ c, p.judgement linking (.ok s) conflicts = .ok c) ∧ p.HasValues linking s ∧
        ¬p.HasNegative linking s ∨
      (∃ fault, p.judgement linking (.ok s) conflicts = .error (.planningFailed fault)) ∧
        (p.HasNegative linking s ∨ ¬p.HasValues linking s) := by
  have hnegative : p.HasNegative linking s ↔ (p.negativeCapacity? linking s).isSome = true :=
    isSome_negativeCapacity?_iff.symm
  rw [hnegative]
  cases hfound : p.negativeCapacity? linking s with
  | some entry =>
    exact .inr ⟨⟨.negative entry.1 entry.2, by simp only [judgement, hs, hfound]⟩, .inl rfl⟩
  | none =>
    have hjudged : p.judgement linking (.ok s) conflicts =
        Candidate.ofPoint p linking s.primal s.objective := by
      simp only [judgement, hs, hfound]
    rw [hjudged]
    rcases p.ofPoint_cases linking s with ⟨hread, hvalues⟩ | ⟨name, hread, hmissing⟩
    · exact .inl ⟨hread, hvalues, Bool.false_ne_true⟩
    · exact .inr ⟨⟨_, hread⟩, .inr hmissing⟩

theorem exists_judgement_eq_ok_iff {last : Except (ModelError K) (Solution K)} :
    (∃ c, p.judgement linking last conflicts = .ok c) ↔ ∃ s, last = .ok s ∧ s.status = .optimal ∧
      p.HasValues linking s ∧ ¬p.HasNegative linking s := by
  cases last with
  | error e => simp [judgement]
  | ok s =>
    simp only [Except.ok.injEq, exists_eq_left']
    cases hs : s.status with
    | optimal =>
      rcases p.judgement_cases linking conflicts hs with
        ⟨hread, hgood⟩ | ⟨⟨fault, hread⟩, hbad⟩
      · exact iff_of_true hread ⟨rfl, hgood⟩
      · rw [hread]
        exact iff_of_false (by simp) fun hgood => hbad.elim hgood.2.2 (· hgood.2.1)
    | unbounded | infeasible | iterationLimit | numericalFailure => simp [judgement, hs]

theorem exists_judgement_eq_planningFailed_iff {last : Except (ModelError K) (Solution K)} :
    (∃ fault, p.judgement linking last conflicts = .error (.planningFailed fault)) ↔
      ∃ s, last = .ok s ∧ (s.status = .unbounded ∨
        s.status = .optimal ∧ (p.HasNegative linking s ∨ ¬p.HasValues linking s)) := by
  cases last with
  | error e => simp [judgement]
  | ok s =>
    simp only [Except.ok.injEq, exists_eq_left']
    cases hs : s.status with
    | optimal =>
      rcases p.judgement_cases linking conflicts hs with
        ⟨⟨c, hread⟩, hvalues, hnegative⟩ | ⟨hread, hbad⟩
      · rw [hread]
        exact iff_of_false (by simp) fun hbad =>
          hbad.elim (by simp) fun hbad => hbad.2.elim hnegative (· hvalues)
      · exact iff_of_true hread (.inr ⟨rfl, hbad⟩)
    | unbounded | infeasible | iterationLimit | numericalFailure => simp [judgement, hs]

theorem concludes_of_error (e : ModelError K) :
    p.Concludes linking settings (.error e) [] (p.judgement linking (.error e) none) where
  succeeds := exists_judgement_eq_ok_iff
  fails := exists_judgement_eq_planningFailed_iff
  explains := by simp
  silent := by simp
  errs := fun _ hsame => ⟨rfl, Except.error.inj hsame ▸ rfl⟩

theorem concludes_of_solved (hs : s.status = .optimal ∨ s.status = .unbounded) :
    p.Concludes linking settings (.ok s) [] (p.judgement linking (.ok s) none) where
  succeeds := exists_judgement_eq_ok_iff
  fails := exists_judgement_eq_planningFailed_iff
  explains := by
    intro s' hsame hoptimal hunbounded
    cases hsame
    exact (hs.elim hoptimal hunbounded).elim
  silent := fun _ _ _ => rfl
  errs := by simp

theorem concludes_of_unsolved (hoptimal : s.status ≠ .optimal) (hunbounded : s.status ≠ .unbounded)
    (reply : Except (ModelError K) (Option (List String))) :
    p.Concludes linking settings (.ok s) [.conflicts p.model settings reply]
      (p.judgement linking (.ok s) reply.toOption.join) where
  succeeds := exists_judgement_eq_ok_iff
  fails := exists_judgement_eq_planningFailed_iff
  explains := by
    intro s' hsame _ _
    cases hsame
    refine ⟨reply, rfl, ?_⟩
    cases hs : s.status <;> simp_all [judgement]
  silent := by
    intro s' hsame hstatus
    cases hsame
    exact (hstatus.elim hoptimal hunbounded).elim
  errs := by simp

/-- Solving keeps to the protocol on every backend and from every world. -/
theorem solve_keepsProtocol (p : PlanningProblem K) (linking : List String)
    (settings : SolverSettings K) (backend : Backend (StateM σ) K) (w : σ) :
    p.KeepsProtocol linking settings backend w := by
  obtain ⟨calls, last, w₁, htries, hlogs⟩ := backend.exists_logs_tried p.model settings w
    (p.isRetried linking) fun s => isRetried_iff
  suffices hrest : ∃ asked w',
      Logs (p.solve backend linking settings).run (p.solve backend.logging linking settings).run w
        (p.judgement linking last (explained asked)) (calls ++ asked) w' ∧
      p.Concludes linking settings last asked (p.judgement linking last (explained asked)) by
    obtain ⟨asked, w', hsolve, hconcludes⟩ := hrest
    exact ⟨calls, last, asked, w', hsolve, htries, hconcludes⟩
  unfold PlanningProblem.solve
  rw [← Backend.tried_bind, ← Backend.tried_bind]
  cases last with
  | error e =>
    refine ⟨[], w₁, ?_, concludes_of_error e⟩
    rw [List.append_nil]
    exact hlogs.bind_error
  | ok s =>
    cases hs : s.status with
    | optimal =>
      refine ⟨[], w₁, hlogs.bind_ok ?_, concludes_of_solved (.inl hs)⟩
      cases hnegative : p.negativeCapacity? linking s with
      | some entry =>
        simp only [judgement, hs, hnegative]
        exact logs_pure
      | none =>
        simp only [judgement, hs, hnegative]
        exact logs_pure
    | unbounded =>
      refine ⟨[], w₁, hlogs.bind_ok ?_, concludes_of_solved (.inr hs)⟩
      simp only [judgement, hs]
      exact logs_pure
    | infeasible | iterationLimit | numericalFailure =>
      obtain ⟨reply, w₂, hconflicts⟩ := backend.exists_logs_conflicts p.model settings w₁
      refine ⟨[.conflicts p.model settings reply], w₂, hlogs.bind_ok ?_,
        concludes_of_unsolved (by simp [hs]) (by simp [hs]) reply⟩
      simp only [judgement, hs]
      refine (hconflicts.lift.bind_ok ?_ : Logs _ _ w₁ _ ([.conflicts p.model settings reply] ++ []) w₂)
      cases reply with
      | ok names => exact logs_pure
      | error e => exact logs_pure

end PlanningProblem

namespace Evaluator
variable {e : Evaluator K} {s : Subproblem K} {automatic : Bool} {reply : Solution K}

theorem isElastic_fixRow (e : Evaluator K) (row : ℕ) (value : K) :
    (e.fixRow row value).1.isElastic = e.isElastic := by
  unfold fixRow
  cases e.model.setRhs row value with
  | error x => rfl
  | ok model =>
    cases helastic : e.elastic with
    | none => simp [isElastic, helastic]
    | some elastic =>
      dsimp only
      cases elastic.1.setRhs row value <;> simp [isElastic, helastic]

theorem isElastic_fixRows (values : SortedMap String K) (rows : List (String × ℕ))
    (e : Evaluator K) : (fixRows values rows e).1.isElastic = e.isElastic :=
  fixRows_keeps isElastic_fixRow values rows e

/-- There are slacks just where there is a penalty, given or automatic. -/
theorem isElastic_of_ofSubproblem (h : ofSubproblem s automatic = .ok e) :
    e.isElastic = (s.slackPenalty.isSome || automatic) := by
  obtain ⟨⟨model, rows⟩, hfixing, h⟩ := bind_eq_ok.mp h
  have hpenalty : (s.slackPenalty.or
      (if automatic then some model.automaticSlackPenalty else none)).isSome =
        (s.slackPenalty.isSome || automatic) := by
    cases s.slackPenalty <;> cases automatic <;> rfl
  rw [← hpenalty]
  simp only at h
  split at h
  · rename_i hnone
    rw [← Except.ok.inj h, hnone]
    rfl
  · rename_i penalty hsome
    rw [hsome]
    cases helastic : model.relaxWithPenalty penalty with
    | mk elastic verdict =>
      cases verdict with
      | error x => simp [helastic] at h
      | ok slacks =>
        simp only [helastic] at h
        rw [← Except.ok.inj h]
        rfl

theorem Serves.keeps (h : Serves s automatic e) :
    e.index = s.index ∧ e.isElastic = (s.slackPenalty.isSome || automatic) := by
  induction h with
  | fresh h => exact ⟨(ofSubproblem_cases h).2.1, isElastic_of_ofSubproblem h⟩
  | refixed values _ ih =>
    obtain ⟨hindex, helastic⟩ := ih
    exact ⟨(index_fixRows values _ _).trans hindex, (isElastic_fixRows values _ _).trans helastic⟩

/-- An outcome is read where all fixing rows have a price, and refused for one without. -/
theorem optimalOutcome_cases (e : Evaluator K) (reply : Solution K) :
    (∃ prices, e.optimalOutcome reply =
        .ok (.optimal reply.objective prices (e.usedSlack reply))) ∧
        (∀ entry ∈ e.fixingRows, (reply.dual? entry.2).isSome = true) ∨
      (∃ name, e.optimalOutcome reply = .error (.subproblemFailed e.index (.noDual name))) ∧
        ∃ entry ∈ e.fixingRows, reply.dual? entry.2 = none := by
  rcases foldlM_lookup_cases (fun entry : String × ℕ => reply.dual? entry.2)
      (fun (prices : SortedMap String K) entry price => prices.insert entry.1 price)
      (fun entry => RunError.subproblemFailed (K := K) e.index (.noDual entry.1))
      e.fixingRows .empty with
    ⟨prices, hprices, hall⟩ | ⟨entry, hentry, herror, hnone⟩
  · exact .inl ⟨⟨prices, bind_eq_ok.mpr ⟨prices, hprices, rfl⟩⟩, hall⟩
  · exact .inr ⟨⟨entry.1, congrArg (· >>= _) herror⟩, entry, hentry, hnone⟩

omit [Scalar K] in
theorem concludes_of_error {rows : List (String × ℕ)} (x : ModelError K) :
    s.Concludes automatic rows (.error x) (.error (.model x)) where
  optimal := by simp
  infeasible := by simp
  fails := by simp
  errs := fun _ hsame => Except.error.inj hsame ▸ rfl

omit [Scalar K] in
theorem concludes_of_fault {rows : List (String × ℕ)} {fault : SubproblemFault}
    (hoptimal : reply.status = .optimal → ∃ entry ∈ rows, reply.dual? entry.2 = none)
    (hinfeasible : reply.status = .infeasible →
      reply.certificate = none ∨ (s.slackPenalty.isSome || automatic) = true) :
    s.Concludes automatic rows (.ok reply) (.error (.subproblemFailed s.index fault)) where
  optimal := by
    refine iff_of_false (by simp) ?_
    rintro ⟨reply', hsame, hstatus, hall⟩
    cases hsame
    obtain ⟨entry, hentry, hnone⟩ := hoptimal hstatus
    simpa [hnone] using hall entry hentry
  infeasible := by
    refine iff_of_false (by simp) ?_
    rintro ⟨reply', hsame, hstatus, hcertificate, hpenalty, hautomatic⟩
    cases hsame
    rcases hinfeasible hstatus with hnone | hsome
    · simp [hnone] at hcertificate
    · simp [hpenalty, hautomatic] at hsome
  fails := fun _ _ _ => ⟨fault, rfl⟩
  errs := by simp

theorem Serves.concludes_of_optimal (h : Serves s automatic e) (hreply : reply.status = .optimal) :
    s.Concludes automatic e.fixingRows (.ok reply) (e.outcome reply) := by
  have houtcome : e.outcome reply = e.optimalOutcome reply := by simp only [outcome, hreply]
  rw [houtcome]
  rcases e.optimalOutcome_cases reply with ⟨⟨prices, hread⟩, hall⟩ | ⟨⟨name, hread⟩, hmissing⟩
  · rw [hread]
    constructor
    case optimal => exact iff_of_true ⟨_, _, _, rfl⟩ ⟨reply, rfl, hreply, hall⟩
    case infeasible => simp [hreply]
    case fails => exact fun _ _ hfails => (hfails _ rfl).elim
    case errs => simp
  · rw [hread, h.keeps.1]
    exact concludes_of_fault (fun _ => hmissing) (by simp [hreply])

theorem Serves.concludes_of_infeasible (h : Serves s automatic e)
    (hreply : reply.status = .infeasible) :
    s.Concludes automatic e.fixingRows (.ok reply) (e.outcome reply) := by
  obtain ⟨hindex, helastic⟩ := h.keeps
  simp only [outcome, hreply, infeasibleOutcome, helastic]
  by_cases hslacks : (s.slackPenalty.isSome || automatic) = true
  · rw [if_pos hslacks, hindex]
    exact concludes_of_fault (by simp [hreply]) fun _ => .inr hslacks
  · rw [if_neg hslacks]
    cases hcertificate : reply.certificate with
    | none =>
      simp only [hindex]
      exact concludes_of_fault (by simp [hreply]) fun _ => .inl hcertificate
    | some c =>
      obtain ⟨hpenalty, hautomatic⟩ : s.slackPenalty = none ∧ automatic = false := by
        simpa using hslacks
      constructor
      case optimal => simp [hreply]
      case infeasible =>
        exact iff_of_true ⟨_, _, rfl⟩
          ⟨reply, rfl, hreply, by simp [hcertificate], hpenalty, hautomatic⟩
      case fails => exact fun _ _ hfails => (hfails _ rfl).elim
      case errs => simp

theorem Serves.concludes (h : Serves s automatic e) (last : Except (ModelError K) (Solution K)) :
    s.Concludes automatic e.fixingRows last (last.mapError RunError.model >>= e.outcome) := by
  cases last with
  | error x => exact concludes_of_error x
  | ok reply =>
    change s.Concludes automatic e.fixingRows (.ok reply) (e.outcome reply)
    cases hreply : reply.status with
    | optimal => exact h.concludes_of_optimal hreply
    | infeasible => exact h.concludes_of_infeasible hreply
    | unbounded | iterationLimit | numericalFailure =>
      simp only [outcome, hreply, h.keeps.1]
      exact concludes_of_fault (by simp [hreply]) (by simp [hreply])

/-- Evaluating keeps to the protocol on every backend and from every world. -/
theorem Serves.evaluate_keepsProtocol (h : Serves s automatic e) (values : SortedMap String K)
    (settings : SolverSettings K) (backend : Backend (StateM σ) K) (w : σ) :
    e.KeepsProtocol s automatic values settings backend w := by
  constructor
  · intro fixed x hfix
    unfold evaluate
    rw [hfix]
    exact logs_pure
  · intro fixed hfix
    have hserves : Serves s automatic fixed := by
      have hrefixed := h.refixed values
      rwa [hfix] at hrefixed
    obtain ⟨calls, last, w', htries, hlogs⟩ := backend.exists_logs_tried fixed.activeModel settings w
      (fun reply => reply.status.isRetried) fun reply => isRetried_iff_isTroubled
    refine ⟨calls, last, w', ?_, htries, hserves.concludes last⟩
    unfold evaluate
    rw [hfix, ← List.append_nil calls]
    exact hlogs.bind logs_pure

end Evaluator

/-- Whatever a backend replies, a planning problem or a subproblem with its linking values set is solved
once with the given settings, and a second and last time with more careful ones just after a reply that
asks for it. The last reply decides what comes of it, and conflicts are only asked for, once, where the
planning problem stays unsolved. -/
theorem solves_are_retried_once :
    (∀ (p : PlanningProblem K) (linking : List String) (settings : SolverSettings K) (σ : Type)
      (backend : Backend (StateM σ) K) (w : σ), p.KeepsProtocol linking settings backend w) ∧
    ∀ (s : Subproblem K) (automatic : Bool) (e : Evaluator K), Evaluator.Serves s automatic e →
      ∀ (values : SortedMap String K) (settings : SolverSettings K) (σ : Type)
        (backend : Backend (StateM σ) K) (w : σ),
        e.KeepsProtocol s automatic values settings backend w :=
  ⟨fun p linking settings _ backend w => p.solve_keepsProtocol linking settings backend w,
    fun _ _ _ h values settings _ backend w => h.evaluate_keepsProtocol values settings backend w⟩

section OnePlant
open Exact (number)

/-- A backend that replies with these solutions in turn and knows no conflicts. -/
def Backend.scripted : Backend (StateM (List (Solution Exact))) Exact where
  solve _ _ := do
    match ← get with
    | [] => return .error (.backend "no reply left")
    | reply :: rest =>
      set rest
      return .ok reply
  conflicts _ _ := return .error (.backend "no conflicts known")

/-- Numerical trouble, and then a certificate. -/
def troubledReplies : List (Solution Exact) :=
  [.without .numericalFailure 7,
    { Solution.without .infeasible 3 with certificate := some ⟨#[number 0, number (-1)], number 1⟩ }]

/-- The outcome for the plant without capacity is read from the second reply. -/
theorem onePlant_evaluated_twice : ∃ s ∈ onePlant.subproblems, ∃ e,
    Evaluator.ofSubproblem s false = .ok e ∧
      e.KeepsProtocol s false (.ofList [("capacity", number 0)]) .default .scripted troubledReplies ∧
      ∃ fixed, Answers (e.evaluate .scripted (.ofList [("capacity", number 0)]) .default)
        troubledReplies
        (fixed, .ok (.infeasible (.ofList [("capacity", number (-1))]) (number 1))) [] := by
  refine ⟨_, List.mem_singleton.mpr rfl, ?_⟩
  obtain ⟨e, he, hanswer, hrest⟩ := exists_ok_of_any
    (x := Evaluator.ofSubproblem (onePlant.subproblems.head (by decide)) false)
    (P := fun e =>
      let answer := ((e.evaluate .scripted (.ofList [("capacity", number 0)]) .default).run
        troubledReplies).run
      answer.1.2 = .ok (.infeasible (.ofList [("capacity", number (-1))]) (number 1)) ∧
        answer.2 = []) (by decide +kernel)
  obtain ⟨-, hevaluates⟩ := solves_are_retried_once (K := Exact)
  exact ⟨e, he, hevaluates _ _ e (.fresh he) _ _ _ _ _, _, Prod.ext (Prod.ext rfl hanswer) hrest⟩

end OnePlant

end BendersPlanning

import BendersPlanning.Operation.Evaluate
import BendersPlanning.Proofs.AccumulatedCuts
import BendersPlanning.Proofs.EditedModels
import Mathlib.Logic.Relation

/-!
# Concurrent evaluations

Several subproblems can be evaluated at the same time. Each evaluation is a task that owns its
evaluator: it fixes its rows one after the other, asks the backend once or twice and reads the outcome.
The steps of different tasks may follow each other in any order, and once a task has failed, tasks that
have not begun may be left out (`Task.Step`).

No task can tell what the others do. So every order of steps ends, and what is returned then is what
each evaluator answers by itself (`IsResultOf`): outcomes by index when all of them succeed, otherwise
the error of one that does not. The same holds when the evaluators are taken one after the other in any
order.
-/

namespace BendersPlanning

namespace Evaluator

variable {K : Type} [Scalar K]

section Meaning

/-- How far the evaluation of one subproblem has come. -/
inductive Stage (K : Type) where
  | waiting
  /-- The rows that are still to be fixed. -/
  | fixing (rows : List (String × ℕ))
  | solving
  | retrying
  | finished (result : Except (RunError K) (OperationOutcome K))
  /-- Never begun, since another evaluation had failed. -/
  | skipped

/-- An evaluation under way. Nothing but its own steps changes its evaluator. -/
structure Task (K : Type) where
  evaluator : Evaluator K
  stage : Stage K

def waitingTask (e : Evaluator K) : Task K := ⟨e, .waiting⟩

variable (backend : Backend Id K) (values : SortedMap String K) (settings : SolverSettings K)

/-- What an evaluator makes of the reply to its last question. -/
def finish (e : Evaluator K) (reply : Except (ModelError K) (Solution K)) : Task K :=
  ⟨e, .finished (reply.mapError RunError.model >>= e.outcome)⟩

namespace Task

/-- The next step of a task; none when it is over. -/
def next? (t : Task K) : Option (Task K) :=
  match t.stage with
  | .waiting => some { t with stage := .fixing t.evaluator.fixingRows }
  | .fixing [] => some { t with stage := .solving }
  | .fixing ((name, row) :: rows) =>
    match values.find? name with
    | none => some { t with
        stage := .finished (.error (.subproblemFailed t.evaluator.index (.noValue name))) }
    | some value =>
      match t.evaluator.fixRow row value with
      | (e, .error x) => some ⟨e, .finished (.error (.model x))⟩
      | (e, .ok ()) => some ⟨e, .fixing rows⟩
  | .solving =>
    match Id.run (backend.solve t.evaluator.activeModel settings) with
    | .ok s =>
      if s.status.isRetried then some { t with stage := .retrying }
      else some (t.evaluator.finish (.ok s))
    | .error x => some (t.evaluator.finish (.error x))
  | .retrying =>
    some (t.evaluator.finish
      (Id.run (backend.solve t.evaluator.activeModel settings.numericallyFocused)))
  | .finished _ | .skipped => none

/-- What the rest of an evaluation comes to when it is done without a break: the evaluator that it
leaves and its result. -/
def completion (t : Task K) : Evaluator K × Except (RunError K) (OperationOutcome K) :=
  match t.stage with
  | .waiting | .skipped => Id.run (t.evaluator.evaluate backend values settings)
  | .fixing rows =>
    match fixRows values rows t.evaluator with
    | (e, .error x) => (e, .error x)
    | (e, .ok ()) => (e, Id.run (e.solveActive backend settings).run >>= e.outcome)
  | .solving =>
    (t.evaluator, Id.run (t.evaluator.solveActive backend settings).run >>= t.evaluator.outcome)
  | .retrying =>
    (t.evaluator,
      (Id.run (backend.solve t.evaluator.activeModel settings.numericallyFocused)).mapError
        RunError.model >>= t.evaluator.outcome)
  | .finished result => (t.evaluator, result)

/-- A bound on the steps that a task has ahead of it. -/
def work (t : Task K) : ℕ :=
  match t.stage with
  | .waiting => t.evaluator.fixingRows.length + 4
  | .fixing rows => rows.length + 3
  | .solving => 2
  | .retrying => 1
  | .finished _ | .skipped => 0

def HasFailed (t : Task K) : Prop := ∃ x, t.stage = .finished (.error x)

/-- The outcome of a task that has succeeded, under the index of its evaluator. -/
def outcome? (t : Task K) : Option (ℕ × OperationOutcome K) :=
  match t.stage with
  | .finished (.ok o) => some (t.evaluator.index, o)
  | _ => none

/-- A step of several tasks at once: one of them moves on, or one that has not begun is left out since
another one has failed. -/
inductive Step : List (Task K) → List (Task K) → Prop
  | advance (before after : List (Task K)) {t t' : Task K}
    (hnext : t.next? backend values settings = some t') :
    Step (before ++ t :: after) (before ++ t' :: after)
  | skip (before after : List (Task K)) (e : Evaluator K)
    (hfailed : ∃ u ∈ before ++ after, u.HasFailed) :
    Step (before ++ ⟨e, .waiting⟩ :: after) (before ++ ⟨e, .skipped⟩ :: after)

abbrev Reaches : List (Task K) → List (Task K) → Prop :=
  Relation.ReflTransGen (Step backend values settings)

/-- What is returned when all tasks are over: the outcomes by index, or one of the errors. -/
inductive Returns (tasks : List (Task K)) :
    Except (RunError K) (SortedMap ℕ (OperationOutcome K)) → Prop
  | outcomes (outcomes : List (ℕ × OperationOutcome K))
    (hall : tasks.map outcome? = outcomes.map some) : Returns tasks (.ok (.ofList outcomes))
  | error {t : Task K} {x : RunError K} (hover : ∀ t ∈ tasks, t.next? backend values settings = none)
    (ht : t ∈ tasks) (hfailed : t.stage = .finished (.error x)) : Returns tasks (.error x)

end Task

/-- The result of an evaluator that is used for nothing else. -/
def answer (e : Evaluator K) : Except (RunError K) (OperationOutcome K) :=
  (Id.run (e.evaluate backend values settings)).2

/-- A result says of some evaluators what they answer by themselves. It does not depend on their
order. -/
inductive IsResultOf (es : List (Evaluator K)) :
    Except (RunError K) (SortedMap ℕ (OperationOutcome K)) → Prop
  | outcomes {outcomes : SortedMap ℕ (OperationOutcome K)}
    (hall : ∀ e ∈ es, ∃ o, e.answer backend values settings = .ok o)
    (hfind : ∀ index o, outcomes.find? index = some o ↔
      ∃ e ∈ es, e.index = index ∧ e.answer backend values settings = .ok o) :
    IsResultOf es (.ok outcomes)
  | error {e : Evaluator K} {x : RunError K} (he : e ∈ es)
    (hfailed : e.answer backend values settings = .error x) : IsResultOf es (.error x)

/-- What evaluating some evaluators can return: all at once with their steps in any order, or one after
the other in any order. -/
inductive CanReturn (es : List (Evaluator K)) :
    Except (RunError K) (SortedMap ℕ (OperationOutcome K)) → Prop
  | concurrent {tasks : List (Task K)} {r : Except (RunError K) (SortedMap ℕ (OperationOutcome K))}
    (hreaches : Task.Reaches backend values settings (es.map waitingTask) tasks)
    (hreturns : Task.Returns backend values settings tasks r) : CanReturn es r
  | sequential {order : List (Evaluator K)} (horder : order.Perm es) :
    CanReturn es (Id.run (evaluateAll backend values settings order .empty)).2

/-- In whatever order the evaluations go, they end, and with one result as far as they succeed. -/
structure IsOrderless (es : List (Evaluator K)) : Prop where
  succeeds : ∀ r, CanReturn backend values settings es r →
    ((∃ outcomes, r = .ok outcomes) ↔ ∀ e ∈ es, ∃ o, e.answer backend values settings = .ok o)
  answers : ∀ r, CanReturn backend values settings es r → IsResultOf backend values settings es r
  unique : ∀ outcomes r, CanReturn backend values settings es (.ok outcomes) →
    CanReturn backend values settings es r → r = .ok outcomes
  returns : ∀ tasks, Task.Reaches backend values settings (es.map waitingTask) tasks →
    (∃ tasks', Task.Step backend values settings tasks tasks') ∨
      ∃ r, Task.Returns backend values settings tasks r
  ends : ¬∃ run : ℕ → List (Task K), run 0 = es.map waitingTask ∧
    ∀ n, Task.Step backend values settings (run n) (run (n + 1))

end Meaning

variable {backend : Backend Id K} {values : SortedMap String K} {settings : SolverSettings K}
  {es order : List (Evaluator K)} {e : Evaluator K}

section Tasks

theorem run_solveActive (backend : Backend Id K) (settings : SolverSettings K) (e : Evaluator K) :
    Id.run (e.solveActive backend settings).run =
      match Id.run (backend.solve e.activeModel settings) with
      | .error x => .error (.model x)
      | .ok s =>
        if s.status.isRetried then
          (Id.run (backend.solve e.activeModel settings.numericallyFocused)).mapError RunError.model
        else .ok s := by
  have hfirst : Id.run (backend.attempt e.activeModel settings).run =
      (Id.run (backend.solve e.activeModel settings)).mapError RunError.model := rfl
  rw [solveActive, ExceptT.run_bind, Id.run_bind, hfirst]
  cases Id.run (backend.solve e.activeModel settings) with
  | error x => rfl
  | ok s =>
    dsimp only [Except.mapError]
    by_cases hretried : s.status.isRetried = true
    · rw [if_pos hretried, if_pos hretried]
      rfl
    · rw [if_neg hretried, if_neg hretried]
      rfl

theorem index_evaluate (backend : Backend Id K) (values : SortedMap String K)
    (settings : SolverSettings K) (e : Evaluator K) :
    (Id.run (e.evaluate backend values settings)).1.index = e.index := by
  have hindex := index_fixRows values e.fixingRows e
  unfold evaluate fixAt
  cases hfix : fixRows values e.fixingRows e with
  | mk fixed verdict =>
    rw [hfix] at hindex
    cases verdict <;> exact hindex

namespace Task

variable {t t' : Task K} {tasks tasks' : List (Task K)}

/-- A step of a task does not change what the task comes to, and takes it closer to its end. -/
theorem next?_spec (h : t.next? backend values settings = some t') :
    t'.completion backend values settings = t.completion backend values settings ∧
      t'.work < t.work ∧ t'.stage ≠ .skipped := by
  obtain ⟨e, stage⟩ := t
  cases stage with
  | waiting =>
    obtain rfl := Option.some.inj h
    exact ⟨rfl, by simp [work], by simp⟩
  | fixing rows =>
    cases rows with
    | nil =>
      obtain rfl := Option.some.inj h
      exact ⟨rfl, by simp [work], by simp⟩
    | cons entry rows =>
      simp only [next?] at h
      simp only [completion, fixRows]
      cases hvalue : values.find? entry.1 with
      | none =>
        rw [hvalue] at h
        obtain rfl := Option.some.inj h
        exact ⟨rfl, by simp [work], by simp⟩
      | some value =>
        rw [hvalue] at h
        dsimp only at h ⊢
        rcases hfix : e.fixRow entry.2 value with ⟨fixed, x | _⟩
        all_goals
          rw [hfix] at h
          obtain rfl := Option.some.inj h
          exact ⟨rfl, by simp [work], by simp⟩
  | solving =>
    simp only [next?] at h
    simp only [completion, run_solveActive]
    split at h
    · rename_i s hsolve
      rw [hsolve]
      dsimp only
      split_ifs at h with hretried <;> obtain rfl := Option.some.inj h
      · exact ⟨by rw [if_pos hretried], by simp [work], by simp⟩
      · exact ⟨by rw [if_neg hretried]; rfl, by simp [work, finish], by simp [finish]⟩
    · rename_i x hsolve
      rw [hsolve]
      obtain rfl := Option.some.inj h
      exact ⟨rfl, by simp [work, finish], by simp [finish]⟩
  | retrying =>
    obtain rfl := Option.some.inj h
    exact ⟨rfl, by simp [work, finish], by simp [finish]⟩
  | finished result => cases h
  | skipped => cases h

/-- A task that is over has failed, was left out, or has an outcome. -/
theorem cases_of_next?_eq_none (h : t.next? backend values settings = none) :
    t.HasFailed ∨ t.stage = .skipped ∨ ∃ o, t.outcome? = some (t.evaluator.index, o) := by
  obtain ⟨e, stage⟩ := t
  cases stage with
  | finished result =>
    cases result with
    | error x => exact .inl ⟨x, rfl⟩
    | ok o => exact .inr (.inr ⟨o, rfl⟩)
  | skipped => exact .inr (.inl rfl)
  | waiting | retrying => cases h
  | fixing rows =>
    cases rows with
    | nil => cases h
    | cons entry rows =>
      simp only [next?] at h
      split at h
      · cases h
      · split at h <;> cases h
  | solving =>
    simp only [next?] at h
    split at h
    · split_ifs at h
    · cases h

theorem next?_of_hasFailed (h : t.HasFailed) : t.next? backend values settings = none := by
  obtain ⟨x, hx⟩ := h
  rw [next?, hx]

theorem index_completion (t : Task K) :
    (t.completion backend values settings).1.index = t.evaluator.index := by
  obtain ⟨e, stage⟩ := t
  cases stage with
  | fixing rows =>
    have hindex := index_fixRows values rows e
    simp only [completion]
    split <;>
    · rename_i hfix
      rwa [hfix] at hindex
  | waiting | skipped => exact index_evaluate ..
  | solving | retrying | finished result => rfl

theorem completion_of_outcome? {o : ℕ × OperationOutcome K} (h : t.outcome? = some o) :
    (t.completion backend values settings).1.index = o.1 ∧
      (t.completion backend values settings).2 = .ok o.2 := by
  rw [index_completion]
  unfold outcome? at h
  split at h
  · rename_i hstage
    obtain rfl := Option.some.inj h
    exact ⟨rfl, by rw [completion, hstage]⟩
  · cases h

variable (backend values settings) in
/-- Tasks on the way to what some evaluators answer. None is left out without a failure. -/
structure Pursue (es : List (Evaluator K)) (tasks : List (Task K)) : Prop where
  completion : tasks.map (·.completion backend values settings) =
    es.map fun e => Id.run (e.evaluate backend values settings)
  skipped : ∀ t ∈ tasks, t.stage = .skipped → ∃ u ∈ tasks, u.HasFailed

theorem pursue_waiting (es : List (Evaluator K)) :
    Pursue backend values settings es (es.map waitingTask) where
  completion := by
    rw [List.map_map]
    rfl
  skipped t ht hskipped := by
    obtain ⟨e, -, rfl⟩ := List.mem_map.mp ht
    cases hskipped

theorem Pursue.step (h : Pursue backend values settings es tasks)
    (hstep : Step backend values settings tasks tasks') :
    Pursue backend values settings es tasks' := by
  obtain ⟨hcompletion, hskipped⟩ := h
  cases hstep with
  | @advance before after t t' hnext =>
    obtain ⟨hsame, -, hbegun⟩ := next?_spec hnext
    refine ⟨?_, fun u hu hu' => ?_⟩
    · rwa [List.map_append, List.map_cons, hsame, ← List.map_cons, ← List.map_append]
    · obtain ⟨f, hf, hfailed⟩ : ∃ f ∈ before ++ t :: after, f.HasFailed := by
        refine hskipped u ?_ hu'
        grind
      refine ⟨f, ?_, hfailed⟩
      have hne : f ≠ t := by
        rintro rfl
        rw [next?_of_hasFailed hfailed] at hnext
        cases hnext
      grind
  | skip before after e hfailed =>
    obtain ⟨f, hf, hfailed⟩ := hfailed
    refine ⟨?_, fun _ _ _ => ⟨f, ?_, hfailed⟩⟩
    · rwa [List.map_append, List.map_cons] at hcompletion ⊢
    · grind

theorem Pursue.reaches (h : Pursue backend values settings es tasks)
    (hreaches : Reaches backend values settings tasks tasks') :
    Pursue backend values settings es tasks' := by
  induction hreaches with
  | refl => exact h
  | tail _ hstep ih => exact ih.step hstep

/-- Tasks that cannot go on return something: nothing waits for anything else. -/
theorem Pursue.step_or_returns (h : Pursue backend values settings es tasks) :
    (∃ tasks', Step backend values settings tasks tasks') ∨
      ∃ r, Returns backend values settings tasks r := by
  by_cases hover : ∀ t ∈ tasks, t.next? backend values settings = none
  · right
    by_cases hfailed : ∃ t ∈ tasks, t.HasFailed
    · obtain ⟨t, ht, x, hx⟩ := hfailed
      exact ⟨_, .error hover ht hx⟩
    · have hdone : ∀ t ∈ tasks, ∃ o, t.outcome? = some o := by
        intro t ht
        obtain hcase | hcase | ⟨o, ho⟩ := cases_of_next?_eq_none (hover t ht)
        · exact (hfailed ⟨t, ht, hcase⟩).elim
        · exact (hfailed (h.skipped t ht hcase)).elim
        · exact ⟨_, ho⟩
      obtain ⟨outcomes, houtcomes⟩ : tasks.map outcome? ∈ Set.range (List.map some) := by
        rw [Set.range_list_map]
        rintro _ hmem
        obtain ⟨t, ht, rfl⟩ := List.mem_map.mp hmem
        obtain ⟨o, ho⟩ := hdone t ht
        exact ⟨o, ho.symm⟩
      exact ⟨_, .outcomes outcomes houtcomes.symm⟩
  · left
    push Not at hover
    obtain ⟨t, ht, hnext⟩ := hover
    obtain ⟨t', hnext⟩ := Option.ne_none_iff_exists'.mp hnext
    obtain ⟨before, after, rfl⟩ := List.append_of_mem ht
    exact ⟨_, .advance before after hnext⟩

theorem work_of_step (h : Step backend values settings tasks tasks') :
    (tasks'.map work).sum < (tasks.map work).sum := by
  cases h with
  | advance before after hnext =>
    have hless := (next?_spec hnext).2.1
    simp only [List.map_append, List.map_cons, List.sum_append, List.sum_cons]
    omega
  | skip before after e hfailed =>
    simp only [List.map_append, List.map_cons, List.sum_append, List.sum_cons, work]
    omega

/-- However the steps follow each other, there is a last one. -/
theorem not_exists_endless (backend : Backend Id K) (values : SortedMap String K)
    (settings : SolverSettings K) :
    ¬∃ run : ℕ → List (Task K), ∀ n, Step backend values settings (run n) (run (n + 1)) := by
  rintro ⟨run, hrun⟩
  have hbound : ∀ n, ((run n).map work).sum + n ≤ ((run 0).map work).sum := by
    intro n
    induction n with
    | zero => exact Nat.le_refl _
    | succ n ih =>
      have := work_of_step (hrun n)
      omega
  have := hbound (((run 0).map work).sum + 1)
  omega

end Task

end Tasks

section Results

theorem IsResultOf.of_perm {r : Except (RunError K) (SortedMap ℕ (OperationOutcome K))}
    (h : IsResultOf backend values settings order r) (horder : order.Perm es) :
    IsResultOf backend values settings es r := by
  cases h with
  | outcomes hall hfind =>
    refine .outcomes (fun e he => hall e (horder.mem_iff.mpr he)) fun index o => ?_
    rw [hfind]
    simp only [horder.mem_iff]
  | error he hfailed => exact .error (horder.mem_iff.mp he) hfailed

/-- Outcomes under the indices of the evaluators that answer them are a result of these. -/
theorem isResultOf_ofList {outcomes : List (ℕ × OperationOutcome K)}
    (hindices : (es.map (·.index)).Nodup)
    (h : es.map (fun e => (e.index, e.answer backend values settings)) =
      outcomes.map fun o => (o.1, .ok o.2)) :
    IsResultOf backend values settings es (.ok (.ofList outcomes)) := by
  have hkeys : (outcomes.map (·.1)).Nodup := by
    have hsame := congrArg (List.map Prod.fst) h
    simp only [List.map_map, Function.comp_def] at hsame
    rwa [← hsame]
  have hmem : ∀ index r, (∃ e ∈ es, e.index = index ∧ e.answer backend values settings = r) ↔
      ∃ o, (index, o) ∈ outcomes ∧ r = .ok o := by
    intro index r
    have hiff : (index, r) ∈ es.map (fun e => (e.index, e.answer backend values settings)) ↔
      (index, r) ∈ outcomes.map fun o => (o.1, Except.ok o.2) := by rw [h]
    simpa [eq_comm, and_assoc] using hiff
  refine .outcomes (fun e he => ?_) fun index o => ?_
  · obtain ⟨o, -, ho⟩ := (hmem e.index _).mp ⟨e, he, rfl, rfl⟩
    exact ⟨o, ho⟩
  · rw [SortedMap.find?_eq_some_iff, (SortedMap.ofList_perm hkeys).mem_iff, hmem]
    simp

/-- Tasks that succeed have the results of their outcomes. -/
theorem Task.completion_of_outcomes {tasks : List (Task K)}
    {outcomes : List (ℕ × OperationOutcome K)}
    (h : tasks.map Task.outcome? = outcomes.map some) :
    (tasks.map fun t => ((t.completion backend values settings).1.index,
      (t.completion backend values settings).2)) = outcomes.map fun o => (o.1, .ok o.2) := by
  induction tasks generalizing outcomes with
  | nil =>
    cases outcomes with
    | nil => rfl
    | cons o outcomes => cases h
  | cons t tasks ih =>
    obtain _ | ⟨o, outcomes⟩ := outcomes
    · cases h
    · obtain ⟨ht, htasks⟩ := List.cons.inj h
      have hhead : (t.completion backend values settings).1.index = o.1 ∧
          (t.completion backend values settings).2 = .ok o.2 := completion_of_outcome? ht
      rw [List.map_cons, List.map_cons, hhead.1, hhead.2, ih htasks]

theorem Task.Pursue.isResultOf {tasks : List (Task K)}
    {r : Except (RunError K) (SortedMap ℕ (OperationOutcome K))}
    (h : Pursue backend values settings es tasks) (hindices : (es.map (·.index)).Nodup)
    (hreturns : Returns backend values settings tasks r) :
    IsResultOf backend values settings es r := by
  cases hreturns with
  | outcomes outcomes hall =>
    refine isResultOf_ofList hindices ?_
    rw [← completion_of_outcomes hall]
    have hsame := congrArg (List.map fun q => (q.1.index, q.2)) h.completion
    simp only [List.map_map, Function.comp_def, index_evaluate] at hsame
    exact hsame.symm
  | @error t x hover ht hfailed =>
    have hmem := List.mem_map_of_mem (f := (·.completion backend values settings)) ht
    rw [h.completion] at hmem
    obtain ⟨e, he, hsame⟩ := List.mem_map.mp hmem
    refine .error he ?_
    rw [answer, hsame, Task.completion, hfailed]

/-- Evaluating one after the other collects the answers up to the first failure. -/
theorem evaluateAll_cases (backend : Backend Id K) (values : SortedMap String K)
    (settings : SolverSettings K) (es : List (Evaluator K))
    (start : SortedMap ℕ (OperationOutcome K)) :
    (∃ outcomes : List (ℕ × OperationOutcome K),
      es.map (fun e => (e.index, e.answer backend values settings)) =
        outcomes.map (fun o => (o.1, .ok o.2)) ∧
      (Id.run (evaluateAll backend values settings es start)).2 =
        .ok (outcomes.foldl (fun m o => m.insert o.1 o.2) start)) ∨
    ∃ e ∈ es, ∃ x, e.answer backend values settings = .error x ∧
      (Id.run (evaluateAll backend values settings es start)).2 = .error x := by
  induction es generalizing start with
  | nil => exact .inl ⟨[], rfl, rfl⟩
  | cons e es ih =>
    have hindex := index_evaluate backend values settings e
    rw [evaluateAll, Id.run_bind]
    cases hfirst : Id.run (e.evaluate backend values settings) with
    | mk e' result =>
      have hanswer : e.answer backend values settings = result := by rw [answer, hfirst]
      rw [hfirst] at hindex
      cases result with
      | error x => exact .inr ⟨e, List.mem_cons_self, x, hanswer, rfl⟩
      | ok o =>
        rcases ih (start.insert e'.index o) with ⟨outcomes, hmap, hrest⟩ | ⟨f, hf, x, hx, hrest⟩
        · refine .inl ⟨(e.index, o) :: outcomes, ?_, ?_⟩
          · rw [List.map_cons, List.map_cons, hmap, hanswer]
          · rw [List.foldl_cons, ← hindex]
            exact hrest
        · exact .inr ⟨f, List.mem_cons_of_mem _ hf, x, hx, hrest⟩

theorem evaluateAll_isResultOf (hindices : (es.map (·.index)).Nodup) :
    IsResultOf backend values settings es
      (Id.run (evaluateAll backend values settings es .empty)).2 := by
  obtain ⟨outcomes, hmap, hresult⟩ | ⟨e, he, x, hx, hresult⟩ :=
    evaluateAll_cases backend values settings es .empty
  · rw [hresult]
    exact isResultOf_ofList hindices hmap
  · rw [hresult]
    exact .error he hx

theorem CanReturn.isResultOf {r : Except (RunError K) (SortedMap ℕ (OperationOutcome K))}
    (h : CanReturn backend values settings es r) (hindices : (es.map (·.index)).Nodup) :
    IsResultOf backend values settings es r := by
  cases h with
  | concurrent hreaches hreturns =>
    exact ((Task.pursue_waiting es).reaches hreaches).isResultOf hindices hreturns
  | sequential horder =>
    exact (evaluateAll_isResultOf ((horder.map _).nodup_iff.mpr hindices)).of_perm horder

namespace IsResultOf

variable {r r' : Except (RunError K) (SortedMap ℕ (OperationOutcome K))}

theorem isOk_iff (h : IsResultOf backend values settings es r) :
    (∃ outcomes, r = .ok outcomes) ↔ ∀ e ∈ es, ∃ o, e.answer backend values settings = .ok o := by
  cases h with
  | outcomes hall hfind => exact iff_of_true ⟨_, rfl⟩ hall
  | error he hfailed =>
    refine iff_of_false nofun fun hall => ?_
    obtain ⟨o, ho⟩ := hall _ he
    rw [hfailed] at ho
    cases ho

/-- There is one map of outcomes that can be returned, whatever the order. -/
theorem eq_of_ok {outcomes : SortedMap ℕ (OperationOutcome K)}
    (h : IsResultOf backend values settings es (.ok outcomes))
    (h' : IsResultOf backend values settings es r) : r = .ok outcomes := by
  obtain ⟨outcomes', rfl⟩ := h'.isOk_iff.mpr (h.isOk_iff.mp ⟨_, rfl⟩)
  cases h with
  | outcomes _ hfind =>
    cases h' with
    | outcomes _ hfind' =>
      refine congrArg Except.ok (SortedMap.ext_find? fun index => Option.ext fun o => ?_)
      rw [hfind, hfind']

end IsResultOf

theorem isOrderless (backend : Backend Id K) (values : SortedMap String K)
    (settings : SolverSettings K) (hindices : (es.map (·.index)).Nodup) :
    IsOrderless backend values settings es where
  succeeds _ hr := (hr.isResultOf hindices).isOk_iff
  answers _ hr := hr.isResultOf hindices
  unique _ _ h hr := (h.isResultOf hindices).eq_of_ok (hr.isResultOf hindices)
  returns _ hreaches := ((Task.pursue_waiting es).reaches hreaches).step_or_returns
  ends := fun ⟨run, _, hrun⟩ => Task.not_exists_endless backend values settings ⟨run, hrun⟩

end Results

end Evaluator

end BendersPlanning

import BendersPlanning.Proofs.ConcurrentEvaluations
import BendersPlanning.Proofs.RunInvariants

/-!
# Distributed runs

A pool of workers takes the evaluations of an iteration through their steps in an order of its own
(`WorkerPool.Interleaves`). Evaluations do not see each other, so where all of them succeed the pool
leaves the same evaluators and returns the same outcomes as a single worker, whatever the order. By
induction on the iterations a distributed run ends with the result of a run in turn, or like it with
none.
-/

namespace BendersPlanning

variable {K : Type} [Scalar K]

section Meaning

/-- Two computations have one result, or both have none. -/
def EndAlike {ε δ α : Type} (x : ExceptT ε Id α) (y : ExceptT δ Id α) : Prop :=
  ∀ a, Id.run x.run = .ok a ↔ Id.run y.run = .ok a

open Evaluator in
/-- Every call of a pool is a course of steps of its tasks, with their evaluators left as the tasks leave
them. The order is free, and another one in every iteration. -/
def WorkerPool.Interleaves (pool : WorkerPool Id K) : Prop :=
  ∀ iteration backend values settings es, ∃ tasks,
    Task.Reaches backend values settings (es.map waitingTask) tasks ∧
      (Id.run (pool.evaluate iteration backend values settings es)).1 = tasks.map (·.evaluator) ∧
      Task.Returns backend values settings tasks
        (Id.run (pool.evaluate iteration backend values settings es)).2

/-- What a run makes of its workers: none are called when it is not distributed, without them it does
not begin, and with them it ends as it would in turn. -/
structure DecomposedProblem.IgnoresWorkers (build : PoolBuilder Id K) (backend : Backend Id K)
    (clock : Clock Id K) (c : Configuration K) (p : DecomposedProblem K) : Prop where
  inTurn : c.distributed = false →
    Id.run (p.runOn build backend clock c).run =
      (Id.run (p.run backend clock c).run).mapError .run
  distributed : ∀ pool, c.distributed = true → Id.run (build c.threads) = .ok pool →
    pool.Interleaves → EndAlike (p.runOn build backend clock c) (p.run backend clock c)
  refused : ∀ reason start, c.distributed = true → Id.run (build c.threads) = .error reason →
    RunState.start c p = .ok start →
      Id.run (p.runOn build backend clock c).run = .error (.workers reason)

end Meaning

namespace Evaluator

variable {backend : Backend Id K} {values : SortedMap String K} {settings : SolverSettings K}
  {es : List (Evaluator K)}

/-- Tasks that succeed leave the evaluators as they would be by themselves. -/
theorem Task.Pursue.evaluators {tasks : List (Task K)}
    {outcomes : SortedMap ℕ (OperationOutcome K)} (h : Pursue backend values settings es tasks)
    (hreturns : Returns backend values settings tasks (.ok outcomes)) :
    tasks.map (·.evaluator) = es.map fun e => (Id.run (e.evaluate backend values settings)).1 := by
  have hdone : ∀ t ∈ tasks, (t.completion backend values settings).1 = t.evaluator := by
    cases hreturns with
    | outcomes outcomes hall =>
      intro t ht
      have hmem := List.mem_map_of_mem (f := outcome?) ht
      rw [hall] at hmem
      obtain ⟨o, -, ho⟩ := List.mem_map.mp hmem
      unfold outcome? at ho
      split at ho
      · rename_i hstage
        rw [Task.completion, hstage]
      · cases ho
  rw [← List.map_congr_left hdone]
  have hcompletion := congrArg (List.map Prod.fst) h.completion
  simpa only [List.map_map, Function.comp_def] using hcompletion

theorem evaluators_evaluateAll {start outcomes : SortedMap ℕ (OperationOutcome K)}
    (h : (Id.run (evaluateAll backend values settings es start)).2 = .ok outcomes) :
    (Id.run (evaluateAll backend values settings es start)).1 =
      es.map fun e => (Id.run (e.evaluate backend values settings)).1 := by
  induction es generalizing start with
  | nil => rfl
  | cons e es ih =>
    rw [evaluateAll, Id.run_bind] at h ⊢
    rw [List.map_cons]
    cases hfirst : Id.run (e.evaluate backend values settings) with
    | mk e' result =>
      rw [hfirst] at h
      cases result with
      | error x => cases h
      | ok o => exact congrArg (e' :: ·) (ih h)

end Evaluator

namespace WorkerPool

open Evaluator

variable {pool : WorkerPool Id K} {iteration : ℕ} {backend : Backend Id K}
  {values : SortedMap String K} {settings : SolverSettings K} {es es' : List (Evaluator K)}
  {outcomes : SortedMap ℕ (OperationOutcome K)}

/-- A pool that returns outcomes does what a single worker does. -/
theorem Interleaves.evaluate_iff (hpool : pool.Interleaves) (hindices : (es.map (·.index)).Nodup) :
    Id.run (pool.evaluate iteration backend values settings es) = (es', .ok outcomes) ↔
      Id.run (evaluateAll backend values settings es .empty) = (es', .ok outcomes) := by
  obtain ⟨tasks, hreaches, hevaluators, hreturns⟩ := hpool iteration backend values settings es
  have horderless := isOrderless backend values settings hindices
  have hpooled := CanReturn.concurrent hreaches hreturns
  have hsequential : CanReturn backend values settings es
      (Id.run (evaluateAll backend values settings es .empty)).2 := .sequential (.refl es)
  constructor
  · intro h
    have hsame := horderless.unique _ _ (h ▸ hpooled) hsequential
    refine Prod.ext ?_ hsame
    rw [evaluators_evaluateAll hsame, ← ((Task.pursue_waiting es).reaches hreaches).evaluators
      (h ▸ hreturns), ← hevaluators, h]
  · intro h
    have hsame := horderless.unique _ _ (h ▸ hsequential) hpooled
    refine Prod.ext ?_ hsame
    rw [hevaluators, ((Task.pursue_waiting es).reaches hreaches).evaluators (hsame ▸ hreturns),
      ← evaluators_evaluateAll (by rw [h]), h]

/-- The evaluators keep their indices. -/
theorem Interleaves.indices (hpool : pool.Interleaves) (hindices : (es.map (·.index)).Nodup)
    (h : Id.run (pool.evaluate iteration backend values settings es) = (es', .ok outcomes)) :
    es'.map (·.index) = es.map (·.index) := by
  have hsequential := (hpool.evaluate_iff hindices).mp h
  have hevaluators : es' = es.map fun e => (Id.run (e.evaluate backend values settings)).1 := by
    rw [← evaluators_evaluateAll (congrArg Prod.snd hsequential), hsequential]
  rw [hevaluators, List.map_map]
  exact List.map_congr_left fun e _ => index_evaluate backend values settings e

end WorkerPool

section Alike

variable {ε δ α β γ : Type} {x : ExceptT ε Id α} {y : ExceptT δ Id α}

theorem run_bind_eq_ok {f : α → ExceptT ε Id β} {b : β} :
    Id.run (x >>= f).run = .ok b ↔ ∃ a, Id.run x.run = .ok a ∧ Id.run (f a).run = .ok b := by
  rw [ExceptT.run_bind, Id.run_bind]
  cases Id.run x.run with
  | error e => exact iff_of_false nofun nofun
  | ok a => exact ⟨fun h => ⟨a, rfl, h⟩, fun ⟨_, ha, h⟩ => Except.ok.inj ha ▸ h⟩

theorem EndAlike.refl (x : ExceptT ε Id α) : EndAlike x x := fun _ => Iff.rfl

theorem EndAlike.bind {f : α → ExceptT ε Id β} {g : α → ExceptT δ Id β} (h : EndAlike x y)
    (hrest : ∀ a, Id.run x.run = .ok a → EndAlike (f a) (g a)) : EndAlike (x >>= f) (y >>= g) := by
  intro b
  rw [run_bind_eq_ok, run_bind_eq_ok]
  refine exists_congr fun a => ?_
  rw [← h a]
  exact and_congr_right fun ha => hrest a ha b

/-- What follows evaluations with the same outcomes comes to the same, if nothing follows a failure. -/
theorem EndAlike.lift_bind {u v : Id (γ × Except ε α)} {f : γ × Except ε α → ExceptT ε Id β}
    (h : ∀ e a, Id.run u = (e, .ok a) ↔ Id.run v = (e, .ok a))
    (hfailed : ∀ e x b, Id.run (f (e, .error x)).run ≠ .ok b) :
    EndAlike (ExceptT.lift u >>= f) (ExceptT.lift v >>= f) := by
  have hrun : ∀ (w : Id (γ × Except ε α)) b, Id.run (ExceptT.lift w >>= f).run = .ok b ↔
      ∃ e a, Id.run w = (e, .ok a) ∧ Id.run (f (e, .ok a)).run = .ok b := by
    intro w b
    rw [run_bind_eq_ok]
    constructor
    · rintro ⟨⟨e, r⟩, hw, hrest⟩
      cases r with
      | error x => exact (hfailed e x b hrest).elim
      | ok a => exact ⟨e, a, Except.ok.inj hw, hrest⟩
    · rintro ⟨e, a, hw, ha⟩
      exact ⟨(e, .ok a), congrArg Except.ok hw, ha⟩
  intro b
  rw [hrun, hrun]
  exact exists_congr fun e => exists_congr fun a => and_congr_left fun _ => h e a

end Alike

namespace RunState

variable {pool : WorkerPool Id K} {backend : Backend Id K} {clock : Clock Id K}
  {c : Configuration K} {linking : List String} {s s' : RunState K}

/-- An iteration on a pool is one in turn. -/
theorem stepOn_endAlike (hpool : pool.Interleaves) (hindices : (s.evaluators.map (·.index)).Nodup) :
    EndAlike (s.stepOn pool backend clock c linking) (s.step backend clock c linking) := by
  unfold step stepOn
  refine EndAlike.bind (.refl _) fun master _ => ?_
  refine EndAlike.bind (.refl _) fun point _ => ?_
  exact EndAlike.lift_bind (fun es outcomes => hpool.evaluate_iff hindices) nofun

/-- An iteration keeps the indices of the evaluators. -/
theorem indices_of_stepOn (hpool : pool.Interleaves) (hindices : (s.evaluators.map (·.index)).Nodup)
    (h : Id.run (s.stepOn pool backend clock c linking).run = .ok s') :
    s'.evaluators.map (·.index) = s.evaluators.map (·.index) := by
  obtain ⟨master, -, h⟩ := run_bind_eq_ok.mp h
  obtain ⟨point, -, h⟩ := run_bind_eq_ok.mp h
  obtain ⟨⟨es, result⟩, hevaluated, h⟩ := run_bind_eq_ok.mp h
  dsimp only at h
  obtain ⟨outcomes, houtcomes, h⟩ := run_bind_eq_ok.mp h
  have hresult : result = .ok outcomes := houtcomes
  obtain ⟨cuts, -, h⟩ := run_bind_eq_ok.mp h
  have hkept : s'.evaluators = es := by
    rcases hadded : s.planning.addCuts cuts with ⟨planning, x | _⟩
    · simp only [hadded] at h
      obtain ⟨_, hthrow, -⟩ := run_bind_eq_ok.mp h
      cases hthrow
    · simp only [hadded] at h
      obtain ⟨_, -, h⟩ := run_bind_eq_ok.mp h
      obtain ⟨elapsed, -, h⟩ := run_bind_eq_ok.mp h
      exact (Except.ok.inj h) ▸ rfl
  rw [hkept]
  exact hpool.indices hindices (hresult ▸ Except.ok.inj hevaluated)

/-- Iterating on a pool is iterating in turn, by induction on the iterations that are left. -/
theorem iterateOn_endAlike (hpool : pool.Interleaves) (more : ℕ)
    (hindices : (s.evaluators.map (·.index)).Nodup) :
    EndAlike (s.iterateOn pool backend clock c linking more)
      (s.iterate backend clock c linking more) := by
  induction more generalizing s with
  | zero =>
    unfold iterate iterateOn
    exact EndAlike.bind (stepOn_endAlike hpool hindices) fun _ _ => .refl _
  | succ more ih =>
    unfold iterate iterateOn
    refine EndAlike.bind (stepOn_endAlike hpool hindices) fun s₁ hstep => ?_
    by_cases hgap : s₁.history.gap ≤ c.convTol
    · rw [if_pos hgap, if_pos hgap]
      exact .refl _
    · rw [if_neg hgap, if_neg hgap]
      by_cases htime : s₁.isTimedOut c = true
      · simp only [htime, if_true]
        exact .refl _
      · simp only [htime]
        exact ih ((indices_of_stepOn hpool hindices hstep).symm ▸ hindices)

theorem completeOn_endAlike (hpool : pool.Interleaves)
    (hindices : (s.evaluators.map (·.index)).Nodup) :
    EndAlike (s.completeOn pool backend clock c linking)
      (s.completeOn .inTurn backend clock c linking) :=
  EndAlike.bind (iterateOn_endAlike hpool _ hindices) fun _ _ => .refl _

/-- The evaluators of a run have different indices. -/
theorem nodup_indices_of_start {p : DecomposedProblem K} (h : RunState.start c p = .ok s) :
    (s.evaluators.map (·.index)).Nodup := by
  obtain ⟨-, hproblem, es, hprepared, rfl⟩ := start_eq_ok.mp h
  have hperm := (List.mergeSort_perm es fun a b => decide (a.index ≤ b.index)).map (·.index)
  rw [hperm.nodup_iff, indices_eq (forall₂_of_mapM_eq_ok hprepared)]
  exact (DecomposedProblem.validate_eq_ok.mp hproblem).indices.nodup_iff.mpr List.nodup_range

end RunState

namespace DecomposedProblem

variable {build : PoolBuilder Id K} {backend : Backend Id K} {clock : Clock Id K}
  {c : Configuration K} {p : DecomposedProblem K}

variable (backend clock c p) in
theorem run_eq : Id.run (p.run backend clock c).run = (RunState.start c p >>= fun start =>
    Id.run (start.completeOn .inTurn backend clock c p.linking).run) := by
  unfold run
  rw [ExceptT.run_bind, Id.run_bind]
  cases RunState.start c p <;> rfl

variable (build backend clock c p) in
/-- Once the evaluators are ready a run is left to the workers, or fails for want of them. -/
theorem runOn_eq : Id.run (p.runOn build backend clock c).run =
    ((RunState.start c p).mapError .run >>= fun start => Id.run (c.workers build).run >>= fun pool =>
      (Id.run (start.completeOn pool backend clock c p.linking).run).mapError .run) := by
  unfold runOn
  rw [ExceptT.run_bind, Id.run_bind]
  cases RunState.start c p with
  | error x => rfl
  | ok start =>
    change Id.run (c.workers build >>= _).run = _
    rw [ExceptT.run_bind, Id.run_bind]
    cases Id.run (c.workers build).run <;> rfl

/-- A run does not tell how many workers it had. -/
theorem ignoresWorkers (build : PoolBuilder Id K) (backend : Backend Id K) (clock : Clock Id K)
    (c : Configuration K) (p : DecomposedProblem K) : p.IgnoresWorkers build backend clock c := by
  have hworkers (hdistributed : c.distributed = true) :
      Id.run (c.workers build).run = (Id.run (build c.threads)).mapError .workers := by
    rw [Configuration.workers, if_pos hdistributed]
    rfl
  constructor
  case inTurn =>
    intro hsingle
    have hone : Id.run (c.workers build).run = .ok .inTurn := by
      rw [Configuration.workers, if_neg (by simp [hsingle])]
      rfl
    rw [runOn_eq, run_eq, hone]
    cases RunState.start c p <;> rfl
  case distributed =>
    intro pool hdistributed hbuild hpool r
    rw [runOn_eq, run_eq, hworkers hdistributed, hbuild, bind_eq_ok, bind_eq_ok]
    refine exists_congr fun start => ?_
    rw [mapError_eq_ok]
    refine and_congr_right fun hstart => ?_
    have hindices := RunState.nodup_indices_of_start hstart
    rw [← RunState.completeOn_endAlike hpool hindices r]
    exact mapError_eq_ok
  case refused =>
    intro reason start hdistributed hbuild hstart
    rw [runOn_eq, hworkers hdistributed, hbuild, hstart]
    rfl

end DecomposedProblem

section OneEach

namespace Evaluator

variable (backend : Backend Id K) (values : SortedMap String K) (settings : SolverSettings K)

def endedTask (answer : Evaluator K × Except (RunError K) (OperationOutcome K)) : Task K :=
  ⟨answer.1, .finished answer.2⟩

namespace Task

/-- A task that is left alone comes to its end. -/
theorem reaches_endedTask (t : Task K) (h : t.stage ≠ .skipped) (before after : List (Task K)) :
    Reaches backend values settings (before ++ t :: after)
      (before ++ endedTask (t.completion backend values settings) :: after) := by
  induction hwork : t.work using Nat.strong_induction_on generalizing t with
  | _ n ih =>
    cases hnext : t.next? backend values settings with
    | some t' =>
      obtain ⟨hsame, hless, hbegun⟩ := next?_spec hnext
      rw [← hsame]
      exact .head (.advance before after hnext) (ih _ (hwork ▸ hless) t' hbegun rfl)
    | none =>
      obtain ⟨e, stage⟩ := t
      obtain ⟨x, rfl⟩ | hskipped | ⟨o, ho⟩ := cases_of_next?_eq_none hnext
      · exact .refl
      · exact (h hskipped).elim
      · unfold outcome? at ho
        split at ho
        · rename_i hstage
          obtain rfl : stage = _ := hstage
          exact .refl
        · cases ho

/-- Tasks that are taken up one after the other all come to their ends. -/
theorem reaches_all (es : List (Evaluator K)) (before : List (Task K)) :
    Reaches backend values settings (before ++ es.map waitingTask)
      (before ++ es.map fun e => endedTask (Id.run (e.evaluate backend values settings))) := by
  induction es generalizing before with
  | nil => exact .refl
  | cons e es ih =>
    have hfirst := reaches_endedTask backend values settings (waitingTask e)
      (by simp [waitingTask]) before (es.map waitingTask)
    refine hfirst.trans ?_
    have hrest := ih (before ++ [endedTask (Id.run (e.evaluate backend values settings))])
    rw [List.append_assoc, List.append_assoc] at hrest
    exact hrest

omit [Scalar K] in
/-- Ended tasks have outcomes to collect, or one of them has failed. -/
theorem collect_cases (done : List (Evaluator K × Except (RunError K) (OperationOutcome K))) :
    (∃ outcomes, WorkerPool.collect done = .ok (.ofList outcomes) ∧
      (done.map endedTask).map outcome? = outcomes.map some) ∨
    ∃ x, WorkerPool.collect done = .error x ∧
      ∃ t ∈ done.map endedTask, t.stage = .finished (.error x) := by
  suffices hcases :
      (∃ outcomes, done.mapM WorkerPool.indexed = .ok outcomes ∧
        (done.map endedTask).map outcome? = outcomes.map some) ∨
      ∃ x, done.mapM WorkerPool.indexed = .error x ∧
        ∃ t ∈ done.map endedTask, t.stage = .finished (.error x) by
    unfold WorkerPool.collect
    obtain ⟨outcomes, hok, hall⟩ | ⟨x, herror, hfailed⟩ := hcases
    · exact .inl ⟨outcomes, by rw [hok]; rfl, hall⟩
    · exact .inr ⟨x, by rw [herror]; rfl, hfailed⟩
  induction done with
  | nil => exact .inl ⟨[], rfl, rfl⟩
  | cons answer done ih =>
    obtain ⟨e, result⟩ := answer
    rw [List.mapM_cons]
    cases result with
    | error x => exact .inr ⟨x, rfl, _, List.mem_cons_self, rfl⟩
    | ok o =>
      obtain ⟨outcomes, hok, hall⟩ | ⟨x, herror, t, ht, hfailed⟩ := ih
      · refine .inl ⟨(e.index, o) :: outcomes, by rw [hok]; rfl, ?_⟩
        rw [List.map_cons, List.map_cons, List.map_cons, hall]
        rfl
      · exact .inr ⟨x, by rw [herror]; rfl, t, List.mem_cons_of_mem _ ht, hfailed⟩

theorem returns_collect (done : List (Evaluator K × Except (RunError K) (OperationOutcome K))) :
    Returns backend values settings (done.map endedTask) (WorkerPool.collect done) := by
  obtain ⟨outcomes, hcollected, hall⟩ | ⟨x, hcollected, t, ht, hfailed⟩ := collect_cases done
  · exact hcollected ▸ .outcomes outcomes hall
  · refine hcollected ▸ .error (fun t ht => ?_) ht hfailed
    obtain ⟨answer, -, rfl⟩ := List.mem_map.mp ht
    rfl

end Task

end Evaluator

open Evaluator in
/-- A worker for each subproblem is a pool whose tasks are taken up one after the other. -/
theorem WorkerPool.interleaves_oneEach : (oneEach : WorkerPool Id K).Interleaves := by
  intro iteration backend values settings es
  have hdone : Id.run (oneEach.evaluate iteration backend values settings es) =
      ((es.map fun e => Id.run (e.evaluate backend values settings)).map (·.1),
        collect (es.map fun e => Id.run (e.evaluate backend values settings))) := by
    simp [oneEach]
  refine ⟨_, Task.reaches_all backend values settings es [], ?_, ?_⟩
  · rw [hdone, List.nil_append, List.map_map, List.map_map]
    rfl
  · have hreturns := Task.returns_collect backend values settings
      (es.map fun e => Id.run (e.evaluate backend values settings))
    rw [List.map_map] at hreturns
    rw [hdone, List.nil_append]
    exact hreturns

end OneEach

end BendersPlanning

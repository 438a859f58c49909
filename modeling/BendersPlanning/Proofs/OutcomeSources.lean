import BendersPlanning.Operation.Evaluate
import BendersPlanning.Proofs.ExactBackends
import BendersPlanning.Proofs.FixedSubproblems

/-!
# Where outcomes come from

The outcome of an evaluation is read from a reply of the backend about the subproblem, fixed at the
linking values. `Evaluator.Obtains` says so, whatever the backend replies; what a kind of backend
promises of its replies then is a statement about outcomes.
-/

namespace BendersPlanning

variable {K : Type} [Scalar K] {σ : Type}

namespace Evaluator

/-- An outcome that was read from a reply about an evaluator that is fixed at some values. -/
structure Obtains (backend : Backend (StateM σ) K) (e : Evaluator K) (values : SortedMap String K)
    (o : OperationOutcome K) : Prop where
  replied : ∃ settings w s w', Answers (backend.solve e.activeModel settings) w (.ok s) w' ∧
    e.outcome s = .ok o
  fixed : e.activeModel = e.modelAt values.valueAt
  named : ∀ entry ∈ e.fixingRows,
    ∃ x, values.find? entry.1 = some x ∧ Scalar.isFinite x = true

variable {backend : Backend (StateM σ) K} {e e' : Evaluator K} {values : SortedMap String K}
  {settings : SolverSettings K} {o : OperationOutcome K} {w w' : σ}

theorem Obtains.isFinite_valueAt (h : e.Obtains backend values o) {entry : String × ℕ}
    (hentry : entry ∈ e.fixingRows) : Scalar.isFinite (values.valueAt entry.1) = true := by
  obtain ⟨x, hx, hfinite⟩ := h.named entry hentry
  rwa [SortedMap.valueAt, hx]

/-- An outcome is read from an optimal reply, or from an infeasible one with its certificate. -/
theorem outcome_eq_ok {s : Solution K} (h : e.outcome s = .ok o) :
    s.status = .optimal ∧ e.optimalOutcome s = .ok o ∨
      s.status = .infeasible ∧ ∃ c, s.certificate = some c ∧
        o = .infeasible (.ofList (e.fixingRows.map fun (name, row) => (name, c.ray[row]?.getD 0.0)))
          c.infeasibility := by
  unfold outcome at h
  cases hstatus : s.status with
  | optimal => exact .inl ⟨rfl, by simpa only [hstatus] using h⟩
  | infeasible =>
    simp only [hstatus, infeasibleOutcome] at h
    split_ifs at h
    cases hcertificate : s.certificate with
    | none => simp [hcertificate] at h
    | some c =>
      simp only [hcertificate, Except.ok.injEq] at h
      exact .inr ⟨rfl, c, rfl, h.symm⟩
  | unbounded | iterationLimit | numericalFailure => simp [hstatus] at h

/-- The active model is solved once or twice; the last reply counts. -/
theorem solveActive_replied {s : Solution K} (h : Yields (e.solveActive backend settings) w s w') :
    ∃ settings w₁, Answers (backend.solve e.activeModel settings) w₁ (.ok s) w' := by
  obtain ⟨first, w₁, hfirst, h⟩ := yields_bind.mp h
  split_ifs at h
  · exact ⟨_, w₁, Backend.yields_attempt.mp h⟩
  · obtain ⟨rfl, rfl⟩ := yields_pure.mp h
    exact ⟨_, w, Backend.yields_attempt.mp hfirst⟩

/-- Whatever comes of an evaluation, it leaves the evaluator as fixing did. -/
theorem evaluate_fixes {result : Except (RunError K) (OperationOutcome K)}
    (h : Answers (e.evaluate backend values settings) w (e', result) w') :
    e' = (e.fixAt values).1 := by
  unfold evaluate at h
  cases hfix : e.fixAt values with
  | mk fixed fixedResult =>
    cases fixedResult with
    | error x =>
      simp only [hfix] at h
      exact (Prod.mk.inj (answers_pure.mp h).1).1.symm
    | ok u =>
      simp only [hfix] at h
      obtain ⟨solved, w₁, -, h⟩ := answers_bind.mp h
      exact (Prod.mk.inj (answers_pure.mp h).1).1.symm

theorem evaluateAll_fixes {es es' : List (Evaluator K)}
    {outcomes outcomes' : SortedMap ℕ (OperationOutcome K)}
    (h : Answers (evaluateAll backend values settings es outcomes) w (es', .ok outcomes') w') :
    es' = es.map fun e => (e.fixAt values).1 := by
  induction es generalizing es' outcomes w with
  | nil => exact (Prod.mk.inj (answers_pure.mp h).1).1.symm
  | cons e es ih =>
    rw [evaluateAll] at h
    obtain ⟨⟨e', result⟩, w₁, hfirst, h⟩ := answers_bind.mp h
    cases result with
    | error x => simp [answers_pure] at h
    | ok o =>
      obtain ⟨⟨rest, result⟩, w₂, hrest, h⟩ := answers_bind.mp h
      obtain ⟨hsame, rfl⟩ := answers_pure.mp h
      obtain ⟨rfl, rfl⟩ := Prod.mk.inj hsame
      rw [List.map_cons, evaluate_fixes hfirst, ih hrest]

theorem evaluate_obtains (he : e.IsReady)
    (h : Answers (e.evaluate backend values settings) w (e', .ok o) w') :
    e'.Matches e ∧ e'.IsReady ∧ e'.Obtains backend values o := by
  unfold evaluate at h
  cases hfix : e.fixAt values with
  | mk fixed result =>
    cases result with
    | error x =>
      simp only [hfix] at h
      cases (Prod.mk.inj (answers_pure.mp h).1).2
    | ok u =>
      simp only [hfix] at h
      obtain ⟨solved, w₁, hsolve, h⟩ := answers_bind.mp h
      obtain ⟨hsame, rfl⟩ := answers_pure.mp h
      obtain ⟨rfl, hread⟩ := Prod.mk.inj hsame
      obtain ⟨s, rfl, houtcome⟩ := bind_eq_ok.mp hread
      obtain ⟨settings', w₂, hreplied⟩ := solveActive_replied hsolve
      obtain ⟨hmatches, hready, hfixed, hnamed⟩ := fixAt_eq_ok he hfix
      refine ⟨hmatches, hready, ⟨settings', w₂, s, w₁, hreplied, houtcome⟩, ?_, ?_⟩
      · rw [hfixed, hmatches.modelAt]
      · rw [hmatches.fixingRows]
        exact hnamed

/-- What the evaluation of several subproblems leaves: evaluators of the same subproblems, each with
the outcome that it obtained. -/
theorem evaluateAll_obtains {es es' : List (Evaluator K)} (hes : ∀ e ∈ es, e.IsReady)
    {outcomes outcomes' : SortedMap ℕ (OperationOutcome K)}
    (h : Answers (evaluateAll backend values settings es outcomes) w (es', .ok outcomes') w') :
    List.Forall₂ Matches es' es ∧ (∀ e ∈ es', e.IsReady) ∧
      ∃ pairs : List (Evaluator K × OperationOutcome K), pairs.map (·.1) = es' ∧
        (∀ p ∈ pairs, p.1.Obtains backend values p.2) ∧
        outcomes' = pairs.foldl (fun m p => m.insert p.1.index p.2) outcomes := by
  induction es generalizing es' outcomes w w' with
  | nil =>
    obtain ⟨rfl, hsame⟩ := Prod.mk.inj (answers_pure.mp h).1
    exact ⟨.nil, by simp, [], rfl, by simp, (Except.ok.inj hsame).symm⟩
  | cons e es ih =>
    obtain ⟨he, hes⟩ := List.forall_mem_cons.mp hes
    rw [evaluateAll] at h
    obtain ⟨⟨e', result⟩, w₁, hfirst, h⟩ := answers_bind.mp h
    cases result with
    | error x => simp [answers_pure] at h
    | ok o =>
      obtain ⟨⟨rest, result⟩, w₂, hrest, h⟩ := answers_bind.mp h
      obtain ⟨rfl, rfl⟩ := Prod.mk.inj (answers_pure.mp h).1
      obtain ⟨hmatches, hready, hobtains⟩ := evaluate_obtains he hfirst
      obtain ⟨hmatchesRest, hreadyRest, pairs, hpairs, hobtainsRest, rfl⟩ := ih hes hrest
      exact ⟨.cons hmatches hmatchesRest, List.forall_mem_cons.mpr ⟨hready, hreadyRest⟩,
        (e', o) :: pairs, congrArg _ hpairs, List.forall_mem_cons.mpr ⟨hobtains, hobtainsRest⟩, rfl⟩

end Evaluator

end BendersPlanning

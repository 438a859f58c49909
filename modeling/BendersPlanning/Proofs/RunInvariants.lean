import BendersPlanning.Proofs.CutValidity
import BendersPlanning.Proofs.PlanningSolutions
import BendersPlanning.Proofs.ProblemContracts
import BendersPlanning.Proofs.RunTraces
import Mathlib.Data.List.Forall2
import Mathlib.Logic.Relation

/-!
# What runs keep

`RunState.leads_keeps` says what one iteration keeps. With an exact backend its cuts keep every
point that was served, so the planning problem only loses points that nothing serves, and the
evaluators still stand for the subproblems they were made from. `RunState.Reaches` is any number of
iterations; `run_reaches` says that the result of a run was reached in this way.
-/

namespace BendersPlanning

/-- Models as building makes them: see `Model.WellFormed.ofParts` and
`PlanningProblem.wellFormed_of_ofModel`. -/
structure DecomposedProblem.WellFormed {K : Type} [Scalar K] (p : DecomposedProblem K) : Prop where
  planning : p.planning.model.WellFormed
  subproblems : ∀ s ∈ p.subproblems, s.model.WellFormed

/-- The cost of a candidate: its fixed cost and the least costs of all subproblems at its values, or
infinite where some subproblem has no operation. -/
def Candidate.Costs {K : Type} [Scalar K] (c : Candidate K) (evaluators : List (Evaluator K))
    (upper : K) : Prop :=
  (∃ costs, List.Forall₂ (fun e v => (e.modelAt c.values.valueAt).HasMinimum v) evaluators costs ∧
      upper = c.fixedCost + Scalar.sum costs) ∨
    upper = Scalar.infinity ∧
      ∃ e ∈ evaluators, ∀ point, ¬(e.modelAt c.values.valueAt).Feasible point

namespace RunState

section Reaching
variable {K : Type} [Scalar K] {σ : Type}

/-- One iteration, in the worlds before and after it. -/
def StepsTo (backend : Backend (StateM σ) K) (clock : Clock (StateM σ) K) (c : Configuration K)
    (linking : List String) (before after : RunState K × σ) : Prop :=
  Yields (before.1.step backend clock c linking) before.2 after.1 after.2

def Reaches (backend : Backend (StateM σ) K) (clock : Clock (StateM σ) K) (c : Configuration K)
    (linking : List String) : RunState K × σ → RunState K × σ → Prop :=
  Relation.ReflTransGen (StepsTo backend clock c linking)

variable {backend : Backend (StateM σ) K} {clock : Clock (StateM σ) K} {c : Configuration K}
  {linking : List String} {s s' : RunState K} {w w' : σ}

/-- Iterating ends in a state that was reached, as the last of at least one iteration. -/
theorem iterate_reaches {more : ℕ} {termination : Termination}
    (h : Yields (s.iterate backend clock c linking more) w (s', termination) w') :
    ∃ before, Reaches backend clock c linking (s, w) before ∧
      StepsTo backend clock c linking before (s', w') ∧
      (termination = .converged → s'.history.gap ≤ c.convTol) := by
  induction more using Nat.strong_induction_on generalizing s w with
  | _ more ih =>
    obtain ⟨s₁, w₁, hstep, hcases⟩ := iterate_cases h
    rcases hcases with ⟨hlast, hended⟩ | ⟨rest, rfl, -, -, hrest⟩
    · obtain ⟨rfl, rfl⟩ := Prod.mk.inj hlast
      refine ⟨(s, w), .refl, hstep, ?_⟩
      rintro rfl
      obtain ⟨hclosed, -⟩ | ⟨-, -, hother⟩ | ⟨-, -, -, hother⟩ := hended
      · exact hclosed
      · cases hother
      · cases hother
    · obtain ⟨before, hreach, hlast, hconverged⟩ := ih rest rest.lt_succ_self hrest
      have hfirst : StepsTo backend clock c linking (s, w) (s₁, w₁) := hstep
      exact ⟨before, .head hfirst hreach, hlast, hconverged⟩

theorem candidate_offers (hb : backend.IsExact) (hs : s.planning.model.WellFormed)
    {settings : SolverSettings K} {master point : Candidate K}
    (hmaster : s.planning.Offers linking master)
    (h : Answers (s.candidate backend linking settings master) w point w') :
    s.planning.Offers linking point := by
  obtain rfl | ⟨-, hproject⟩ := candidate_cases h
  · exact hmaster
  · exact PlanningProblem.project_offers hb hs hproject

/-- A run returns a reached state, with the incumbent or the last candidate as the best. -/
theorem run_reaches {p : DecomposedProblem K} {r : RunResult K}
    (h : Yields (p.run backend clock c) w r w') :
    ∃ start before s, RunState.start c p = .ok start ∧
      Reaches backend clock c p.linking (start, w) before ∧
      StepsTo backend clock c p.linking before (s, w') ∧
      r.planning = s.planning ∧ r.history = s.history ∧
      (r.termination = .converged → s.history.gap ≤ c.convTol) ∧
      s.history.incumbent?.or (s.history.iterations.back?.map (·.candidate)) = some r.best := by
  obtain ⟨start, s, hstart, hiterate, hplanning, hhistory, hbest⟩ := run_cases h
  obtain ⟨before, hreach, hlast, hconverged⟩ := iterate_reaches hiterate
  exact ⟨start, before, s, hstart, hreach, hlast, hplanning, hhistory, hconverged, hbest⟩

end Reaching

open Exact (number)

section Steps
variable {σ : Type} {backend : Backend (StateM σ) Exact} {clock : Clock (StateM σ) Exact}
  {c : Configuration Exact} {linking : List String} {s s' : RunState Exact} {w w' : σ}

/-- What holds of the state between iterations. -/
structure IsSound (s : RunState Exact) : Prop where
  planning : s.planning.model.WellFormed
  evaluators : ∀ e ∈ s.evaluators, e.IsReady
  indices : (s.evaluators.map (·.index)).Nodup

/-- What iterations keep: the planning problem has gained rows only, the evaluators stand for the
same subproblems, and all points that were served still are. -/
structure Follows (s' s : RunState Exact) : Prop where
  planning : s'.planning.Extends s.planning
  evaluators : List.Forall₂ Evaluator.Matches s'.evaluators s.evaluators
  served : ∀ point operation, s.planning.IsServed s.evaluators point operation →
    s'.planning.IsServed s'.evaluators point operation

theorem map_eq_of_matches {β : Type} {es es' : List (Evaluator Exact)} {f : Evaluator Exact → β}
    (h : List.Forall₂ Evaluator.Matches es' es) (hf : ∀ e' e, e'.Matches e → f e' = f e) :
    es'.map f = es.map f := by
  induction h with
  | nil => rfl
  | cons hmatches _ ih => rw [List.map_cons, List.map_cons, hf _ _ hmatches, ih]

theorem exists_of_forall₂ {α β : Type} {R : α → β → Prop} {xs : List α} {ys : List β}
    (h : List.Forall₂ R xs ys) {x : α} (hx : x ∈ xs) : ∃ y ∈ ys, R x y := by
  induction h with
  | nil => cases hx
  | cons hfirst _ ih =>
    rcases List.mem_cons.mp hx with rfl | hx
    · exact ⟨_, List.mem_cons_self, hfirst⟩
    · obtain ⟨y, hy, hR⟩ := ih hx
      exact ⟨y, List.mem_cons_of_mem _ hy, hR⟩

theorem isServed_of_matches {p : PlanningProblem Exact} {es es' : List (Evaluator Exact)}
    (h : List.Forall₂ Evaluator.Matches es' es) {point : Array Exact} {operation : ℕ → Array Exact}
    (hserved : p.IsServed es point operation) : p.IsServed es' point operation := by
  refine ⟨hserved.planned, fun e' he' => ?_, ?_⟩
  · obtain ⟨e, he, hmatches⟩ := exists_of_forall₂ h he'
    rw [hmatches.modelAt, hmatches.index]
    exact hserved.operated e he
  · have hcovered := hserved.covered
    split_ifs at hcovered ⊢
    · intro e' he' theta htheta
      obtain ⟨e, he, hmatches⟩ := exists_of_forall₂ h he'
      rw [hmatches.modelAt, hmatches.index]
      exact hcovered e he theta (hmatches.index ▸ htheta)
    · intro theta htheta
      rw [map_eq_of_matches h fun e' e hmatches => by rw [hmatches.modelAt, hmatches.index]]
      exact hcovered theta htheta

theorem entries_perm {pairs : List (Evaluator Exact × OperationOutcome Exact)}
    (hindices : ((pairs.map (·.1)).map (·.index)).Nodup) :
    (pairs.foldl (fun m p => m.insert p.1.index p.2)
      (.empty : SortedMap ℕ (OperationOutcome Exact))).entries.Perm
        (pairs.map fun p => (p.1.index, p.2)) := by
  have hperm := SortedMap.foldl_insert_perm (pairs.map fun p => (p.1.index, p.2)) .empty
    (by simpa [SortedMap.empty, Function.comp_def] using hindices)
  rwa [List.foldl_map] at hperm

/-- The cost of a candidate is read off outcomes that are true of the subproblems. -/
theorem upperBound_costs {point : Candidate Exact}
    {pairs : List (Evaluator Exact × OperationOutcome Exact)}
    {outcomes : SortedMap ℕ (OperationOutcome Exact)}
    (htrue : ∀ q ∈ pairs, q.2.IsTrueOf q.1 point.values)
    (hentries : outcomes.entries.Perm (pairs.map fun q => (q.1.index, q.2))) :
    point.Costs (pairs.map (·.1)) (point.upperBound outcomes) := by
  have hvalues := OperationOutcome.values_perm hentries
  unfold Candidate.upperBound
  split_ifs with hall
  · have hfeasible := (OperationOutcome.all_isFeasible_iff hentries).mp hall
    refine .inl ⟨pairs.map fun q => q.2.cost, ?_, ?_⟩
    · rw [List.forall₂_map_left_iff, List.forall₂_map_right_iff, List.forall₂_same]
      exact fun q hq => (htrue q hq).hasMinimum (hfeasible q hq)
    · rw [List.map_congr_left (OperationOutcome.number_cost_of_mem hentries htrue hall),
        Exact.sum_map_number,
        List.map_congr_left (fun q hq => (htrue q hq).number_cost (hfeasible q hq)),
        Exact.sum_map_number, (hvalues.map fun o => o.cost.toRat).sum_eq, List.map_map]
      rfl
  · refine .inr ⟨rfl, ?_⟩
    obtain ⟨o, ho, hinfeasible⟩ := List.all_eq_false.mp (Bool.not_eq_true _ ▸ hall)
    obtain ⟨q, hq, rfl⟩ := List.mem_map.mp (hvalues.mem_iff.mp ho)
    exact ⟨q.1, List.mem_map_of_mem hq,
      (htrue q hq).not_feasible (Bool.not_eq_true _ ▸ hinfeasible)⟩

/-- The outcomes of an iteration, each with the evaluator that obtained it, whatever the backend
replies. -/
theorem IsSound.exists_pairs (hs : s.IsSound) {values : SortedMap String Exact}
    {settings : SolverSettings Exact} {es : List (Evaluator Exact)}
    {outcomes : SortedMap ℕ (OperationOutcome Exact)}
    (h : Answers (Evaluator.evaluateAll backend values settings s.evaluators .empty) w
      (es, .ok outcomes) w') :
    List.Forall₂ Evaluator.Matches es s.evaluators ∧ (∀ e ∈ es, e.IsReady) ∧
      es.map (·.index) = s.evaluators.map (·.index) ∧
      ∃ pairs : List (Evaluator Exact × OperationOutcome Exact),
        pairs.map (·.1) = es ∧ (∀ q ∈ pairs, q.1.Obtains backend values q.2) ∧
        outcomes.entries.Perm (pairs.map fun q => (q.1.index, q.2)) := by
  obtain ⟨hmatches, hready, pairs, hpairs, hobtains, rfl⟩ :=
    Evaluator.evaluateAll_obtains hs.evaluators h
  have hindices : es.map (·.index) = s.evaluators.map (·.index) :=
    map_eq_of_matches hmatches fun e' e hmatch => hmatch.index
  exact ⟨hmatches, hready, hindices, pairs, hpairs, hobtains,
    entries_perm (hpairs ▸ hindices ▸ hs.indices)⟩

/-- What a pass keeps and where its outcomes come from, whatever the backend replies. -/
theorem leads_keeps {before after : RunState Exact × σ} {pass : Pass Exact σ} (hs : before.1.IsSound)
    (h : pass.Leads backend clock c linking before after) :
    after.1.IsSound ∧ after.1.planning.Extends before.1.planning ∧
      List.Forall₂ Evaluator.Matches after.1.evaluators before.1.evaluators ∧
      ∃ pairs : List (Evaluator Exact × OperationOutcome Exact),
        pairs.map (·.1) = after.1.evaluators ∧
        (∀ q ∈ pairs, q.1.Obtains backend pass.point.values q.2) ∧
        pass.outcomes.entries.Perm (pairs.map fun q => (q.1.index, q.2)) := by
  obtain ⟨hmatches, hready, hindices, hpairs⟩ := hs.exists_pairs h.evaluates
  obtain ⟨hextends, hwellFormed, -⟩ := PlanningProblem.addCuts_eq_ok hs.planning h.adds
  exact ⟨⟨hwellFormed, hready, hindices ▸ hs.indices⟩, hextends, hmatches, hpairs⟩

/-- Every outcome was obtained by an evaluator of its index. -/
theorem exists_obtained {values : SortedMap String Exact}
    {pairs : List (Evaluator Exact × OperationOutcome Exact)}
    {outcomes : SortedMap ℕ (OperationOutcome Exact)}
    (hobtains : ∀ q ∈ pairs, q.1.Obtains backend values q.2)
    (hentries : outcomes.entries.Perm (pairs.map fun q => (q.1.index, q.2)))
    {t : ℕ × OperationOutcome Exact} (ht : t ∈ outcomes.entries) :
    ∃ e ∈ pairs.map (·.1), e.index = t.1 ∧ e.Obtains backend values t.2 := by
  obtain ⟨e, hmem, hindex⟩ := OperationOutcome.exists_of_mem_entries hentries ht
  exact ⟨e, List.mem_map_of_mem (f := (·.1)) hmem, hindex, hobtains _ hmem⟩

/-- One iteration from a sound state: what it keeps and what it records. -/
theorem step_sound (hb : backend.IsExact) (hs : s.IsSound)
    (h : StepsTo backend clock c linking (s, w) (s', w')) :
    s'.IsSound ∧ s'.Follows s ∧ ∃ lower upper elapsed gamma candidate,
      s'.history = s.history.record lower upper elapsed gamma candidate ∧
      (∀ point, s.planning.model.Feasible point → lower ≤ s.planning.model.objectiveValue point) ∧
      s.planning.Offers linking candidate ∧ candidate.Costs s'.evaluators upper := by
  obtain ⟨pass, hleads⟩ := yields_step_iff.mp h
  obtain ⟨hsound, hextends, hmatches, pairs, hpairs, hobtains, hentries⟩ := leads_keeps hs hleads
  obtain ⟨hoffered, hlower⟩ := PlanningProblem.solve_offers hb hs.planning hleads.solves
  obtain ⟨-, -, hfeasible⟩ := PlanningProblem.addCuts_eq_ok hs.planning hleads.adds
  simp only at hsound hextends hmatches hpairs
  have hready : ∀ q ∈ pairs, q.1.IsReady := fun q hq =>
    hsound.evaluators q.1 (hpairs ▸ List.mem_map_of_mem hq)
  have htrue : ∀ q ∈ pairs, q.2.IsTrueOf q.1 pass.point.values := fun q hq =>
    (hobtains q hq).isTrueOf hb (hready q hq)
  refine ⟨hsound, ⟨hextends, hmatches, fun planned operation hserved => ?_⟩, _, _, _, _, _,
    hleads.records, hlower, candidate_offers hb hs.planning hoffered hleads.chooses,
    hpairs ▸ upperBound_costs htrue hentries⟩
  have hserved := isServed_of_matches hmatches hserved
  refine hextends.isServed hserved (hfeasible planned hserved.planned fun cut hcut => ?_)
  exact PlanningProblem.cuts_holdIn hready htrue (hpairs ▸ hserved) hentries hleads.cuts hcut

theorem matches_trans {es es' es'' : List (Evaluator Exact)}
    (h' : List.Forall₂ Evaluator.Matches es'' es') (h : List.Forall₂ Evaluator.Matches es' es) :
    List.Forall₂ Evaluator.Matches es'' es := by
  induction h' generalizing es with
  | nil => exact h
  | cons hmatch' _ ih =>
    cases h with
    | cons hmatch h => exact .cons (hmatch'.trans hmatch) (ih h)

theorem Follows.refl (s : RunState Exact) : s.Follows s :=
  ⟨.refl _, List.forall₂_same.mpr fun e _ => .refl e, fun _ _ h => h⟩

theorem Follows.trans {s'' : RunState Exact} (h' : s''.Follows s') (h : s'.Follows s) :
    s''.Follows s where
  planning := h'.planning.trans h.planning
  evaluators := matches_trans h'.evaluators h.evaluators
  served := fun point operation hserved =>
    h'.served point operation (h.served point operation hserved)

theorem reaches_sound (hb : backend.IsExact) (hs : s.IsSound) {after : RunState Exact × σ}
    (h : Reaches backend clock c linking (s, w) after) :
    after.1.IsSound ∧ after.1.Follows s := by
  induction h with
  | refl => exact ⟨hs, .refl s⟩
  | tail _ hstep ih =>
    obtain ⟨hsound, hfollows, -⟩ := step_sound hb ih.1 hstep
    exact ⟨hsound, hfollows.trans ih.2⟩

end Steps

section Starting

theorem forall₂_of_mapM_eq_ok {ε α β : Type} {f : α → Except ε β} {xs : List α} {ys : List β}
    (h : xs.mapM f = .ok ys) : List.Forall₂ (fun x y => f x = .ok y) xs ys := by
  induction xs generalizing ys with
  | nil =>
    obtain rfl := Except.ok.inj h
    exact .nil
  | cons x xs ih =>
    rw [List.mapM_cons] at h
    obtain ⟨y, hy, h⟩ := bind_eq_ok.mp h
    obtain ⟨rest, hrest, h⟩ := bind_eq_ok.mp h
    obtain rfl := Except.ok.inj h
    exact .cons hy (ih hrest)

/-- Preparing keeps the indices of the subproblems. -/
theorem indices_eq {K : Type} [Scalar K] {automatic : Bool} {subproblems : List (Subproblem K)}
    {evaluators : List (Evaluator K)}
    (h : List.Forall₂ (fun s e => Evaluator.ofSubproblem s automatic = .ok e) subproblems
      evaluators) : evaluators.map (·.index) = subproblems.map (·.index) := by
  induction h with
  | nil => rfl
  | cons hfirst _ ih =>
    rw [List.map_cons, List.map_cons, ih, (Evaluator.ofSubproblem_cases hfirst).2.1]

variable {p : DecomposedProblem Exact} {c : Configuration Exact} {start : RunState Exact}

theorem start_sound (hp : p.WellFormed) (h : RunState.start c p = .ok start) :
    start.IsSound ∧ start.history = .empty ∧ c.validate = .ok () := by
  obtain ⟨hconfiguration, hproblem, evaluators, hevaluators, rfl⟩ := start_eq_ok.mp h
  have hforall := forall₂_of_mapM_eq_ok hevaluators
  have hperm := List.mergeSort_perm evaluators fun a b => decide (a.index ≤ b.index)
  refine ⟨⟨?_, fun e he => ?_, ?_⟩, rfl, hconfiguration⟩
  · dsimp only
    split_ifs
    · exact hp.planning
    · exact hp.planning.relaxIntegrality
  · rw [hperm.mem_iff] at he
    obtain ⟨s, hs, hsubproblem⟩ := exists_of_forall₂ hforall.flip he
    exact (Evaluator.isReady_of_ofSubproblem (hp.subproblems s hs) hsubproblem).1
  · rw [(hperm.map _).nodup_iff, indices_eq hforall]
    exact (DecomposedProblem.validate_eq_ok.mp hproblem).indices.nodup_iff.mpr List.nodup_range

end Starting

end RunState

end BendersPlanning

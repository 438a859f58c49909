import BendersPlanning.Proofs.AcceptedCuts
import BendersPlanning.Proofs.StoppingRules

/-!
# Cuts accumulate

An iteration appends the rows of its cuts to the planning problem and touches nothing else of it.
Which cuts these are can be told from the outcomes alone: one for every infeasible subproblem, and one
for every feasible subproblem or a single one when all are feasible. Over a run the rows only grow,
and the cuts are counted by their names.
-/

namespace BendersPlanning

variable {K : Type} [Scalar K] {σ : Type}

section Meaning

/-- The names of the cuts of an iteration, in the order in which they are added. -/
def PlanningProblem.cutNames (p : PlanningProblem K) (iteration : ℕ)
    (outcomes : SortedMap ℕ (OperationOutcome K)) : List String :=
  let feasible := outcomes.entries.filter fun o => o.2.isFeasible
  let infeasible := outcomes.entries.filter fun o => !o.2.isFeasible
  infeasible.map (fun o => Cut.nameIn "feas_cut[" iteration (toString o.1)) ++
    if p.isMultiCut then feasible.map fun o => Cut.nameIn "opt_cut[" iteration (toString o.1)
    else if infeasible = [] then [Cut.nameIn "opt_cut[" iteration "all"] else []

namespace PlanningProblem

/-- A planning problem with more rows at the end. -/
def withRows (p : PlanningProblem K) (rows : List (Constraint K)) : PlanningProblem K :=
  { p with model := { p.model with constraints := p.model.constraints ++ rows } }

/-- The planning problem with the rows of some cuts at the end, and nothing else changed. -/
def GainsCuts (p' p : PlanningProblem K) (cuts : List (Cut K)) : Prop :=
  ∃ rows, List.Forall₂ (fun cut row => cut.constraint p = .ok row) cuts rows ∧
    p' = p.withRows rows

/-- All but the rows is that of another planning problem; integrality stays only on request. -/
structure SharesFrame (p' p : PlanningProblem K) (integer : Bool) : Prop where
  vars : p'.model.vars =
    if integer then p.model.vars else p.model.vars.map ({ · with integer := false })
  objective : p'.model.objective = p.model.objective
  quadratic : p'.model.quadratic = p.model.quadratic
  expressions : p'.model.expressions = p.model.expressions
  fixedCost : p'.fixedCost = p.fixedCost
  theta : p'.theta = p.theta

end PlanningProblem

end Meaning

section Generating
variable {p : PlanningProblem K} {iteration : ℕ} {values : SortedMap String K}

namespace Cut

theorem names_feasibilityCuts {outcomes : List (ℕ × OperationOutcome K)} {cuts : List (Cut K)}
    (h : feasibilityCuts iteration values outcomes = .ok cuts) :
    cuts.map (·.name) = (outcomes.filter fun o => !o.2.isFeasible).map fun o =>
      nameIn "feas_cut[" iteration (toString o.1) := by
  induction outcomes generalizing cuts with
  | nil =>
    obtain rfl := Except.ok.inj h
    rfl
  | cons entry outcomes ih =>
    obtain ⟨index, o⟩ := entry
    cases o with
    | optimal cost prices used => exact ih h
    | infeasible ray margin =>
      obtain ⟨cut, hcut, h⟩ := bind_eq_ok.mp h
      obtain ⟨rest, hrest, h⟩ := bind_eq_ok.mp h
      obtain ⟨total, -, hcut⟩ := bind_eq_ok.mp hcut
      obtain rfl := Except.ok.inj h
      obtain rfl := Except.ok.inj hcut
      rw [List.map_cons, ih hrest]
      rfl

theorem names_optimalityCuts {outcomes : List (ℕ × OperationOutcome K)} {cuts : List (Cut K)}
    (h : optimalityCuts p iteration values outcomes = .ok cuts) :
    cuts.map (·.name) = (outcomes.filter fun o => o.2.isFeasible).map fun o =>
      nameIn "opt_cut[" iteration (toString o.1) := by
  induction outcomes generalizing cuts with
  | nil =>
    obtain rfl := Except.ok.inj h
    rfl
  | cons entry outcomes ih =>
    obtain ⟨index, o⟩ := entry
    cases o with
    | infeasible ray margin => exact ih h
    | optimal cost prices used =>
      rw [optimalityCuts] at h
      cases htheta : p.thetaFor? index with
      | none => simp [htheta] at h
      | some theta =>
        simp only [htheta] at h
        obtain ⟨cut, hcut, h⟩ := bind_eq_ok.mp h
        obtain ⟨rest, hrest, h⟩ := bind_eq_ok.mp h
        obtain ⟨total, -, hcut⟩ := bind_eq_ok.mp hcut
        obtain rfl := Except.ok.inj h
        obtain rfl := Except.ok.inj hcut
        rw [List.map_cons, ih hrest]
        rfl

theorem name_aggregatedCut {outcomes : List (OperationOutcome K)} {cut : Cut K}
    (h : aggregatedCut p iteration values outcomes = .ok cut) :
    cut.name = nameIn "opt_cut[" iteration "all" := by
  unfold aggregatedCut at h
  split at h
  · cases h
  · obtain ⟨total, -, hcut⟩ := bind_eq_ok.mp h
    obtain rfl := Except.ok.inj hcut
    exact (nameIn_all iteration).symm

end Cut

variable {outcomes : SortedMap ℕ (OperationOutcome K)} {cuts : List (Cut K)}

omit [Scalar K] in
theorem OperationOutcome.all_values_iff :
    outcomes.values.all (·.isFeasible) = true ↔
      (outcomes.entries.filter fun o => !o.2.isFeasible) = [] := by
  simp [SortedMap.values, List.filter_eq_nil_iff]

theorem PlanningProblem.names_cuts (h : p.cuts iteration values outcomes = .ok cuts) :
    cuts.map (·.name) = p.cutNames iteration outcomes := by
  obtain ⟨feasibility, optimality, hfeasibility, hoptimality, rfl⟩ := cuts_eq_ok.mp h
  rw [List.map_append, Cut.names_feasibilityCuts hfeasibility, cutNames]
  congr 1
  rcases hoptimality with ⟨hmulti, hcuts⟩ | ⟨hsingle, hall, c, hc, rfl⟩ | ⟨hsingle, hall, rfl⟩
  · rw [if_pos hmulti, Cut.names_optimalityCuts hcuts]
  · rw [if_neg (by simp [hsingle]), if_pos (OperationOutcome.all_values_iff.mp hall),
      List.map_singleton, Cut.name_aggregatedCut hc]
  · have hsome := OperationOutcome.all_values_iff.not.mp (Bool.eq_false_iff.mp hall)
    rw [if_neg (by simp [hsingle]), if_neg hsome]
    rfl

omit [Scalar K] in
/-- All names of cuts start with a mark. -/
theorem PlanningProblem.marked_of_mem_cutNames {name : String}
    (h : name ∈ p.cutNames iteration outcomes) :
    (cutMarks.any fun mark => mark.isPrefixOf name) = true := by
  have hmarked (mark tail : String) (hmark : mark ∈ cutMarks) :
      (cutMarks.any fun mark' => mark'.isPrefixOf (Cut.nameIn mark iteration tail)) = true :=
    List.any_eq_true.mpr ⟨mark, hmark, Cut.isPrefixOf_nameIn mark iteration tail⟩
  simp only [cutNames] at h
  rcases List.mem_append.mp h with h | h
  · obtain ⟨o, -, rfl⟩ := List.mem_map.mp h
    exact hmarked _ _ (by simp [cutMarks])
  · split_ifs at h
    · obtain ⟨o, -, rfl⟩ := List.mem_map.mp h
      exact hmarked _ _ (by simp [cutMarks])
    · rw [List.mem_singleton.mp h]
      exact hmarked _ _ (by simp [cutMarks])
    · cases h

end Generating

namespace PlanningProblem

section Adding
variable {p p' p'' : PlanningProblem K} {cuts : List (Cut K)} {rows : List (Constraint K)}
  {integer : Bool}

theorem name_of_constraint {c : Cut K} {row : Constraint K} (h : c.constraint p = .ok row) :
    row.name = c.name := by
  obtain ⟨e, -, h⟩ := bind_eq_ok.mp h
  obtain rfl := Except.ok.inj h
  rfl

omit [Scalar K] in
theorem rowNames_withRows (p : PlanningProblem K) (rows : List (Constraint K)) :
    (p.withRows rows).rowNames = p.rowNames ++ rows.map (·.name) := by
  simp [rowNames, withRows]

omit [Scalar K] in
theorem withRows_withRows (p : PlanningProblem K) (rows more : List (Constraint K)) :
    (p.withRows rows).withRows more = p.withRows (rows ++ more) := by
  have hrows : p.model.constraints ++ rows ++ more = p.model.constraints ++ (rows ++ more) :=
    Array.ext' (by simp)
  simp only [withRows, hrows]

theorem addCut_withRows {c : Cut K} (h : p.addCut c = .ok p') :
    ∃ row, c.constraint p = .ok row ∧ p' = p.withRows [row] ∧ row.name ∉ p.rowNames := by
  obtain ⟨row, hrow, h⟩ := bind_eq_ok.mp h
  obtain ⟨⟨model, id⟩, hadd, h⟩ := bind_eq_ok.mp h
  rw [mapError_eq_ok] at hadd
  obtain ⟨-, hnew, -, -, -, rfl⟩ := Model.addConstraint_eq_ok.mp hadd
  refine ⟨row, hrow, ?_, Model.constraintNamed?_eq_none_iff.mp hnew⟩
  obtain rfl := Except.ok.inj h
  simp [withRows]

/-- Cuts that are taken become the last rows, under names of their own. -/
theorem gainsCuts_of_addCuts (h : p.addCuts cuts = (p', .ok ())) :
    p'.GainsCuts p cuts ∧ (p.rowNames.Nodup → p'.rowNames.Nodup) := by
  induction cuts generalizing p with
  | nil =>
    obtain ⟨rfl, -⟩ := Prod.mk.inj h
    exact ⟨⟨[], .nil, by simp [withRows]⟩, id⟩
  | cons c cuts ih =>
    rw [addCuts] at h
    cases hfirst : p.addCut c with
    | error x => simp [hfirst] at h
    | ok p₁ =>
      rw [hfirst] at h
      obtain ⟨row, hrow, rfl, hnew⟩ := addCut_withRows hfirst
      obtain ⟨⟨rows, hrows, rfl⟩, hnodup⟩ := ih h
      refine ⟨⟨row :: rows, .cons hrow hrows, ?_⟩, fun hp => hnodup ?_⟩
      · exact p.withRows_withRows [row] rows
      · rw [rowNames_withRows]
        exact hp.append (List.nodup_singleton _) (List.disjoint_singleton.mpr hnew)

theorem GainsCuts.rowNames (h : p'.GainsCuts p cuts) :
    p'.rowNames = p.rowNames ++ cuts.map (·.name) := by
  obtain ⟨rows, hrows, rfl⟩ := h
  rw [rowNames_withRows]
  congr 1
  induction hrows with
  | nil => rfl
  | cons hrow _ ih => rw [List.map_cons, List.map_cons, ih, name_of_constraint hrow]

omit [Scalar K] in
theorem cutCount_eq (p : PlanningProblem K) : p.cutCount =
    p.rowNames.countP fun name => cutMarks.any fun mark => mark.isPrefixOf name := by
  rw [cutCount, cutRows, ← List.countP_eq_length_filter, PlanningProblem.rowNames, List.countP_map]
  rfl

/-- Cuts that are named as such are counted. -/
theorem GainsCuts.cutCount_eq (h : p'.GainsCuts p cuts)
    (hnames : ∀ name ∈ cuts.map (·.name),
      (cutMarks.any fun mark => mark.isPrefixOf name) = true) :
    p'.cutCount = p.cutCount + cuts.length := by
  rw [PlanningProblem.cutCount_eq, PlanningProblem.cutCount_eq, h.rowNames, List.countP_append,
    List.countP_eq_length.mpr hnames, List.length_map]

theorem GainsCuts.sharesFrame (h : p''.GainsCuts p' cuts) (hframe : p'.SharesFrame p integer) :
    p''.SharesFrame p integer := by
  obtain ⟨rows, -, rfl⟩ := h
  exact ⟨hframe.vars, hframe.objective, hframe.quadratic, hframe.expressions, hframe.fixedCost,
    hframe.theta⟩

omit [Scalar K] in
theorem SharesFrame.cutNames (h : p'.SharesFrame p integer) (iteration : ℕ)
    (outcomes : SortedMap ℕ (OperationOutcome K)) :
    p'.cutNames iteration outcomes = p.cutNames iteration outcomes := by
  have hmulti : p'.isMultiCut = p.isMultiCut := by simp only [isMultiCut, h.theta]
  simp only [PlanningProblem.cutNames, hmulti]

end Adding

end PlanningProblem

namespace Evaluator

variable {backend : Backend (StateM σ) K} {values : SortedMap String K}
  {settings : SolverSettings K} {es es' : List (Evaluator K)} {w w' : σ}

theorem index_fixRow (e : Evaluator K) (row : ℕ) (value : K) :
    (e.fixRow row value).1.index = e.index := by
  unfold fixRow
  cases e.model.setRhs row value with
  | error x => rfl
  | ok model =>
    cases e.elastic with
    | none => rfl
    | some elastic =>
      dsimp only
      cases elastic.1.setRhs row value <;> rfl

theorem index_fixRows (values : SortedMap String K) (rows : List (String × ℕ)) (e : Evaluator K) :
    (fixRows values rows e).1.index = e.index :=
  fixRows_keeps index_fixRow values rows e

/-- Outcomes are kept under the indices of the evaluators, which stay as they are. -/
theorem keys_of_evaluateAll {outcomes outcomes' : SortedMap ℕ (OperationOutcome K)}
    (h : Answers (evaluateAll backend values settings es outcomes) w (es', .ok outcomes') w') :
    es'.map (·.index) = es.map (·.index) ∧ ∃ entries : List (ℕ × OperationOutcome K),
      entries.map (·.1) = es.map (·.index) ∧
      outcomes' = entries.foldl (fun m e => m.insert e.1 e.2) outcomes := by
  induction es generalizing es' outcomes w with
  | nil =>
    obtain ⟨rfl, hsame⟩ := Prod.mk.inj (answers_pure.mp h).1
    exact ⟨rfl, [], rfl, (Except.ok.inj hsame).symm⟩
  | cons e es ih =>
    rw [evaluateAll] at h
    obtain ⟨⟨e', result⟩, w₁, hfirst, h⟩ := answers_bind.mp h
    cases result with
    | error x => simp [answers_pure] at h
    | ok o =>
      obtain ⟨⟨rest, result⟩, w₂, hrest, h⟩ := answers_bind.mp h
      obtain ⟨hsame, rfl⟩ := answers_pure.mp h
      obtain ⟨rfl, rfl⟩ := Prod.mk.inj hsame
      obtain ⟨hindices, entries, hkeys, rfl⟩ := ih hrest
      have hindex : e'.index = e.index := by
        rw [evaluate_fixes hfirst, fixAt, index_fixRows]
      refine ⟨by rw [List.map_cons, List.map_cons, hindex, hindices], (e.index, o) :: entries, ?_,
        by rw [List.foldl_cons, hindex]⟩
      rw [List.map_cons, List.map_cons, hkeys]

end Evaluator

/-- Keys that were inserted once each are the keys of the map, in ascending order. -/
theorem SortedMap.keys_of_insert {ν : Type} {n : ℕ} {entries : List (ℕ × ν)}
    (h : (entries.map (·.1)).Perm (List.range n)) :
    (entries.foldl (fun m e => m.insert e.1 e.2) (.empty : SortedMap ℕ ν)).keys = List.range n := by
  have hperm := SortedMap.foldl_insert_perm entries .empty
    (by simpa [SortedMap.empty] using h.nodup_iff.mpr List.nodup_range)
  have hsorted := SortedMap.sorted (entries.foldl (fun m e => m.insert e.1 e.2) .empty)
  refine List.Perm.eq_of_pairwise (fun a b _ _ hab hba => absurd (hab.trans hba) (lt_irrefl a))
    (List.pairwise_map.mpr hsorted) List.pairwise_lt_range ?_
  exact (hperm.map (·.1)).trans h

namespace RunState

/-- What a run has done after some iterations: rows of cuts were added to the planning problem, under
names of their own, and nothing else of it has changed. -/
structure Accumulates (s : RunState K) (c : Configuration K) (problem : DecomposedProblem K)
    (passes : List (Pass K σ)) : Prop where
  count : s.history.count = passes.length
  frame : s.planning.SharesFrame problem.planning c.integerInvestment
  names : s.planning.rowNames.Nodup
  cuts : s.planning.cutCount = (passes.map (·.cuts.length)).sum
  indices : (s.evaluators.map (·.index)).Perm (List.range problem.subproblems.length)

variable {backend : Backend (StateM σ) K} {clock : Clock (StateM σ) K} {c : Configuration K}
  {problem : DecomposedProblem K} {before after start : RunState K × σ} {pass : Pass K σ}
  {passes : List (Pass K σ)}

theorem sharesFrame_start {s : RunState K} (h : RunState.start c problem = .ok s) :
    s.planning.SharesFrame problem.planning c.integerInvestment := by
  obtain ⟨-, -, evaluators, -, rfl⟩ := start_eq_ok.mp h
  refine ⟨?_, ?_, ?_, ?_, rfl, rfl⟩ <;> dsimp only <;> split_ifs <;> rfl

/-- Passes add rows only. -/
theorem sharesFrame_traces {linking : List String} {integer : Bool} {p : PlanningProblem K}
    (hstart : start.1.planning.SharesFrame p integer)
    (h : Traces backend clock c linking start passes after) :
    after.1.planning.SharesFrame p integer := by
  induction h with
  | start => exact hstart
  | pass _ hleads ih => exact (PlanningProblem.gainsCuts_of_addCuts hleads.adds).1.sharesFrame ih

theorem accumulates_start {s : RunState K} (hnames : problem.planning.rowNames.Nodup)
    (hcuts : problem.planning.cutRows = []) (h : RunState.start c problem = .ok s) :
    s.planning.model.constraints = problem.planning.model.constraints ∧
      s.Accumulates c problem ([] : List (Pass K σ)) := by
  have hframe := sharesFrame_start h
  obtain ⟨-, hvalid, evaluators, hevaluators, rfl⟩ := start_eq_ok.mp h
  have hrows : (if c.integerInvestment then problem.planning.model
      else problem.planning.model.relaxIntegrality).constraints =
        problem.planning.model.constraints := by
    split_ifs <;> rfl
  refine ⟨hrows, rfl, hframe, ?_, ?_, ?_⟩
  · rw [PlanningProblem.rowNames, hrows]
    exact hnames
  · rw [PlanningProblem.cutCount, PlanningProblem.cutRows, hrows]
    exact congrArg List.length hcuts
  · have hperm := List.mergeSort_perm evaluators fun a b => decide (a.index ≤ b.index)
    refine (hperm.map _).trans ?_
    rw [indices_eq (forall₂_of_mapM_eq_ok hevaluators)]
    exact (DecomposedProblem.validate_eq_ok.mp hvalid).indices

theorem accumulates_pass (hbefore : before.1.Accumulates c problem passes)
    (h : pass.Leads backend clock c problem.linking before after) :
    after.1.planning.GainsCuts before.1.planning pass.cuts ∧
      pass.cuts.map (·.name) = problem.planning.cutNames (passes.length + 1) pass.outcomes ∧
      pass.outcomes.keys = List.range problem.subproblems.length ∧
      after.1.Accumulates c problem (passes ++ [pass]) := by
  obtain ⟨hgains, hnodup⟩ := PlanningProblem.gainsCuts_of_addCuts h.adds
  obtain ⟨hindices, entries, hkeys, houtcomes⟩ := Evaluator.keys_of_evaluateAll h.evaluates
  have hnames : pass.cuts.map (·.name) =
      problem.planning.cutNames (passes.length + 1) pass.outcomes := by
    rw [PlanningProblem.names_cuts h.cuts, hbefore.frame.cutNames, hbefore.count]
  refine ⟨hgains, hnames, ?_, ?_, hgains.sharesFrame hbefore.frame, hnodup hbefore.names, ?_, ?_⟩
  · rw [houtcomes, SortedMap.keys_of_insert (hkeys ▸ hbefore.indices)]
  · rw [h.records, History.count_record, hbefore.count, List.length_append, List.length_singleton]
  · rw [hgains.cutCount_eq fun name hname =>
        PlanningProblem.marked_of_mem_cutNames (hnames ▸ hname), hbefore.cuts]
    simp
  · rw [hindices]
    exact hbefore.indices

theorem accumulates_traces (hstart : start.1.Accumulates c problem ([] : List (Pass K σ)))
    (h : Traces backend clock c problem.linking start passes after) :
    after.1.Accumulates c problem passes := by
  induction h with
  | start => exact hstart
  | pass _ hleads ih => exact (accumulates_pass ih hleads).2.2.2

/-- Every pass of a trace leads on from the passes before it. -/
theorem Traces.exists_leads {linking : List String}
    (h : Traces backend clock c linking start passes after) {k : ℕ} (hpass : passes[k]? = some pass) :
    ∃ before after, Traces backend clock c linking start (passes.take k) before ∧
      pass.Leads backend clock c linking before after ∧
      Traces backend clock c linking start (passes.take (k + 1)) after := by
  induction h with
  | start => cases hpass
  | @pass passes last before after htraces hleads ih =>
    rcases Nat.lt_or_ge k passes.length with hk | hk
    · rw [List.getElem?_append_left hk] at hpass
      rw [List.take_append_of_le_length hk.le, List.take_append_of_le_length hk]
      exact ih hpass
    · have hlast : k = passes.length := by
        have := (List.getElem?_eq_some_iff.mp hpass).choose
        simp at this
        omega
      subst hlast
      obtain rfl : last = pass := by simpa using hpass
      refine ⟨before, after, by simpa using htraces, hleads, ?_⟩
      rw [List.take_of_length_le (by simp)]
      exact htraces.pass hleads

end RunState

/-- Whatever the backend replies, a run that returns has only added rows to the planning problem: in
each iteration the rows of its cuts, one for every infeasible subproblem and, with a proxy for each
subproblem, one for every feasible one, with a single proxy one if and only if all are feasible. Row
names stay distinct, the final planning problem counts all cuts, and everything else in it is as it
was given. -/
theorem runs_accumulate_cuts {backend : Backend (StateM σ) K} {clock : Clock (StateM σ) K}
    {c : Configuration K} {problem : DecomposedProblem K} {r : RunResult K} {w w' : σ}
    (hnames : problem.planning.rowNames.Nodup) (hcuts : problem.planning.cutRows = [])
    (hrun : Yields (problem.run backend clock c) w r w') :
    ∃ start passes last, RunState.start c problem = .ok start ∧
      start.planning.model.constraints = problem.planning.model.constraints ∧
      RunState.Traces backend clock c problem.linking (start, w) passes (last, w') ∧
      r.planning = last.planning ∧ r.history.count = passes.length ∧
      last.Accumulates c problem passes ∧
      ∀ k pass, passes[k]? = some pass → ∃ before after,
        RunState.Traces backend clock c problem.linking (start, w) (passes.take k) before ∧
        pass.Leads backend clock c problem.linking before after ∧
        RunState.Traces backend clock c problem.linking (start, w) (passes.take (k + 1)) after ∧
        after.1.planning.GainsCuts before.1.planning pass.cuts ∧
        pass.cuts.map (·.name) = problem.planning.cutNames (k + 1) pass.outcomes ∧
        pass.outcomes.keys = List.range problem.subproblems.length ∧
        after.1.Accumulates c problem (passes.take (k + 1)) := by
  obtain ⟨start, passes, last, hstart, htraces, hplanning, -, -, hhistory, -⟩ :=
    RunState.run_stops hrun
  obtain ⟨hrows, haccumulates⟩ := RunState.accumulates_start hnames hcuts hstart
  have haccumulates' {passes : List (Pass K σ)} {after : RunState K × σ}
      (h : RunState.Traces backend clock c problem.linking (start, w) passes after) :
      after.1.Accumulates c problem passes :=
    RunState.accumulates_traces haccumulates h
  have hcount : r.history.count = passes.length := by
    rw [hhistory, History.count_ofMeasured, List.length_map]
  refine ⟨start, passes, last, hstart, hrows, htraces, hplanning, hcount, haccumulates' htraces,
    fun k pass hpass => ?_⟩
  obtain ⟨before, after, hbefore, hleads, hafter⟩ := htraces.exists_leads hpass
  obtain ⟨hgains, hcutNames, hkeys, -⟩ :=
    RunState.accumulates_pass (haccumulates' hbefore) hleads
  have hlength : (passes.take k).length = k :=
    List.length_take_of_le (List.getElem?_eq_some_iff.mp hpass).choose.le
  exact ⟨before, after, hbefore, hleads, hafter, hgains, hlength ▸ hcutNames, hkeys,
    haccumulates' hafter⟩

/-- The run over one plant adds a feasibility cut and two optimality cuts, one in each iteration. -/
theorem onePlant_accumulates_cuts :
    ∃ r start passes last, Yields onePlantRun () r () ∧
      r.planning.rowNames = ["feas_cut[1,0]", "opt_cut[2,all]", "opt_cut[3,all]"] ∧
      RunState.start .default onePlant = .ok start ∧
      RunState.Traces (ConicSolver.checkedBackend ConicProgram.solveByPivoting)
        (fun _ => pure (Exact.number 1)) .default onePlant.linking (start, ()) passes (last, ()) ∧
      passes.length = 3 ∧ r.planning = last.planning ∧
      last.Accumulates .default onePlant passes := by
  obtain ⟨r, hrun, hnames, hcount⟩ := exists_ok_of_any (x := (onePlantRun.run.run ()).1)
    (P := fun r => r.planning.rowNames = ["feas_cut[1,0]", "opt_cut[2,all]", "opt_cut[3,all]"] ∧
      r.history.count = 3) (by decide +kernel)
  have hyields : Yields onePlantRun () r () := Prod.ext hrun rfl
  obtain ⟨start, passes, last, hstart, -, htraces, hplanning, hlength, haccumulates, -⟩ :=
    runs_accumulate_cuts (by decide) rfl hyields
  exact ⟨r, start, passes, last, hyields, hnames, hstart, htraces, hlength ▸ hcount, hplanning,
    haccumulates⟩

end BendersPlanning

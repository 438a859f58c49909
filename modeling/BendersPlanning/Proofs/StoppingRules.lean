import BendersPlanning.Proofs.RunBounds
import BendersPlanning.Proofs.RunTraces

/-!
# When runs stop and what they report

A run stops with the first iteration after which the gap is closed, the iterations are used up or
the time is over, in this order of precedence. Its result reports what was measured until then: the
bounds, the gap, the reason to stop and the first candidate of the least cost.
-/

namespace BendersPlanning

variable {K : Type} [Scalar K] {σ : Type}

/-- The criteria that end a run, after some iterations. -/
def StopsAfter (c : Configuration K) (measured : List (Measurement K)) : Prop :=
  gapAfter measured ≤ c.convTol ∨ c.maxIter ≤ measured.length ∨
    ∃ last ∈ measured.getLast?, c.maxCpuTime ≤ last.elapsed

/-- Which criterion counts where several hold. -/
def verdict (c : Configuration K) (measured : List (Measurement K)) : Termination :=
  if gapAfter measured ≤ c.convTol then .converged
  else if c.maxIter ≤ measured.length then .maxIterations
  else .maxCpuTime

/-- The criteria hold after none of these iterations. -/
def RunsThrough (c : Configuration K) (measured : List (Measurement K)) : Prop :=
  ∀ k, 0 < k → k ≤ measured.length → ¬StopsAfter c (measured.take k)

/-- The criteria hold after these iterations and after none of the earlier ones. -/
structure StopsFirstAfter (c : Configuration K) (measured : List (Measurement K)) : Prop where
  started : 0 < measured.length
  stops : StopsAfter c measured
  continues : ∀ k, 0 < k → k < measured.length → ¬StopsAfter c (measured.take k)

/-- A result reports some measurements. -/
structure RunResult.Reports (r : RunResult K) (c : Configuration K)
    (measured : List (Measurement K)) : Prop where
  count : r.history.count = measured.length
  columns : ∀ f, (r.history.column f).size = measured.length
  candidates : r.iterations.map (·.candidate) = measured.map (·.candidate)
  iterations : ∀ k : ℕ, r.history.iterations[k]? = measured[k]?.map fun x =>
    ⟨greatest ((measured.take (k + 1)).map (·.lowerBound)), x.upperBound,
      lowestCost (measured.take (k + 1)), x.elapsed, x.gamma, x.candidate⟩
  gap : r.history.gap = gapAfter measured
  lowerBound : r.lowerBound = greatest (measured.map (·.lowerBound))
  upperBound : r.upperBound = lowestCost measured
  termination : r.termination = verdict c measured
  converged : r.isConverged = true ↔ r.termination = .converged
  best : (∃ k first, IsFirstOfLeastCost measured k first ∧ r.best = first.candidate) ∨
    (∀ x ∈ measured, ¬x.upperBound < Scalar.infinity) ∧
      ∃ last ∈ measured.getLast?, r.best = last.candidate

variable {c : Configuration K} {measured : List (Measurement K)} {x : Measurement K}

theorem stopsAfter_concat : StopsAfter c (measured ++ [x]) ↔
    gapAfter (measured ++ [x]) ≤ c.convTol ∨ c.maxIter ≤ measured.length + 1 ∨
      c.maxCpuTime ≤ x.elapsed := by
  simp [StopsAfter]

theorem RunsThrough.take_concat {k : ℕ} (h : RunsThrough c measured) (hk : 0 < k)
    (hle : k ≤ measured.length) : ¬StopsAfter c ((measured ++ [x]).take k) := by
  rw [List.take_append_of_le_length hle]
  exact h k hk hle

theorem RunsThrough.concat (h : RunsThrough c measured) (hx : ¬StopsAfter c (measured ++ [x])) :
    RunsThrough c (measured ++ [x]) := by
  intro k hk hle
  rcases Nat.lt_or_ge measured.length k with hnew | hold
  · rwa [List.take_of_length_le (by simp; omega)]
  · exact h.take_concat hk hold

theorem RunsThrough.stopsFirstAfter (h : RunsThrough c measured)
    (hx : StopsAfter c (measured ++ [x])) : StopsFirstAfter c (measured ++ [x]) where
  started := by simp
  stops := hx
  continues := fun k hk hlt => h.take_concat hk (by simp at hlt; omega)

/-- The iterations of a run are within the limit. -/
theorem StopsFirstAfter.length_le (h : StopsFirstAfter c measured) (hc : 0 < c.maxIter) :
    measured.length ≤ c.maxIter := by
  by_contra hlong
  refine h.continues c.maxIter hc (by omega) (.inr (.inl ?_))
  rw [List.length_take]
  omega

namespace History

theorem gap_ofMeasured : (ofMeasured measured).gap = gapAfter measured := by
  rw [gap, lowerBound_ofMeasured, bestUpperBound_ofMeasured, gapAfter]

/-- What is only recorded is the same in a history as it was measured. -/
theorem map_iterations_ofMeasured {α : Type} {f : Iteration K → α} {g : Measurement K → α}
    (h : ∀ lower best x, f ⟨lower, x.upperBound, best, x.elapsed, x.gamma, x.candidate⟩ = g x) :
    (ofMeasured measured).iterations.toList.map f = measured.map g := by
  refine List.ext_getElem? fun k => ?_
  rw [List.getElem?_map, Array.getElem?_toList, getElem?_iterations, Option.map_map,
    List.getElem?_map]
  exact congrArg (measured[k]?.map ·) (funext fun x => h _ _ x)

theorem back?_ofMeasured : (ofMeasured measured).iterations.back?.map (·.candidate) =
    measured.getLast?.map (·.candidate) := by
  induction measured using List.reverseRecOn with
  | nil => rfl
  | append_singleton measured x => simp [record]

end History

namespace RunState

variable {backend : Backend (StateM σ) K} {clock : Clock (StateM σ) K} {linking : List String}
  {start : RunState K × σ} {s s' : RunState K} {w w' : σ} {passes : List (Pass K σ)}

theorem isTimedOut_iff (h : s.history = .ofMeasured (measured ++ [x])) :
    s.isTimedOut c = true ↔ c.maxCpuTime ≤ x.elapsed := by
  simp [isTimedOut, h, History.record]

/-- A pass after which no criterion holds does not end a run. -/
theorem runsThrough_pass {before after : RunState K × σ} {pass : Pass K σ}
    (hempty : start.1.history = .empty)
    (htraces : Traces backend clock c linking start passes before)
    (hleads : pass.Leads backend clock c linking before after)
    (hthrough : RunsThrough c (passes.map (·.measurement)))
    (hcount : passes.length + 1 < c.maxIter) (hopen : ¬after.1.history.gap ≤ c.convTol)
    (hintime : ¬after.1.isTimedOut c = true) :
    RunsThrough c ((passes ++ [pass]).map (·.measurement)) := by
  have hhistory := (htraces.pass hleads).history hempty
  have hmap : (passes ++ [pass]).map (·.measurement) =
      passes.map (·.measurement) ++ [pass.measurement] := by simp
  rw [hhistory, History.gap_ofMeasured, hmap] at hopen
  rw [isTimedOut_iff (hmap ▸ hhistory)] at hintime
  rw [hmap]
  refine hthrough.concat fun hstops => ?_
  rcases stopsAfter_concat.mp hstops with hclosed | hlimit | hover
  · exact hopen hclosed
  · rw [List.length_map] at hlimit
    omega
  · exact hintime hover

/-- Iterating on from passes that did not end the run ends it with the first one that does. -/
theorem iterate_stops {more : ℕ} {termination : Termination}
    (hempty : start.1.history = .empty)
    (htraces : Traces backend clock c linking start passes (s, w))
    (hcount : passes.length + more + 1 = c.maxIter)
    (hthrough : RunsThrough c (passes.map (·.measurement)))
    (h : Yields (s.iterate backend clock c linking more) w (s', termination) w') :
    ∃ passes, Traces backend clock c linking start passes (s', w') ∧
      StopsFirstAfter c (passes.map (·.measurement)) ∧
      termination = verdict c (passes.map (·.measurement)) := by
  induction more using Nat.strong_induction_on generalizing s w passes with
  | _ more ih =>
    obtain ⟨s₁, w₁, hstep, hcases⟩ := iterate_cases h
    obtain ⟨pass, hleads⟩ := yields_step_iff.mp hstep
    rcases hcases with ⟨hlast, hended⟩ | ⟨rest, rfl, hopen, hintime, hrest⟩
    · obtain ⟨rfl, rfl⟩ := Prod.mk.inj hlast
      have htraces := htraces.pass hleads
      have hhistory := htraces.history hempty
      have hlength : (passes.map (·.measurement)).length = passes.length := List.length_map _
      have hmap : (passes ++ [pass]).map (·.measurement) =
        passes.map (·.measurement) ++ [pass.measurement] := by simp
      rw [hhistory, History.gap_ofMeasured, isTimedOut_iff (hmap ▸ hhistory), hmap] at hended
      refine ⟨_, htraces, hmap ▸ hthrough.stopsFirstAfter (stopsAfter_concat.mpr ?_), ?_⟩
      · obtain ⟨hclosed, -⟩ | ⟨-, rfl, -⟩ | ⟨-, -, hover, -⟩ := hended
        · exact .inl hclosed
        · exact .inr (.inl (by omega))
        · exact .inr (.inr hover)
      · rw [hmap, verdict, List.length_append, List.length_singleton, hlength]
        obtain ⟨hclosed, rfl⟩ | ⟨hopen, rfl, rfl⟩ | ⟨hopen, hmore, -, rfl⟩ := hended
        · rw [if_pos hclosed]
        · rw [if_neg hopen, if_pos (by omega)]
        · rw [if_neg hopen, if_neg (by omega)]
    · exact ih rest rest.lt_succ_self (htraces.pass hleads) (by simp; omega)
        (runsThrough_pass hempty htraces hleads hthrough (by omega) hopen hintime) hrest

end RunState

/-- The parts of a result that only depend on its history. -/
theorem RunResult.reports [OrderedScalar K] {r : RunResult K}
    (hhistory : r.history = .ofMeasured measured) (htermination : r.termination = verdict c measured)
    (hbest : r.history.incumbent?.or (r.history.iterations.back?.map (·.candidate)) = some r.best) :
    r.Reports c measured where
  count := by rw [hhistory, History.count_ofMeasured]
  columns := fun f => by
    rw [History.column, Array.size_map, hhistory]
    exact History.count_ofMeasured
  candidates := by
    rw [RunResult.iterations, hhistory]
    exact History.map_iterations_ofMeasured fun _ _ _ => rfl
  iterations := fun k => by rw [hhistory, History.getElem?_iterations]
  gap := by rw [hhistory, History.gap_ofMeasured]
  lowerBound := by rw [RunResult.lowerBound, hhistory, History.lowerBound_ofMeasured]
  upperBound := by
    rw [RunResult.upperBound, lowestCost, least, hhistory, ← Array.foldl_toList,
      ← History.map_iterations_ofMeasured (f := (·.upperBound)) fun _ _ _ => rfl, List.foldl_map]
  termination := htermination
  converged := by rw [isConverged, decide_eq_true_iff]
  best := by
    rw [hhistory, History.back?_ofMeasured] at hbest
    rcases History.incumbent?_ofMeasured measured with ⟨hnone, hall⟩ | ⟨k, first, hsome, hfirst⟩
    · rw [hnone, Option.none_or] at hbest
      obtain ⟨last, hlast, hcandidate⟩ := Option.map_eq_some_iff.mp hbest
      exact .inr ⟨hall, last, hlast, hcandidate.symm⟩
    · rw [hsome, Option.some_or] at hbest
      exact .inl ⟨k, first, hfirst, (Option.some.inj hbest).symm⟩

/-- A run that returns is a trace from its start up to the first iteration that ends it. -/
theorem RunState.run_stops {backend : Backend (StateM σ) K} {clock : Clock (StateM σ) K}
    {problem : DecomposedProblem K} {r : RunResult K} {w w' : σ}
    (hrun : Yields (problem.run backend clock c) w r w') :
    ∃ start passes last, RunState.start c problem = .ok start ∧
      Traces backend clock c problem.linking (start, w) passes (last, w') ∧
      r.planning = last.planning ∧ passes.length ≤ c.maxIter ∧
      StopsFirstAfter c (passes.map (·.measurement)) ∧
      r.history = .ofMeasured (passes.map (·.measurement)) ∧
      r.termination = verdict c (passes.map (·.measurement)) ∧
      r.history.incumbent?.or (r.history.iterations.back?.map (·.candidate)) = some r.best := by
  obtain ⟨start, s, hstart, hiterate, hplanning, hhistory, hbest⟩ := run_cases hrun
  obtain ⟨hvalid, -, evaluators, -, hstate⟩ := start_eq_ok.mp hstart
  have hlimit := (Configuration.validate_eq_ok.mp hvalid).iterations
  have hempty : start.history = .empty := by rw [hstate]
  obtain ⟨passes, htraces, hstops, htermination⟩ :=
    iterate_stops hempty (.start : Traces _ _ _ _ (start, w) [] _) (by simp; omega)
      (fun k hk hle => absurd hle (by simpa using hk.ne')) hiterate
  exact ⟨start, passes, s, hstart, htraces, hplanning, by simpa using hstops.length_le hlimit,
    hstops, hhistory.trans (htraces.history hempty), htermination, hhistory ▸ hbest⟩

/-- Whatever the backend answers and the clock shows, a run that returns stops with the first
iteration after which a criterion holds, within the limit, and reports what was measured. -/
theorem runs_stop_and_report [OrderedScalar K] {backend : Backend (StateM σ) K}
    {clock : Clock (StateM σ) K} {problem : DecomposedProblem K} {r : RunResult K} {w w' : σ}
    (hrun : Yields (problem.run backend clock c) w r w') :
    ∃ start passes last, RunState.start c problem = .ok start ∧
      RunState.Traces backend clock c problem.linking (start, w) passes (last, w') ∧
      r.planning = last.planning ∧
      passes.length ≤ c.maxIter ∧ StopsFirstAfter c (passes.map (·.measurement)) ∧
      r.Reports c (passes.map (·.measurement)) := by
  obtain ⟨start, passes, last, hstart, htraces, hplanning, hlimit, hstops, hmeasured, htermination,
    hbest⟩ := RunState.run_stops hrun
  exact ⟨start, passes, last, hstart, htraces, hplanning, hlimit, hstops,
    RunResult.reports hmeasured htermination hbest⟩

/-- The run over one plant closes its gap in the third iteration. -/
theorem onePlant_stops_and_reports :
    ∃ r start passes last, Yields onePlantRun () r () ∧ r.history.count = 3 ∧
      RunState.start .default onePlant = .ok start ∧
      RunState.Traces (ConicSolver.checkedBackend ConicProgram.solveByPivoting)
        (fun _ => pure (Exact.number 1)) .default onePlant.linking (start, ()) passes (last, ()) ∧
      StopsFirstAfter .default (passes.map (·.measurement)) ∧
      r.Reports .default (passes.map (·.measurement)) := by
  obtain ⟨r, hrun, hcount⟩ := exists_ok_of_any (x := (onePlantRun.run.run ()).1)
    (P := fun r => r.history.count = 3) (by decide +kernel)
  have hyields : Yields onePlantRun () r () := Prod.ext hrun rfl
  obtain ⟨start, passes, last, hstart, htraces, -, -, hstops, hreports⟩ :=
    runs_stop_and_report hyields
  exact ⟨r, start, passes, last, hyields, hcount, hstart, htraces, hstops, hreports⟩

end BendersPlanning

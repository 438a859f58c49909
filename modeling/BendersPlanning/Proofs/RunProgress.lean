import BendersPlanning.Proofs.BitingCuts
import BendersPlanning.Proofs.BracketingBounds
import BendersPlanning.Proofs.StoppingRules

/-!
# Progress of runs without a level set

Without the projection every candidate is the solution of the planning problem itself. If none of
the cuts that are made there is violated by it, all subproblems are feasible at no more than the
proxies charge, so the upper bound is no more than the lower one and the run has converged. Every
other iteration excludes its candidate: a backend that meets the rows never answers with the same
linking values and proxies again.

Replies need not be optimal here. It is enough that an optimum comes with a finite point and the
objective of that point, and that certificates of subproblems have a positive margin.
-/

namespace BendersPlanning

open Exact (number)

section Promises
variable {K : Type} [Scalar K] {σ : Type}

/-- An optimum comes with a finite point and its objective. -/
structure Solution.IsConsistentWith (s : Solution K) (m : Model K) : Prop where
  primal : s.status = .optimal → IsFiniteVector m.vars.size s.primal
  value : s.status = .optimal → s.objective = m.objectiveValue s.primal

def Backend.IsConsistent (backend : Backend (StateM σ) K) : Prop :=
  ∀ (model : Model K) (settings : SolverSettings K) (w w' : σ) (s : Solution K),
    model.WellFormed → Answers (backend.solve model settings) w (.ok s) w' → s.IsConsistentWith model

/-- Optimal points meet the rows of the model they were returned for. -/
def Backend.KeepsRows (backend : Backend (StateM σ) K) : Prop :=
  ∀ (model : Model K) (settings : SolverSettings K) (w w' : σ) (s : Solution K),
    model.WellFormed → Answers (backend.solve model settings) w (.ok s) w' → s.status = .optimal →
      ∀ row ∈ model.constraints, row.Holds s.primal

/-- At whatever values a subproblem is found infeasible, the margin of the certificate is positive. -/
def Backend.RefutesStrictly (backend : Backend (StateM σ) K) (e : Evaluator K) : Prop :=
  ∀ values (settings : SolverSettings K) (w w' : σ) (s : Solution K),
    (e.modelAt values).WellFormed →
    Answers (backend.solve (e.modelAt values) settings) w (.ok s) w' → s.status = .infeasible →
      ∀ c ∈ s.certificate, 0.0 < c.infeasibility

/-- The planning problem was solved in a pass by an optimal reply, whose point gave the candidate. -/
structure Pass.IsSolvedBy (backend : Backend (StateM σ) K) (linking : List String)
    (p : Pass K σ) (planning : PlanningProblem K) (s : Solution K) : Prop where
  replied : ∃ settings w, Answers (backend.solve planning.model settings) w (.ok s) p.solved
  optimal : s.status = .optimal
  read : Candidate.ofPoint planning linking s.primal s.objective = .ok p.master

theorem Pass.Leads.exists_isSolvedBy {backend : Backend (StateM σ) K} {clock : Clock (StateM σ) K}
    {c : Configuration K} {linking : List String} {p : Pass K σ} {before after : RunState K × σ}
    (h : p.Leads backend clock c linking before after) :
    ∃ s, p.IsSolvedBy backend linking before.1.planning s := by
  obtain ⟨settings, w, s, hreplied, hoptimal, -, hread⟩ := PlanningProblem.solve_replied h.solves
  exact ⟨s, ⟨settings, w, hreplied⟩, hoptimal, hread⟩

/-- No pass gives the linking values and proxies of an earlier one that left the gap open. -/
def NeverRepeats (c : Configuration K) (passes : List (Pass K σ)) : Prop :=
  ∀ (j k : ℕ) (earlier later : Pass K σ), j < k → passes[j]? = some earlier →
    passes[k]? = some later → ¬gapAfter ((passes.map (·.measurement)).take (j + 1)) ≤ c.convTol →
    ¬(later.point.values = earlier.point.values ∧ later.point.theta = earlier.point.theta)

/-- A run that stops with its first closed gap repeats nothing. -/
theorem NeverRepeats.nodup {c : Configuration K} {passes : List (Pass K σ)}
    (h : NeverRepeats c passes) (hstops : StopsFirstAfter c (passes.map (·.measurement))) :
    (passes.map fun p => (p.point.values, p.point.theta)).Nodup := by
  refine List.pairwise_iff_getElem.mpr fun j k hj hk hjk hsame => ?_
  simp only [List.length_map, List.getElem_map, Prod.mk.injEq] at hj hk hsame
  refine h j k _ _ hjk (List.getElem?_eq_getElem hj) (List.getElem?_eq_getElem hk)
    (fun hclosed => ?_) ⟨hsame.1.symm, hsame.2.symm⟩
  exact hstops.continues (j + 1) j.succ_pos (by simp; omega) (.inl hclosed)

end Promises

section Truth
variable {σ : Type} {backend : Backend (StateM σ) Exact}

/-- A backend that tells the truth is consistent and keeps rows and margins. -/
theorem Backend.IsExact.isConsistent (hb : backend.IsExact) : backend.IsConsistent :=
  fun model settings w w' s hm hs =>
    have hexact := hb model settings w w' s hm hs
    ⟨fun h => (hexact.feasible h).toIsFiniteVector, hexact.value⟩

theorem Backend.IsExact.keepsRows (hb : backend.IsExact) : backend.KeepsRows :=
  fun model settings w w' s hm hs h => ((hb model settings w w' s hm hs).feasible h).rows

theorem Backend.IsExact.refutesStrictly (hb : backend.IsExact) (e : Evaluator Exact) :
    backend.RefutesStrictly e :=
  fun _ settings w w' s hm hs h c hc => ((hb _ settings w w' s hm hs).refuted h c hc).margin.2

end Truth

namespace Evaluator

variable {σ : Type} {backend : Backend (StateM σ) Exact} {e : Evaluator Exact}
  {values : SortedMap String Exact} {o : OperationOutcome Exact}

theorem Obtains.isFinite_cost (hb : backend.IsConsistent) (he : e.IsReady)
    (h : e.Obtains backend values o) (hfeasible : o.isFeasible = true) :
    Scalar.isFinite o.cost = true := by
  obtain ⟨settings, w, s, w', hreplied, houtcome⟩ := h.replied
  have hconsistent := hb _ settings w w' s he.model hreplied
  rcases outcome_eq_ok houtcome with ⟨hs, houtcome⟩ | ⟨-, c, -, rfl⟩
  · obtain ⟨used, rfl⟩ := optimalOutcome_eq_ok houtcome
    rw [OperationOutcome.cost, hconsistent.value hs,
      Model.objectiveValue_eq he.model (hconsistent.primal hs)]
    exact Exact.isFinite_number _
  · cases hfeasible

theorem Obtains.margin_pos (hrefutes : backend.RefutesStrictly e) (he : e.IsReady)
    {ray : SortedMap String Exact} {margin : Exact}
    (h : e.Obtains backend values (.infeasible ray margin)) : 0.0 < margin := by
  obtain ⟨settings, w, s, w', hreplied, houtcome⟩ := h.replied
  have hmodel := he.model
  rw [h.fixed] at hreplied hmodel
  rcases outcome_eq_ok houtcome with ⟨-, houtcome⟩ | ⟨hs, c, hc, hsame⟩
  · obtain ⟨used, hsame⟩ := optimalOutcome_eq_ok houtcome
    cases hsame
  · cases hsame
    exact hrefutes _ settings w w' s hmodel hreplied hs c hc

end Evaluator

namespace Exact

variable {x : Exact}

theorem exists_larger_eq_number (hx : x = negInfinity ∨ ∃ q, x = number q) (a : ℚ) :
    ∃ b, Scalar.larger x (number a) = number b ∧ a ≤ b := by
  rcases hx with rfl | ⟨q, rfl⟩
  · refine ⟨a, ?_, le_rfl⟩
    rw [Scalar.larger, isUndefined_number]
    rfl
  · exact ⟨max q a, larger_number q a, le_max_right q a⟩

theorem exists_smaller_eq_number (hx : x = infinity ∨ ∃ q, x = number q) (a : ℚ) :
    ∃ b, Scalar.smaller x (number a) = number b ∧ b ≤ a := by
  rcases hx with rfl | ⟨q, rfl⟩
  · refine ⟨a, ?_, le_rfl⟩
    rw [Scalar.smaller, isUndefined_number]
    rfl
  · exact ⟨min q a, smaller_number q a, min_le_right q a⟩

theorem smaller_infinity (hx : x = infinity ∨ ∃ q, x = number q) :
    Scalar.smaller x infinity = x := by
  rcases hx with rfl | ⟨q, rfl⟩
  · rfl
  · rw [Scalar.smaller, isUndefined_number]
    rfl

end Exact

namespace History

variable {h : History Exact} {elapsed gamma upper : Exact} {lower : ℚ} {candidate : Candidate Exact}

/-- Bounds are numbers, apart from what they are before the first ones. -/
structure HasNumbers (h : History Exact) : Prop where
  lower : h.lowerBound = .negInfinity ∨ ∃ q, h.lowerBound = number q
  upper : h.bestUpperBound = .infinity ∨ ∃ q, h.bestUpperBound = number q

theorem hasNumbers_empty : (empty : History Exact).HasNumbers := ⟨.inl rfl, .inl rfl⟩

theorem HasNumbers.record (hh : h.HasNumbers)
    (hupper : upper = .infinity ∨ ∃ q, upper = number q) :
    (h.record (number lower) upper elapsed gamma candidate).HasNumbers := by
  obtain ⟨l, hl, -⟩ := Exact.exists_larger_eq_number hh.lower lower
  refine ⟨.inr ⟨l, by rw [lowerBound_record, hl]⟩, ?_⟩
  rw [bestUpperBound_record]
  rcases hupper with rfl | ⟨q, rfl⟩
  · rw [Exact.smaller_infinity hh.upper]
    exact hh.upper
  · obtain ⟨u, hu, -⟩ := Exact.exists_smaller_eq_number hh.upper q
    exact .inr ⟨u, hu⟩

/-- Bounds that meet leave no gap. -/
theorem gap_nonpos {l u : ℚ} (hl : h.lowerBound = number l) (hu : h.bestUpperBound = number u)
    (hle : u ≤ l) : h.gap ≤ number 0 := by
  rw [gap, hl, hu]
  obtain ⟨-, hvalue⟩ | ⟨-, hpositive, hvalue⟩ := relativeGap_cases l u <;>
    rw [hvalue, Exact.number_le]
  · linarith
  · exact div_nonpos_of_nonpos_of_nonneg (by linarith) hpositive.le

theorem HasNumbers.gap_record_nonpos (hh : h.HasNumbers) {u : ℚ} (hle : u ≤ lower) :
    (h.record (number lower) (number u) elapsed gamma candidate).gap ≤ number 0 := by
  obtain ⟨l, hl, hlower⟩ := Exact.exists_larger_eq_number hh.lower lower
  obtain ⟨b, hb, hupper⟩ := Exact.exists_smaller_eq_number hh.upper u
  exact gap_nonpos (by rw [lowerBound_record, hl]) (by rw [bestUpperBound_record, hb])
    (hupper.trans (hle.trans hlower))

end History

theorem PlanningProblem.Extends.chargesProxies {p p' : PlanningProblem Exact} (h : p'.Extends p)
    (hcharges : p.ChargesProxies) : p'.ChargesProxies := by
  rw [ChargesProxies, h.objective, h.fixedCost, h.theta]
  exact hcharges

/-- The master objective is at least the fixed cost plus the proxies at the point it comes with. -/
theorem PlanningProblem.ChargesProxies.le_objectiveValue {p : PlanningProblem Exact}
    (h : p.ChargesProxies) (hm : p.model.WellFormed) {point : Array Exact}
    (hpoint : IsFiniteVector p.model.vars.size point) :
    ∃ fixed objective, p.fixedCost.evaluate point = number fixed ∧
      p.model.objectiveValue point = number objective ∧
      fixed + (p.theta.toList.map (coordinate point)).sum ≤ objective :=
  ⟨_, _, Expression.evaluate_eq (h.isOver_fixedCost hm) hpoint, Model.objectiveValue_eq hm hpoint,
    h.le_cost hm (coordinate point)⟩

namespace RunState

variable {σ : Type} {backend : Backend (StateM σ) Exact} {clock : Clock (StateM σ) Exact}
  {c : Configuration Exact} {linking : List String} {s : RunState Exact}

/-- What an iteration without a level set starts from. -/
structure IsUnstabilized (backend : Backend (StateM σ) Exact) (s : RunState Exact) : Prop where
  sound : s.IsSound
  gamma : s.gamma = 0.0
  charges : s.planning.ChargesProxies
  proxies : s.planning.HasProxyFor (s.evaluators.map (·.index))
  refutes : ∀ e ∈ s.evaluators, backend.RefutesStrictly e
  history : s.history.HasNumbers

/-- Without a level set the solution of the planning problem is evaluated. -/
theorem candidate_eq_master (hgamma : s.gamma = 0.0) {settings : SolverSettings Exact}
    {master point : Candidate Exact} {w w' : σ}
    (h : Answers (s.candidate backend linking settings master) w point w') : point = master := by
  rw [candidate_eq_pure (hgamma ▸ lt_irrefl_scalar _)] at h
  exact (answers_pure.mp h).1.symm

variable {before after : RunState Exact × σ} {pass : Pass Exact σ}

theorem gamma_eq_zero (hbefore : before.1.gamma = 0.0) (hstab : c.stabParam = 0.0)
    (h : pass.Leads backend clock c linking before after) : after.1.gamma = 0.0 := by
  have hzero : (0.0 : Exact) ≤ 0.0 := by simp
  rw [h.adapts, h.stabilizes, hbefore, hstab, nextGamma, if_pos hzero, ite_self]

/-- The cost of a candidate with consistent outcomes is its fixed cost and all costs of operation, as
numbers, or infinite. -/
theorem upperBound_eq (candidate : Candidate Exact) {fixed : ℚ}
    {outcomes : SortedMap ℕ (OperationOutcome Exact)} (hfixed : candidate.fixedCost = number fixed)
    (hcosts : ∀ o ∈ outcomes.values, o.isFeasible = true → Scalar.isFinite o.cost = true) :
    candidate.upperBound outcomes =
      if outcomes.values.all (·.isFeasible) then
        number (fixed + (outcomes.values.map fun o => o.cost.toRat).sum)
      else .infinity := by
  unfold Candidate.upperBound
  by_cases hall : outcomes.values.all (·.isFeasible) = true
  · rw [if_pos hall, if_pos hall, hfixed, ← Exact.number_add, ← Exact.sum_map_number]
    refine congrArg _ (congrArg Scalar.sum (List.map_congr_left fun o ho => ?_))
    exact (Exact.number_toRat (hcosts o ho (List.all_eq_true.mp hall o ho))).symm
  · rw [if_neg hall, if_neg hall]
    rfl

/-- Every outcome of a pass was obtained by one of the evaluators that it leaves. -/
theorem leads_obtains (hbefore : before.1.IsSound)
    (h : pass.Leads backend clock c linking before after) :
    (pass.outcomes.entries.map (·.1)).Perm (before.1.evaluators.map (·.index)) ∧
      ∀ t ∈ pass.outcomes.entries, ∃ e ∈ after.1.evaluators,
        e.IsReady ∧ e.Obtains backend pass.point.values t.2 := by
  obtain ⟨-, hready, hindices, pairs, hpairs, hobtains, hentries⟩ :=
    hbefore.exists_pairs h.evaluates
  constructor
  · have hmapped := hentries.map (·.1)
    rw [List.map_map] at hmapped
    rw [← hindices, ← hpairs, List.map_map]
    exact hmapped
  · intro t ht
    obtain ⟨e, he, -, hobtain⟩ := exists_obtained hobtains hentries ht
    rw [hpairs] at he
    exact ⟨e, he, hready e he, hobtain⟩

/-- Costs of operation are numbers. -/
theorem isFinite_cost_of_leads (hb : backend.IsConsistent) (hbefore : before.1.IsSound)
    (h : pass.Leads backend clock c linking before after) :
    ∀ o ∈ pass.outcomes.values, o.isFeasible = true → Scalar.isFinite o.cost = true := by
  intro o ho hfeasible
  obtain ⟨t, ht, rfl⟩ := List.mem_map.mp ho
  obtain ⟨e, -, hready, hobtain⟩ := (leads_obtains hbefore h).2 t ht
  exact hobtain.isFinite_cost hb hready hfeasible

/-- What an iteration without a level set records: the planning objective, which covers the fixed
cost and the proxies, against the fixed cost and all costs of operation. -/
theorem leads_records (hb : backend.IsConsistent) (hbefore : before.1.IsUnstabilized backend)
    (h : pass.Leads backend clock c linking before after) {s : Solution Exact}
    (hs : pass.IsSolvedBy backend linking before.1.planning s) :
    ∃ fixed objective : ℚ,
      fixed + (before.1.planning.theta.toList.map (coordinate s.primal)).sum ≤ objective ∧
      after.1.history = before.1.history.record (number objective)
        (if pass.outcomes.values.all (·.isFeasible) then
          number (fixed + (pass.outcomes.values.map fun o => o.cost.toRat).sum)
        else .infinity) pass.elapsed pass.gamma pass.master := by
  obtain ⟨settings, w, hreplied⟩ := hs.replied
  have hconsistent := hb _ settings w _ s hbefore.sound.planning hreplied
  obtain ⟨fixed, objective, hfixed, hobjective, hcharged⟩ :=
    hbefore.charges.le_objectiveValue hbefore.sound.planning (hconsistent.primal hs.optimal)
  have hlower : pass.master.lowerBound = number objective := by
    rw [PlanningProblem.lowerBound_of_ofPoint hs.read, hconsistent.value hs.optimal, hobjective]
  have hupper := upperBound_eq pass.master
    ((PlanningProblem.parts_of_ofPoint hs.read).1.trans hfixed)
    (isFinite_cost_of_leads hb hbefore.sound h)
  have hrecords := h.records
  rw [candidate_eq_master hbefore.gamma h.chooses, hlower, hupper] at hrecords
  exact ⟨fixed, objective, hcharged, hrecords⟩

theorem leads_unstabilized (hb : backend.IsConsistent) (hbefore : before.1.IsUnstabilized backend)
    (hstab : c.stabParam = 0.0) (h : pass.Leads backend clock c linking before after) :
    after.1.IsUnstabilized backend := by
  obtain ⟨hsound, hextends, hmatches, -⟩ := leads_keeps hbefore.sound h
  obtain ⟨s, hs⟩ := h.exists_isSolvedBy
  obtain ⟨fixed, objective, -, hrecords⟩ := leads_records hb hbefore h hs
  have hindices : after.1.evaluators.map (·.index) = before.1.evaluators.map (·.index) :=
    map_eq_of_matches hmatches fun _ _ hmatch => hmatch.index
  refine ⟨hsound, gamma_eq_zero hbefore.gamma hstab h, hextends.chargesProxies hbefore.charges,
    hindices ▸ hextends.hasProxyFor hbefore.proxies, fun e' he' values => ?_, ?_⟩
  · obtain ⟨e, he, hmatch⟩ := exists_of_forall₂ hmatches he'
    rw [hmatch.modelAt]
    exact hbefore.refutes e he values
  · rw [hrecords]
    apply hbefore.history.record
    split_ifs
    · exact .inr ⟨_, rfl⟩
    · exact .inl rfl

/-- One iteration without a level set: some cut is violated by the solution of the planning problem,
or the bounds meet. -/
theorem leads_progress (hb : backend.IsConsistent) (hbefore : before.1.IsUnstabilized backend)
    (hstab : c.stabParam = 0.0) (h : pass.Leads backend clock c linking before after)
    {s : Solution Exact} (hs : pass.IsSolvedBy backend linking before.1.planning s) :
    before.1.planning.Bites after.1.planning pass.cuts s.primal ∨
      after.1.history.gap ≤ number 0 := by
  rw [Classical.or_iff_not_imp_left]
  intro hbites
  obtain ⟨settings, w, hreplied⟩ := hs.replied
  have hprimal := (hb _ settings w _ s hbefore.sound.planning hreplied).primal hs.optimal
  have hcuts := h.cuts
  rw [candidate_eq_master hbefore.gamma h.chooses] at hcuts
  obtain ⟨hkeys, hobtained⟩ := leads_obtains hbefore.sound h
  have hrefutes := (leads_unstabilized hb hbefore hstab h).refutes
  have hall := PlanningProblem.all_isFeasible_of_not_bites hbefore.sound.planning hprimal hs.read
    h.adds hbites hcuts fun index ray margin hmem => by
      obtain ⟨e, he, hready, hobtain⟩ := hobtained _ hmem
      exact hobtain.margin_pos (hrefutes e he) hready
  have hcosts := isFinite_cost_of_leads hb hbefore.sound h
  have hsum := PlanningProblem.sum_cost_le_of_not_bites hbefore.sound.planning hprimal hs.read
    h.adds hbites hcuts hall (fun o ho => hcosts o ho (List.all_eq_true.mp hall o ho))
    (hbefore.proxies.perm hkeys)
  obtain ⟨fixed, objective, hcharged, hrecords⟩ := leads_records hb hbefore h hs
  rw [hrecords, if_pos hall]
  exact hbefore.history.gap_record_nonpos (by linarith)

variable {start : RunState Exact × σ} {passes : List (Pass Exact σ)}

theorem traces_unstabilized (hb : backend.IsConsistent) (hstart : start.1.IsUnstabilized backend)
    (hstab : c.stabParam = 0.0) (h : Traces backend clock c linking start passes after) :
    after.1.IsUnstabilized backend := by
  induction h with
  | start => exact hstart
  | pass _ hleads ih =>
    exact leads_unstabilized hb ih hstab hleads

/-- The solution of every iteration that leaves the gap open is excluded from then on. -/
theorem traces_exclude (hb : backend.IsConsistent) (hstart : start.1.IsUnstabilized backend)
    (hempty : start.1.history = .empty) (hstab : c.stabParam = 0.0) (hopen : number 0 ≤ c.convTol)
    (h : Traces backend clock c linking start passes after) :
    ∀ j pass, passes[j]? = some pass →
      ¬gapAfter ((passes.map (·.measurement)).take (j + 1)) ≤ c.convTol →
      after.1.planning.Excludes linking pass.point := by
  induction h with
  | start => simp
  | @pass passes pass before after htraces hleads ih =>
    have hbefore := traces_unstabilized hb hstart hstab htraces
    obtain ⟨s, hs⟩ := hleads.exists_isSolvedBy
    have hpoint := candidate_eq_master hbefore.gamma hleads.chooses
    obtain ⟨-, hextends, -⟩ := leads_keeps hbefore.sound hleads
    have hhistory := (htraces.pass hleads).history hempty
    intro j found hfound hgap
    rcases Nat.lt_or_ge j passes.length with hj | hj
    · rw [List.getElem?_append_left hj] at hfound
      rw [List.map_append, List.take_append_of_le_length (by simp; omega)] at hgap
      exact hextends.excludes (ih j found hfound hgap)
    · obtain ⟨rfl, rfl⟩ : j = passes.length ∧ pass = found := by
        rw [List.getElem?_append_right hj] at hfound
        obtain ⟨hlt, hsame⟩ := List.getElem?_eq_some_iff.mp hfound
        simp at hlt hsame
        exact ⟨by omega, hsame⟩
      rw [List.take_of_length_le (by simp), ← History.gap_ofMeasured, ← hhistory] at hgap
      have hbites := (leads_progress hb hbefore hstab hleads hs).resolve_right fun hclosed =>
        hgap (Exact.le_trans hclosed hopen)
      obtain ⟨settings, w, hreplied⟩ := hs.replied
      have hprimal := (hb _ settings w _ s hbefore.sound.planning hreplied).primal hs.optimal
      rw [hpoint]
      exact PlanningProblem.excludes_of_bites hbefore.sound.planning hprimal hs.read
        (hpoint ▸ hleads.cuts) hleads.adds hbites

/-- A backend that meets the rows never gives the linking values and proxies of an iteration again
that left the gap open. -/
theorem traces_distinct (hb : backend.IsConsistent) (hrows : backend.KeepsRows)
    (hstart : start.1.IsUnstabilized backend) (hempty : start.1.history = .empty)
    (hstab : c.stabParam = 0.0) (hopen : number 0 ≤ c.convTol)
    (h : Traces backend clock c linking start passes after) : NeverRepeats c passes := by
  induction h with
  | start => simp [NeverRepeats]
  | @pass passes pass before after htraces hleads ih =>
    intro j k first last hjk hfirst hlast hgap
    have hk : k ≤ passes.length := by
      have := (List.getElem?_eq_some_iff.mp hlast).choose
      simp at this
      omega
    rw [List.getElem?_append_left (by omega)] at hfirst
    rw [List.map_append, List.take_append_of_le_length (by simp; omega)] at hgap
    rcases Nat.lt_or_ge k passes.length with hold | hnew
    · rw [List.getElem?_append_left hold] at hlast
      exact ih j k first last hjk hfirst hlast hgap
    · obtain rfl : k = passes.length := by omega
      rw [List.getElem?_concat_length] at hlast
      obtain rfl := Option.some.inj hlast
      have hbefore := traces_unstabilized hb hstart hstab htraces
      obtain ⟨s, hs⟩ := hleads.exists_isSolvedBy
      obtain ⟨settings, w, hreplied⟩ := hs.replied
      have hsound := hbefore.sound.planning
      rw [candidate_eq_master hbefore.gamma hleads.chooses]
      exact traces_exclude hb hstart hempty hstab hopen htraces j first hfirst hgap s.primal
        s.objective pass.master ((hb _ settings w _ s hsound hreplied).primal hs.optimal)
        (hrows _ settings w _ s hsound hreplied hs.optimal) hs.read

theorem start_unstabilized {p : DecomposedProblem Exact} (hp : p.WellFormed)
    (hcharges : p.planning.ChargesProxies) (hstab : c.stabParam = 0.0)
    (hstart : RunState.start c p = .ok s) (hrefutes : ∀ e ∈ s.evaluators, backend.RefutesStrictly e) :
    s.IsUnstabilized backend := by
  obtain ⟨hsound, hempty, -⟩ := start_sound hp hstart
  have hproxies := start_hasProxyFor hstart
  obtain ⟨-, -, evaluators, -, rfl⟩ := start_eq_ok.mp hstart
  refine ⟨hsound, hstab, ?_, hproxies, hrefutes, hempty ▸ History.hasNumbers_empty⟩
  unfold PlanningProblem.ChargesProxies
  dsimp only
  split_ifs
  · exact hcharges
  · exact hcharges

end RunState

/-- Without a level set and with a backend whose replies are consistent, every iteration evaluates
the solution of the planning problem and either closes the gap or adds a cut that this solution
violates. If the backend also meets the rows, no linking values and proxies come a second time once
an iteration with them has left the gap open; those that a run records are all different. -/
theorem unstabilized_runs_progress {σ : Type} {backend : Backend (StateM σ) Exact}
    {clock : Clock (StateM σ) Exact} {c : Configuration Exact} {problem : DecomposedProblem Exact}
    {start : RunState Exact} {m : Model Exact} {fixedCost : Expression Exact} {theta : Array ℕ}
    (hm : m.WellFormed)
    (hplanning : PlanningProblem.ofModel m fixedCost theta = .ok problem.planning)
    (hsubproblems : ∀ s ∈ problem.subproblems, s.model.WellFormed)
    (hstart : RunState.start c problem = .ok start) (hstab : c.stabParam = 0.0)
    (hb : backend.IsConsistent) (hrefutes : ∀ e ∈ start.evaluators, backend.RefutesStrictly e) :
    (∀ w passes before (pass : Pass Exact σ) (after : RunState Exact × σ),
      RunState.Traces backend clock c problem.linking (start, w) passes before →
      pass.Leads backend clock c problem.linking before after →
      ∃ s, pass.IsSolvedBy backend problem.linking before.1.planning s ∧
        pass.point = pass.master ∧
        (after.1.history.gap ≤ c.convTol ∨
          before.1.planning.Bites after.1.planning pass.cuts s.primal)) ∧
    (backend.KeepsRows →
      (∀ w passes after, RunState.Traces backend clock c problem.linking (start, w) passes after →
        NeverRepeats c passes) ∧
      ∀ w r w', Yields (problem.run backend clock c) w r w' →
        (r.iterations.map fun i => (i.candidate.values, i.candidate.theta)).Nodup) := by
  have hproblem : problem.WellFormed :=
    ⟨PlanningProblem.wellFormed_of_ofModel hm hplanning, hsubproblems⟩
  have hunstabilized := RunState.start_unstabilized hproblem
    (PlanningProblem.chargesProxies_of_ofModel hplanning) hstab hstart hrefutes
  obtain ⟨-, hempty, hvalid⟩ := RunState.start_sound hproblem hstart
  have hopen : number 0 ≤ c.convTol :=
    Exact.zero_eq ▸ .inl (Configuration.validate_eq_ok.mp hvalid).tolerance.2
  refine ⟨fun w passes before pass after htraces hleads => ?_, fun hrows => ?_⟩
  · obtain ⟨s, hs⟩ := hleads.exists_isSolvedBy
    have hbefore := RunState.traces_unstabilized hb hunstabilized hstab htraces
    have hprogress := RunState.leads_progress hb hbefore hstab hleads hs
    exact ⟨s, hs, RunState.candidate_eq_master hbefore.gamma hleads.chooses,
      hprogress.symm.imp_left fun hclosed => Exact.le_trans hclosed hopen⟩
  have hdistinct : ∀ w passes after,
      RunState.Traces backend clock c problem.linking (start, w) passes after →
      NeverRepeats c passes := fun _ _ _ htraces =>
    RunState.traces_distinct hb hrows hunstabilized hempty hstab hopen htraces
  refine ⟨hdistinct, fun w r w' hrun => ?_⟩
  obtain ⟨start', passes, last, hstart', htraces, -, -, hstops, hmeasured, -⟩ :=
    RunState.run_stops hrun
  obtain rfl := Except.ok.inj (hstart.symm.trans hstart')
  have hnodup := (hdistinct w passes _ htraces).nodup hstops
  rw [RunResult.iterations, hmeasured, History.map_iterations_ofMeasured
    (g := fun x => (x.candidate.values, x.candidate.theta)) fun _ _ _ => rfl, List.map_map]
  exact hnodup

/-- The plant with its planning problem built anew. -/
def plannedPlant : DecomposedProblem Exact :=
  { onePlant with planning :=
      (PlanningProblem.ofModel onePlant.planning.model onePlant.planning.fixedCost
        onePlant.planning.theta).toOption.getD onePlant.planning }

/-- The run over the plant takes three different plans, and the first two are excluded by cuts. -/
theorem plannedPlant_progresses :
    ∃ start r, RunState.start .default plannedPlant = .ok start ∧
      Yields (checkedRun plannedPlant) () r () ∧ r.iterations.length = 3 ∧
      (r.iterations.map fun i => (i.candidate.values, i.candidate.theta)).Nodup ∧
      ∀ passes before (pass : Pass Exact Unit) (after : RunState Exact × Unit),
        RunState.Traces (ConicSolver.checkedBackend ConicProgram.solveByPivoting)
          (fun _ => pure (number 1)) .default plannedPlant.linking (start, ()) passes before →
        pass.Leads (ConicSolver.checkedBackend ConicProgram.solveByPivoting)
          (fun _ => pure (number 1)) .default plannedPlant.linking before after →
        ∃ s, pass.IsSolvedBy (ConicSolver.checkedBackend ConicProgram.solveByPivoting)
            plannedPlant.linking before.1.planning s ∧ pass.point = pass.master ∧
          (after.1.history.gap ≤ 1e-3 ∨
            before.1.planning.Bites after.1.planning pass.cuts s.primal) := by
  have hplanning : PlanningProblem.ofModel onePlant.planning.model onePlant.planning.fixedCost
      onePlant.planning.theta = .ok plannedPlant.planning := by
    obtain ⟨p, hp, hsame⟩ := exists_ok_of_any
      (x := PlanningProblem.ofModel onePlant.planning.model onePlant.planning.fixedCost
        onePlant.planning.theta) (P := (· = plannedPlant.planning)) (by decide +kernel)
    rw [hp, hsame]
  obtain ⟨start, hstart, -⟩ := exists_ok_of_any (x := RunState.start .default plannedPlant)
    (P := fun _ => True) (by decide +kernel)
  obtain ⟨r, hrun, hcount⟩ := exists_ok_of_any (x := ((checkedRun plannedPlant).run.run ()).1)
    (P := fun r => r.iterations.length = 3) (by decide +kernel)
  have hyields : Yields (checkedRun plannedPlant) () r () := Prod.ext hrun rfl
  have hb := checkedBackend_isExact (σ := Unit) ConicProgram.solveByPivoting
  obtain ⟨hprogress, hdistinct⟩ := unstabilized_runs_progress (by decide +kernel) hplanning
    (by decide +kernel) hstart rfl hb.isConsistent fun e _ => hb.refutesStrictly e
  exact ⟨start, r, hstart, hyields, hcount, (hdistinct hb.keepsRows).2 () r () hyields,
    hprogress ()⟩

end BendersPlanning

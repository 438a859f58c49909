import BendersPlanning.Proofs.FreeProxies

/-!
# Cuts bite where they were made

At the point it was made from an optimality cut asks for a proxy of the cost that was found there,
and a feasibility cut is violated by its margin. If no cut of an iteration is violated there, all
subproblems are feasible and the proxies cover their costs: `PlanningProblem.exists_biting_cut`.

Nothing is assumed of prices and rays. A row with a coefficient or a right-hand side that is not
finite is refused, so those of a cut that was added are numbers.
-/

namespace BendersPlanning

open Exact (number)

namespace Exact

variable {x y : Exact}

theorem isFinite_of_mul (h : Scalar.isFinite (x * y) = true) : Scalar.isFinite y = true := by
  obtain ⟨q, hq⟩ := isFinite_iff.mp h
  change mul x y = number q at hq
  have hsigned : ∀ a, signed a infinity ≠ number q ∧ signed a negInfinity ≠ number q := by
    intro a
    unfold signed
    split_ifs <;> simp [neg]
  cases y with
  | number b => exact isFinite_number b
  | infinity | negInfinity | undefined => cases x <;> simp_all [mul, neg]

theorem isFinite_of_beq {q : ℚ} (h : (x == number q) = true) : Scalar.isFinite x = true := by
  change isSame x (number q) = true at h
  rw [isFinite_iff]
  exact ⟨q, by simpa [isSame] using (Bool.and_eq_true_iff.mp h).2⟩

theorem isFinite_of_sub (h : Scalar.isFinite (x - y) = true) :
    Scalar.isFinite x = true ∧ Scalar.isFinite y = true := by
  obtain ⟨q, hq⟩ := isFinite_iff.mp h
  change add x (neg y) = number q at hq
  cases x <;> cases y <;> simp_all [add, neg]

end Exact

namespace Cut

variable {p : PlanningProblem Exact} {c : Cut Exact} {point : Array Exact} {count : ℕ}
  {values prices : SortedMap String Exact} {name : String}

theorem finite_of_foldlM_addTerm {sign : Exact} {terms : List (String × Exact)}
    {start e : Expression Exact}
    (h : terms.foldlM (fun (e : Expression Exact) (t : String × Exact) =>
      if t.2 == 0.0 then Except.ok e
      else match p.model.variableNamed? t.1 with
        | some v => .ok (e.addTerm v (sign * t.2))
        | none => .error (.problem (.unknownInCut t.1) : RunError Exact)) start = .ok e)
    (he : e.IsOver count) : AreFiniteTerms terms ∧ start.IsOver count := by
  induction terms generalizing start with
  | nil => exact ⟨nofun, (Except.ok.inj h).symm ▸ he⟩
  | cons t terms ih =>
    rw [List.foldlM_cons] at h
    obtain ⟨next, hfirst, h⟩ := bind_eq_ok.mp h
    obtain ⟨hrest, hnext⟩ := ih h
    split_ifs at hfirst with hzero
    · obtain rfl := Except.ok.inj hfirst
      rw [Exact.zero_eq] at hzero
      exact ⟨List.forall_mem_cons.mpr ⟨Exact.isFinite_of_beq hzero, hrest⟩, hnext⟩
    · split at hfirst
      · obtain rfl := Except.ok.inj hfirst
        have hlast := hnext.terms (_, sign * t.2) (Array.mem_push_self)
        refine ⟨List.forall_mem_cons.mpr ⟨Exact.isFinite_of_mul hlast.2, hrest⟩, ?_⟩
        exact ⟨fun s hs => hnext.terms s (Array.mem_push_of_mem _ hs), hnext.constant⟩
      · cases hfirst

/-- Coefficients of a row over finite numbers are finite; those that are left out are zero. -/
theorem finite_of_isOver {e : Expression Exact} (h : c.expression p = .ok e) (he : e.IsOver count) :
    AreFiniteTerms c.coefficients.entries :=
  (finite_of_foldlM_addTerm h he).1

theorem exists_value_of_weightedSum {total : Exact}
    (h : weightedSum prices values = .ok total) :
    ∀ t ∈ prices.entries, ∃ x, values.find? t.1 = some x := by
  unfold weightedSum at h
  generalize prices.entries = terms at h ⊢
  generalize (0.0 : Exact) = start at h
  induction terms generalizing start with
  | nil => exact nofun
  | cons t terms ih =>
    rw [List.foldlM_cons] at h
    obtain ⟨next, hfirst, h⟩ := bind_eq_ok.mp h
    refine List.forall_mem_cons.mpr ⟨?_, ih next h⟩
    cases hvalue : values.find? t.1 with
    | none => simp [hvalue] at hfirst
    | some x => exact ⟨x, rfl⟩

theorem exists_mem_feasibilityCuts {iteration index : ℕ} {ray : SortedMap String Exact}
    {margin : Exact} {outcomes : List (ℕ × OperationOutcome Exact)} {cuts : List (Cut Exact)}
    (h : feasibilityCuts iteration values outcomes = .ok cuts)
    (hmem : (index, .infeasible ray margin) ∈ outcomes) :
    ∃ c ∈ cuts, ∃ name, ofInfeasible name index margin ray values = .ok c := by
  induction outcomes generalizing cuts with
  | nil => cases hmem
  | cons entry rest ih =>
    obtain ⟨i, o⟩ := entry
    cases o with
    | optimal cost prices used =>
      exact ih h ((List.mem_cons.mp hmem).resolve_left nofun)
    | infeasible ray' margin' =>
      obtain ⟨first, hfirst, h⟩ := bind_eq_ok.mp h
      obtain ⟨more, hmore, h⟩ := bind_eq_ok.mp h
      obtain rfl := Except.ok.inj h
      rcases List.mem_cons.mp hmem with heq | hmem
      · cases heq
        exact ⟨first, List.mem_cons_self, _, hfirst⟩
      · obtain ⟨c, hc, hcut⟩ := ih hmore hmem
        exact ⟨c, List.mem_cons_of_mem _ hc, hcut⟩

theorem exists_mem_optimalityCuts {iteration index : ℕ} {cost used : Exact}
    {outcomes : List (ℕ × OperationOutcome Exact)} {cuts : List (Cut Exact)}
    (h : optimalityCuts p iteration values outcomes = .ok cuts)
    (hmem : (index, .optimal cost prices used) ∈ outcomes) :
    ∃ c ∈ cuts, ∃ theta name, p.thetaFor? index = some theta ∧
      ofOptimal name (some index) theta cost prices values = .ok c := by
  induction outcomes generalizing cuts with
  | nil => cases hmem
  | cons entry rest ih =>
    obtain ⟨i, o⟩ := entry
    cases o with
    | infeasible ray margin => exact ih h ((List.mem_cons.mp hmem).resolve_left nofun)
    | optimal cost' prices' used' =>
      rw [optimalityCuts] at h
      cases htheta : p.thetaFor? i with
      | none => simp [htheta] at h
      | some theta =>
        simp only [htheta] at h
        obtain ⟨first, hfirst, h⟩ := bind_eq_ok.mp h
        obtain ⟨more, hmore, h⟩ := bind_eq_ok.mp h
        obtain rfl := Except.ok.inj h
        rcases List.mem_cons.mp hmem with heq | hmem
        · cases heq
          exact ⟨first, List.mem_cons_self, theta, _, htheta, hfirst⟩
        · obtain ⟨c, hc, hcut⟩ := ih hmore hmem
          exact ⟨c, List.mem_cons_of_mem _ hc, hcut⟩

section Generated
variable {candidate : Candidate Exact} {linking : List String} {bound : Exact}
  (hpoint : IsFiniteVector p.model.vars.size point)
  (hcandidate : Candidate.ofPoint p linking point bound = .ok candidate)
include hpoint hcandidate

/-- Where a candidate was read, its values are the coordinates of the point. -/
theorem weightedSum_at_point (hprices : AreFiniteTerms prices.entries) {total : Exact}
    (h : weightedSum prices candidate.values = .ok total) :
    total = number (termSum prices.entries (p.linkNumber point)) := by
  have hvalue : ∀ t ∈ prices.entries,
      candidate.values.valueAt t.1 = number (p.linkNumber point t.1) := by
    intro t ht
    obtain ⟨x, hx⟩ := exists_value_of_weightedSum h t ht
    obtain ⟨-, id, hid, hentry⟩ := PlanningProblem.find?_of_ofPoint hcandidate hx
    have hlt : id < p.model.vars.size :=
      (Array.getElem?_eq_some_iff.mp hentry).choose.trans_eq hpoint.size
    have hnumber := hpoint.entry_eq hlt
    simp only [Scalar.entry, hentry, Option.getD_some] at hnumber
    simp [SortedMap.valueAt, hx, PlanningProblem.linkNumber, hid, hnumber]
  have hfinite : ∀ t ∈ prices.entries, Scalar.isFinite t.2 = true ∧
      Scalar.isFinite (candidate.values.valueAt t.1) = true := fun t ht =>
    ⟨hprices t ht, hvalue t ht ▸ Exact.isFinite_number _⟩
  rw [weightedSum_eq_ok hfinite h]
  congr 1
  exact termSum_congr fun t ht => by rw [hvalue t ht, Exact.toRat_number]

end Generated

end Cut

theorem Constraint.not_violated {row : Constraint Exact} {count : ℕ} {point : Array Exact}
    (hover : row.expression.IsOver count) (hrhs : Scalar.isFinite row.rhs = true)
    (hpoint : IsFiniteVector count point) (h : row.Holds point) : ¬0.0 < row.violation point := by
  obtain ⟨b, hb⟩ := Exact.isFinite_iff.mp hrhs
  have hvalue := Expression.evaluate_eq hover hpoint
  rw [Constraint.holds_iff hover hrhs hpoint, HoldsAt, hb, Exact.toRat_number] at h
  unfold violation
  cases hsense : row.sense <;> rw [hsense] at h <;>
    simp only [hvalue, hb, Exact.number_sub, Exact.zero_eq, Exact.larger_number, Exact.abs_number,
      Exact.number_lt, not_lt] at h ⊢
  · exact max_le (by linarith) le_rfl
  · exact max_le (by linarith) le_rfl
  · simp [h]

namespace PlanningProblem

/-- Some cut has become a row that a point violates. -/
def Bites {K : Type} [Scalar K] (p p' : PlanningProblem K) (cuts : List (Cut K)) (point : Array K) :
    Prop :=
  ∃ c ∈ cuts, ∃ row ∈ p'.model.constraints, c.constraint p = .ok row ∧ 0.0 < row.violation point

variable {p p' : PlanningProblem Exact} {cuts : List (Cut Exact)} {point : Array Exact}

theorem exists_row_of_addCut {c : Cut Exact} (h : p.addCut c = .ok p') :
    ∃ row ∈ p'.model.constraints, c.constraint p = .ok row ∧
      row.expression.IsOver p.model.vars.size ∧ Scalar.isFinite row.rhs = true := by
  obtain ⟨row, hrow, h⟩ := bind_eq_ok.mp h
  obtain ⟨⟨model, id⟩, hadd, h⟩ := bind_eq_ok.mp h
  rw [mapError_eq_ok] at hadd
  obtain rfl := Except.ok.inj h
  obtain ⟨-, -, hrhs, hover, -, rfl⟩ := Model.addConstraint_eq_ok.mp hadd
  exact ⟨row, Array.mem_push_self, hrow, hover, hrhs⟩

/-- Every cut that was added is a row over finite numbers. -/
theorem exists_row_of_addCuts (hp : p.model.WellFormed) (h : p.addCuts cuts = (p', .ok ()))
    {c : Cut Exact} (hc : c ∈ cuts) : ∃ row ∈ p'.model.constraints, c.constraint p = .ok row ∧
      row.expression.IsOver p.model.vars.size ∧ Scalar.isFinite row.rhs = true := by
  induction cuts generalizing p with
  | nil => cases hc
  | cons first cuts ih =>
    rw [addCuts] at h
    cases hfirst : p.addCut first with
    | error x => simp [hfirst] at h
    | ok p₁ =>
      simp only [hfirst] at h
      obtain ⟨hextends, hwellFormed, -⟩ := addCut_eq_ok hp hfirst
      rcases List.mem_cons.mp hc with rfl | hc
      · obtain ⟨row, hmem, hrow⟩ := exists_row_of_addCut hfirst
        exact ⟨row, (addCuts_eq_ok hwellFormed h).1.rows row hmem, hrow⟩
      · obtain ⟨row, hmem, hrow, hover, hrhs⟩ := ih hwellFormed h hc
        rw [hextends.constraint] at hrow
        rw [hextends.vars] at hover
        exact ⟨row, hmem, hrow, hover, hrhs⟩

section Covering
variable {candidate : Candidate Exact} {linking : List String} {bound : Exact} {iteration : ℕ}
  {outcomes : SortedMap ℕ (OperationOutcome Exact)}
  (hp : p.model.WellFormed) (hpoint : IsFiniteVector p.model.vars.size point)
  (hcandidate : Candidate.ofPoint p linking point bound = .ok candidate)
  (hadded : p.addCuts cuts = (p', .ok ())) (hbites : ¬p.Bites p' cuts point)
include hp hpoint hcandidate hadded hbites

omit hcandidate in
/-- A cut that does not bite is one over finite numbers that nothing exceeds. -/
theorem excessAt_of_not_bites {c : Cut Exact} (hc : c ∈ cuts)
    (hproxy : c.kind = .feasibility → c.theta = none) :
    AreFiniteTerms c.coefficients.entries ∧ Scalar.isFinite c.rhs = true ∧
      c.excessAt p point ≤ 0 := by
  obtain ⟨row, hmem, hrow, hover, hrhs⟩ := exists_row_of_addCuts hp hadded hc
  obtain ⟨e, he, hsame⟩ := bind_eq_ok.mp hrow
  obtain rfl := Except.ok.inj hsame
  have hfinite := Cut.finite_of_isOver he hover
  refine ⟨hfinite, hrhs, ?_⟩
  by_contra hexceeds
  refine hbites ⟨c, hc, _, hmem, hrow, ?_⟩
  rw [(Cut.row_at_excess hproxy hfinite hrow hover hrhs hpoint).1, Exact.zero_eq, Exact.number_lt,
    lt_max_iff]
  exact .inl (not_le.mp hexceeds)

theorem cost_le_of_not_bites {name : String} {subproblem : Option ℕ} {theta : ℕ} {cost : Exact}
    {prices : SortedMap String Exact} {c : Cut Exact} (hc : c ∈ cuts)
    (hcut : Cut.ofOptimal name subproblem theta cost prices candidate.values = .ok c) :
    cost.toRat ≤ coordinate point theta := by
  obtain ⟨hkind, -, -, hprices, total, htotal, hrhs⟩ := Cut.parts_of_ofOptimal hcut
  obtain ⟨hfinite, hfiniteRhs, hexcess⟩ :=
    excessAt_of_not_bites hp hpoint hadded hbites hc (by simp [hkind])
  obtain rfl := Cut.weightedSum_at_point hpoint hcandidate (hprices ▸ hfinite) htotal
  rw [hrhs] at hfiniteRhs
  rw [← Exact.number_toRat (Exact.isFinite_of_sub hfiniteRhs).1] at hcut
  rw [Cut.excessAt_ofOptimal hcut htotal] at hexcess
  linarith

theorem margin_nonpos_of_not_bites {name : String} {index : ℕ} {margin : Exact}
    {ray : SortedMap String Exact} {c : Cut Exact} (hc : c ∈ cuts)
    (hcut : Cut.ofInfeasible name index margin ray candidate.values = .ok c) :
    margin.toRat ≤ 0 ∧ Scalar.isFinite margin = true := by
  obtain ⟨-, -, htheta, hprices, total, htotal, hrhs⟩ := Cut.parts_of_ofInfeasible hcut
  obtain ⟨hfinite, hfiniteRhs, hexcess⟩ :=
    excessAt_of_not_bites hp hpoint hadded hbites hc fun _ => htheta
  obtain rfl := Cut.weightedSum_at_point hpoint hcandidate (hprices ▸ hfinite) htotal
  rw [hrhs] at hfiniteRhs
  have hmargin := (Exact.isFinite_of_sub hfiniteRhs).2
  rw [← Exact.number_toRat hmargin] at hcut
  rw [Cut.excessAt_ofInfeasible hcut htotal] at hexcess
  exact ⟨by linarith, hmargin⟩

variable (hcuts : p.cuts iteration candidate.values outcomes = .ok cuts)
include hcuts

theorem all_isFeasible_of_not_bites (hmargins : ∀ index ray margin,
      (index, .infeasible ray margin) ∈ outcomes.entries → 0.0 < margin) :
    outcomes.values.all (·.isFeasible) = true := by
  rw [List.all_eq_true]
  intro o ho
  obtain ⟨⟨index, o⟩, hentry, rfl⟩ := List.mem_map.mp ho
  cases o with
  | optimal cost prices used => rfl
  | infeasible ray margin =>
    obtain ⟨feasibility, optimality, hfeasibility, -, rfl⟩ := cuts_eq_ok.mp hcuts
    obtain ⟨c, hc, name, hcut⟩ := Cut.exists_mem_feasibilityCuts hfeasibility hentry
    obtain ⟨hnonpos, hfinite⟩ := margin_nonpos_of_not_bites hp hpoint hcandidate hadded hbites
      (List.mem_append_left _ hc) hcut
    have hpositive := hmargins index ray margin hentry
    rw [← Exact.number_toRat hfinite, Exact.zero_eq, Exact.number_lt] at hpositive
    exact absurd hpositive hnonpos.not_gt

/-- Where no cut bites, all costs together are covered by the proxies. -/
theorem sum_cost_le_of_not_bites (hall : outcomes.values.all (·.isFeasible) = true)
    (hcosts : ∀ o ∈ outcomes.values, Scalar.isFinite o.cost = true)
    (hproxies : p.HasProxyFor (outcomes.entries.map (·.1))) :
    (outcomes.values.map fun o => o.cost.toRat).sum ≤
      (p.theta.toList.map (coordinate point)).sum := by
  obtain ⟨feasibility, optimality, -, hoptimality, rfl⟩ := cuts_eq_ok.mp hcuts
  obtain ⟨hmulti, hcuts⟩ | ⟨hsingle, -, c, hc, rfl⟩ | ⟨-, hnone, -⟩ := hoptimality
  · have hperm : (outcomes.entries.map (·.1)).Perm (List.range p.theta.size) := by
      refine hproxies.resolve_left (fun hone => ?_) |>.2
      simp [isMultiCut, hone] at hmulti
    have hle : ∀ t ∈ outcomes.entries,
        t.2.cost.toRat ≤ ((p.theta[t.1]?).map (coordinate point)).getD 0 := by
      rintro ⟨index, o⟩ ht
      cases o with
      | infeasible ray margin =>
        have := List.all_eq_true.mp hall _ (List.mem_map_of_mem (f := (·.2)) ht)
        cases this
      | optimal cost prices used =>
        obtain ⟨c, hc, theta, name, htheta, hcut⟩ := Cut.exists_mem_optimalityCuts hcuts ht
        have hcost := cost_le_of_not_bites hp hpoint hcandidate hadded hbites
          (List.mem_append_right _ hc) hcut
        rw [thetaFor?, if_pos hmulti] at htheta
        rw [htheta]
        exact hcost
    have hshares : ((List.range p.theta.size).map fun i =>
        ((p.theta[i]?).map (coordinate point)).getD 0) = p.theta.toList.map (coordinate point) := by
      apply List.ext_getElem
      · simp
      · intro i hi _
        have hlt : i < p.theta.size := by simpa using hi
        simp [hlt]
    rw [← hshares, ← (hperm.map _).sum_eq, SortedMap.values, List.map_map, List.map_map]
    exact List.sum_le_sum hle
  · have hsum : Scalar.sum (outcomes.values.map (·.cost)) =
        number (outcomes.values.map fun o => o.cost.toRat).sum := by
      rw [← Exact.sum_map_number]
      exact congrArg Scalar.sum
        (List.map_congr_left fun o ho => (Exact.number_toRat (hcosts o ho)).symm)
    unfold Cut.aggregatedCut at hc
    rw [thetaFor?, hsingle, if_neg Bool.false_ne_true] at hc
    cases htheta : p.theta[0]? with
    | none => simp [htheta] at hc
    | some theta =>
      simp only [htheta] at hc
      have hcost := cost_le_of_not_bites hp hpoint hcandidate hadded hbites
        (List.mem_append_right _ (List.mem_singleton_self _)) hc
      have hone : p.theta.toList = [theta] := by
        obtain ⟨hlt, rfl⟩ := Array.getElem?_eq_some_iff.mp htheta
        have hsize : p.theta.toList.length = 1 := by
          simp only [isMultiCut, decide_eq_false_iff_not] at hsingle
          rw [Array.length_toList]
          omega
        obtain ⟨t, ht⟩ := List.length_eq_one_iff.mp hsize
        simp [ht, ← Array.getElem_toList]
      rw [hsum, Exact.toRat_number] at hcost
      rw [hone, List.map_singleton, List.sum_singleton]
      exact hcost
  · rw [hall] at hnone
    cases hnone

end Covering

section Excluding
variable {candidate candidate' : Candidate Exact} {linking : List String} {bound bound' : Exact}
  {iteration : ℕ} {outcomes : SortedMap ℕ (OperationOutcome Exact)} {point' : Array Exact}

theorem coordinate_eq_of_theta_eq
    (hcandidate : Candidate.ofPoint p linking point bound = .ok candidate)
    (hcandidate' : Candidate.ofPoint p linking point' bound' = .ok candidate')
    (htheta : candidate'.theta = candidate.theta) {t : ℕ} (ht : t ∈ p.theta) :
    coordinate point' t = coordinate point t := by
  rw [(parts_of_ofPoint hcandidate).2, (parts_of_ofPoint hcandidate').2] at htheta
  obtain ⟨i, hi, rfl⟩ := Array.getElem_of_mem ht
  have hentry := congrArg (·[i]?) htheta
  simp only [Array.getElem?_map, Array.getElem?_eq_getElem hi, Option.map_some,
    Option.some.injEq] at hentry
  rw [coordinate, coordinate, hentry]

/-- The proxy of a cut is one of the proxies. -/
theorem mem_theta_of_thetaFor? {index t : ℕ} (h : p.thetaFor? index = some t) : t ∈ p.theta := by
  unfold thetaFor? at h
  split_ifs at h
  · exact Array.mem_of_getElem? h
  · exact Array.mem_of_getElem? h

/-- The cuts of an iteration have proxies of the planning problem, if any, and weigh values of their
candidate. -/
theorem proxy_of_mem_cuts {values : SortedMap String Exact}
    (hcuts : p.cuts iteration values outcomes = .ok cuts) {c : Cut Exact} (hc : c ∈ cuts) :
    (c.kind = .feasibility → c.theta = none) ∧ (∀ t ∈ c.theta, t ∈ p.theta) ∧
      ∃ total, weightedSum c.coefficients values = .ok total := by
  have hoptimal : ∀ {name subproblem index t cost prices}, p.thetaFor? index = some t →
      Cut.ofOptimal name subproblem t cost prices values = .ok c →
        (c.kind = .feasibility → c.theta = none) ∧ (∀ t ∈ c.theta, t ∈ p.theta) ∧
          ∃ total, weightedSum c.coefficients values = .ok total := by
    intro name subproblem index t cost prices ht hcut
    obtain ⟨hkind, -, hproxy, hprices, total, htotal, -⟩ := Cut.parts_of_ofOptimal hcut
    refine ⟨by simp [hkind], fun t' ht' => ?_, total, hprices ▸ htotal⟩
    obtain rfl := Option.some.inj (hproxy.symm.trans ht')
    exact mem_theta_of_thetaFor? ht
  obtain ⟨index, ray, margin, name, -, hcut⟩ |
    ⟨-, index, cost, prices, used, t, name, -, ht, hcut⟩ | ⟨-, -, hcut⟩ := mem_cuts_cases hcuts hc
  · obtain ⟨-, -, hnone, hprices, total, htotal, -⟩ := Cut.parts_of_ofInfeasible hcut
    exact ⟨fun _ => hnone, by simp [hnone], total, hprices ▸ htotal⟩
  · exact hoptimal ht hcut
  · unfold Cut.aggregatedCut at hcut
    cases ht : p.thetaFor? 0 with
    | none => simp [ht] at hcut
    | some t =>
      simp only [ht] at hcut
      exact hoptimal ht hcut

/-- Points with the same linking values and proxies violate a cut that was made there alike. -/
theorem violation_eq_of_same (hpoint : IsFiniteVector p.model.vars.size point)
    (hpoint' : IsFiniteVector p.model.vars.size point')
    (hcandidate : Candidate.ofPoint p linking point bound = .ok candidate)
    (hcandidate' : Candidate.ofPoint p linking point' bound' = .ok candidate')
    (hvalues : candidate'.values = candidate.values) (htheta : candidate'.theta = candidate.theta)
    (hcuts : p.cuts iteration candidate.values outcomes = .ok cuts) {c : Cut Exact} (hc : c ∈ cuts)
    {row : Constraint Exact} (hrow : c.constraint p = .ok row)
    (hover : row.expression.IsOver p.model.vars.size) (hrhs : Scalar.isFinite row.rhs = true) :
    row.violation point' = row.violation point := by
  obtain ⟨hproxy, hproxies, total, htotal⟩ := proxy_of_mem_cuts hcuts hc
  have hfinite : AreFiniteTerms c.coefficients.entries := by
    obtain ⟨e, he, hsame⟩ := bind_eq_ok.mp hrow
    obtain rfl := Except.ok.inj hsame
    exact Cut.finite_of_isOver he hover
  rw [(Cut.row_at_excess hproxy hfinite hrow hover hrhs hpoint).1,
    (Cut.row_at_excess hproxy hfinite hrow hover hrhs hpoint').1]
  have hsum := Cut.weightedSum_at_point hpoint hcandidate hfinite htotal
  have hsum' := Cut.weightedSum_at_point hpoint' hcandidate' hfinite (hvalues ▸ htotal)
  have hsame : c.theta.map (coordinate point') = c.theta.map (coordinate point) :=
    Option.map_congr fun t ht =>
      coordinate_eq_of_theta_eq hcandidate hcandidate' htheta (hproxies t ht)
  rw [Cut.excessAt, Cut.excessAt, hsame, Exact.number.inj (hsum.symm.trans hsum')]

/-- No point that meets the rows has the linking values and the proxies of a candidate. -/
def Excludes {K : Type} [Scalar K] (p : PlanningProblem K) (linking : List String)
    (candidate : Candidate K) : Prop :=
  ∀ point bound other, IsFiniteVector p.model.vars.size point →
    (∀ row ∈ p.model.constraints, row.Holds point) →
    Candidate.ofPoint p linking point bound = .ok other →
    ¬(other.values = candidate.values ∧ other.theta = candidate.theta)

theorem Extends.excludes (h : p'.Extends p) (hexcludes : p.Excludes linking candidate) :
    p'.Excludes linking candidate := by
  intro point bound other hpoint hrows hother
  rw [h.vars] at hpoint
  rw [h.ofPoint] at hother
  exact hexcludes point bound other hpoint (fun row hrow => hrows row (h.rows row hrow)) hother

/-- A cut that bites excludes the candidate that it was made at. -/
theorem excludes_of_bites (hp : p.model.WellFormed)
    (hpoint : IsFiniteVector p.model.vars.size point)
    (hcandidate : Candidate.ofPoint p linking point bound = .ok candidate)
    (hcuts : p.cuts iteration candidate.values outcomes = .ok cuts)
    (hadded : p.addCuts cuts = (p', .ok ())) (hbites : p.Bites p' cuts point) :
    p'.Excludes linking candidate := by
  obtain ⟨hextends, -⟩ := addCuts_eq_ok hp hadded
  obtain ⟨c, hc, row, hmem, hrow, hviolated⟩ := hbites
  obtain ⟨row', -, hrow', hover, hrhs⟩ := exists_row_of_addCuts hp hadded hc
  obtain rfl : row' = row := Except.ok.inj (hrow'.symm.trans hrow)
  intro point' bound' other hpoint' hrows hother hsame
  rw [hextends.vars] at hpoint'
  rw [hextends.ofPoint] at hother
  rw [← violation_eq_of_same hpoint hpoint' hcandidate hother hsame.1 hsame.2 hcuts hc hrow hover
    hrhs] at hviolated
  exact Constraint.not_violated hover hrhs hpoint' (hrows _ hmem) hviolated

end Excluding

end PlanningProblem

end BendersPlanning

import BendersPlanning.Planning.LevelSet
import BendersPlanning.Proofs.ExactBackends
import BendersPlanning.Proofs.PlanningObjectives

/-!
# Solutions of the planning problem

With an exact backend every candidate was read from a feasible point of the planning problem: the
retry, the projection onto a level set and the way back from a failed projection all keep to its
rows. The candidate of the planning problem itself also carries a lower bound on the objective.
-/

namespace BendersPlanning

variable {K : Type} [Scalar K]

/-- Finite values for all of the names. -/
def SortedMap.Covers (values : SortedMap String K) (names : List String) : Prop :=
  ∀ name ∈ names, ∃ x, values.find? name = some x ∧ Scalar.isFinite x = true

namespace PlanningProblem

/-- A candidate that was read from a feasible point. -/
def Offers (p : PlanningProblem K) (linking : List String) (c : Candidate K) : Prop :=
  ∃ point lowerBound, p.model.Feasible point ∧
    Candidate.ofPoint p linking point lowerBound = .ok c

variable {p : PlanningProblem K} {linking : List String} {c : Candidate K} {point : Array K}
  {bound : K}

theorem lowerBound_of_ofPoint (h : Candidate.ofPoint p linking point bound = .ok c) :
    c.lowerBound = bound := by
  obtain ⟨values, -, hreturn⟩ := bind_eq_ok.mp h
  obtain rfl := Except.ok.inj hreturn
  rfl

/-- The values of a candidate are those of the linking variables at its point. -/
theorem find?_of_ofPoint {key : String} {x : K}
    (h : Candidate.ofPoint p linking point bound = .ok c) (hfound : c.values.find? key = some x) :
    key ∈ linking ∧ ∃ id, p.model.variableNamed? key = some id ∧ point[id]? = some x := by
  obtain ⟨values, hvalues, hreturn⟩ := bind_eq_ok.mp h
  obtain rfl := Except.ok.inj hreturn
  refine foldlM_eq_ok (P := fun values => ∀ key x, values.find? key = some x →
    key ∈ linking ∧ ∃ id, p.model.variableNamed? key = some id ∧ point[id]? = some x) ?_
    (fun key x hfound => by cases hfound) hvalues key x hfound
  intro before name after hname ih hstep key x hfound
  split at hstep
  · rename_i y hy
    obtain rfl := Except.ok.inj hstep
    rw [SortedMap.insert, SortedMap.find?_alter] at hfound
    split_ifs at hfound with hkey
    · obtain rfl := Option.some.inj hfound
      exact ⟨hkey ▸ hname, hkey ▸ Option.bind_eq_some_iff.mp hy⟩
    · exact ih key x hfound
  · cases hstep

/-- A candidate can be read from any point that has all variables, for those that link are among
them. -/
theorem exists_ofPoint (hplanned : ∀ name ∈ linking, (p.model.variableNamed? name).isSome = true)
    (hpoint : point.size = p.model.vars.size) :
    ∃ c, Candidate.ofPoint p linking point bound = .ok c := by
  refine (exists_foldlM_eq_ok (P := fun _ => True) ?_ trivial).elim fun values hvalues =>
    ⟨_, bind_eq_ok.mpr ⟨values, hvalues.1, rfl⟩⟩
  intro values name hname _
  obtain ⟨id, hid⟩ := Option.isSome_iff_exists.mp (hplanned name hname)
  have hlt : id < point.size := hpoint ▸ (Array.findIdx?_eq_some_iff_getElem.mp hid).choose
  exact ⟨values.insert name point[id], by simp [hid, hlt], trivial⟩

omit [Scalar K] in
/-- Values that were inserted for some names are found for these and for the earlier ones. -/
theorem isSome_find?_of_foldlM
    {f : SortedMap String K → String → Except (RunError K) (SortedMap String K)}
    (hf : ∀ values name values', f values name = .ok values' → ∃ x, values' = values.insert name x)
    {names : List String} {values values' : SortedMap String K}
    (h : names.foldlM f values = .ok values') {name : String}
    (hname : name ∈ names ∨ (values.find? name).isSome = true) :
    (values'.find? name).isSome = true := by
  induction names generalizing values with
  | nil =>
    obtain rfl := Except.ok.inj h
    exact hname.resolve_left List.not_mem_nil
  | cons first names ih =>
    rw [List.foldlM_cons] at h
    obtain ⟨values₁, hfirst, hrest⟩ := bind_eq_ok.mp h
    obtain ⟨x, rfl⟩ := hf _ _ _ hfirst
    refine ih hrest ?_
    rw [SortedMap.insert, SortedMap.find?_alter]
    by_cases hsame : name = first
    · exact .inr (by simp [hsame])
    · rw [if_neg hsame]
      exact hname.imp_left fun hmem => (List.mem_cons.mp hmem).resolve_left hsame

/-- A candidate has the values of all linking variables at its point. -/
theorem exists_find?_of_ofPoint (h : Candidate.ofPoint p linking point bound = .ok c)
    {name : String} (hname : name ∈ linking) :
    ∃ x id, c.values.find? name = some x ∧ p.model.variableNamed? name = some id ∧
      point[id]? = some x := by
  have hfound : (c.values.find? name).isSome = true := by
    obtain ⟨values, hvalues, hreturn⟩ := bind_eq_ok.mp h
    obtain rfl := Except.ok.inj hreturn
    refine isSome_find?_of_foldlM (fun values name values' hstep => ?_) hvalues (.inl hname)
    split at hstep
    · exact ⟨_, (Except.ok.inj hstep).symm⟩
    · cases hstep
  obtain ⟨x, hx⟩ := Option.isSome_iff_exists.mp hfound
  obtain ⟨-, id, hid, hentry⟩ := find?_of_ofPoint h hx
  exact ⟨x, id, hx, hid, hentry⟩

/-- A candidate that was read from a finite point has values for all linking variables. -/
theorem covers_of_ofPoint (hpoint : ∀ x ∈ point, Scalar.isFinite x = true)
    (h : Candidate.ofPoint p linking point bound = .ok c) : c.values.Covers linking := by
  intro name hname
  obtain ⟨x, id, hx, -, hid⟩ := exists_find?_of_ofPoint h hname
  exact ⟨x, hx, hpoint x (Array.mem_of_getElem? hid)⟩

theorem parts_of_ofPoint (h : Candidate.ofPoint p linking point bound = .ok c) :
    c.fixedCost = p.fixedCost.evaluate point ∧ c.theta = p.theta.map (Scalar.entry point) := by
  obtain ⟨values, -, hreturn⟩ := bind_eq_ok.mp h
  obtain rfl := Except.ok.inj hreturn
  exact ⟨rfl, rfl⟩

theorem wellFormed_of_ofModel {m : Model K} {fixedCost : Expression K} {theta : Array ℕ}
    (hm : m.WellFormed) (h : ofModel m fixedCost theta = .ok p) : p.model.WellFormed := by
  obtain ⟨-, ⟨hobjective, hfixed, hproxy⟩, rfl⟩ := ofModel_eq_ok.mp h
  refine { hm with objective := hobjective, expressions := fun entry hentry => ?_ }
  rcases SortedMap.mem_insert hentry with rfl | hentry
  · exact hproxy
  · rcases SortedMap.mem_insert hentry with rfl | hentry
    · exact hfixed
    · exact hm.expressions entry hentry

section Solve
variable {σ : Type} {backend : Backend (StateM σ) K} {settings : SolverSettings K} {w w' : σ}

/-- The candidate of the planning problem is read from an optimal reply, the last one, in which no
capacity is clearly negative. -/
theorem solve_replied (h : Yields (p.solve backend linking settings) w c w') :
    ∃ settings w₁ s, Answers (backend.solve p.model settings) w₁ (.ok s) w' ∧
      s.status = .optimal ∧ p.negativeCapacity? linking s = none ∧
      Candidate.ofPoint p linking s.primal s.objective = .ok c := by
  obtain ⟨first, w₁, hfirst, hrest⟩ := yields_bind.mp h
  obtain ⟨s, w₂, hsecond, hread⟩ := yields_ite_bind.mp hrest
  beta_reduce at hread
  obtain ⟨settings', w₀, hreplied⟩ := Backend.replied_of_retried hfirst hsecond
  cases hs : s.status with
  | optimal =>
    rw [hs] at hread
    cases hnegative : p.negativeCapacity? linking s with
    | some entry =>
      rw [hnegative] at hread
      exact (not_yields_throw hread).elim
    | none =>
      rw [hnegative] at hread
      obtain ⟨hpoint, rfl⟩ := yields_mk_pure.mp hread
      exact ⟨settings', w₀, s, hreplied, hs, hnegative, hpoint⟩
  | unbounded =>
    rw [hs] at hread
    exact (not_yields_throw hread).elim
  | infeasible | iterationLimit | numericalFailure =>
    rw [hs] at hread
    obtain ⟨conflicts, w₃, -, hthrow⟩ := yields_bind.mp hread
    exact (not_yields_throw hthrow).elim

/-- The candidate of the planning problem comes from a minimiser. -/
theorem solve_offers (hb : backend.IsExact) (hp : p.model.WellFormed)
    (h : Yields (p.solve backend linking settings) w c w') :
    p.Offers linking c ∧
      ∀ point, p.model.Feasible point → c.lowerBound ≤ p.model.objectiveValue point := by
  obtain ⟨settings', w₁, s, hreplied, hs, -, hpoint⟩ := solve_replied h
  have hexact := hb p.model settings' w₁ w' s hp hreplied
  refine ⟨⟨s.primal, s.objective, hexact.feasible hs, hpoint⟩, fun point hfeasible => ?_⟩
  rw [lowerBound_of_ofPoint hpoint]
  exact hexact.least hs point hfeasible

/-- The model of the projection has the variables and all rows of the planning problem. -/
theorem projection_eq_ok {centre : SortedMap String K} {level : K} {model : Model K}
    (hp : p.model.WellFormed) (h : p.projection linking centre level = .ok model) :
    model.WellFormed ∧ model.vars = p.model.vars ∧
      ∀ point, model.Feasible point → p.model.Feasible point := by
  obtain ⟨⟨m₁, id⟩, hadd, h⟩ := bind_eq_ok.mp h
  obtain ⟨⟨objective, weights⟩, -, h⟩ := bind_eq_ok.mp h
  obtain ⟨m₂, hobjective, h⟩ := bind_eq_ok.mp h
  rw [mapError_eq_ok] at hadd hobjective h
  have hwellFormed := ((hp.addConstraint hadd).setObjective hobjective).setQuadratic h
  obtain ⟨-, -, -, -, -, rfl⟩ := Model.addConstraint_eq_ok.mp hadd
  obtain ⟨-, rfl⟩ := Model.setObjective_eq_ok.mp hobjective
  obtain ⟨-, rfl⟩ := Model.setQuadratic_eq_ok.mp h
  exact ⟨hwellFormed, rfl, fun point hpoint =>
    ⟨hpoint.toIsFiniteVector, hpoint.admitted, fun row hrow =>
      hpoint.rows row (Array.mem_push_of_mem _ hrow)⟩⟩

/-- A projection is the solution of the planning problem itself, or it is read from an optimal reply
about the model of the projection. -/
theorem project_cases {centre : Candidate K} {lower upper gamma : K}
    (h : Yields (p.project backend linking centre lower upper gamma settings) w c w') :
    Yields (p.solve backend linking settings) w c w' ∨
      ∃ model s, p.projection linking centre.values (level lower upper gamma) = .ok model ∧
        Answers (backend.solve model settings) w (.ok s) w' ∧ s.status = .optimal ∧
        Candidate.ofPoint p linking s.primal lower = .ok c := by
  unfold project at h
  split_ifs at h
  · exact (not_yields_throw h).elim
  · exact .inl h
  · exact (not_yields_throw h).elim
  · obtain ⟨model, w₁, hmodel, h⟩ := yields_bind.mp h
    obtain ⟨hprojection, rfl⟩ := yields_mk_pure.mp hmodel
    obtain ⟨s, w₂, hattempt, h⟩ := yields_bind.mp h
    split_ifs at h with hs
    · obtain ⟨hpoint, rfl⟩ := yields_mk_pure.mp h
      exact .inr ⟨model, s, hprojection, Backend.yields_attempt.mp hattempt, of_decide_eq_true hs,
        hpoint⟩
    · exact (not_yields_throw h).elim

/-- The projection of a centre is read from an optimal reply about the planning problem with more
rows, the last one. -/
theorem project_replied (hp : p.model.WellFormed) {centre : Candidate K} {lower upper gamma : K}
    (h : Yields (p.project backend linking centre lower upper gamma settings) w c w') :
    ∃ (model : Model K) (settings : SolverSettings K) (w₁ : σ) (s : Solution K) (bound : K),
      model.WellFormed ∧ model.vars = p.model.vars ∧
      (∀ point, model.Feasible point → p.model.Feasible point) ∧
      Answers (backend.solve model settings) w₁ (.ok s) w' ∧ s.status = .optimal ∧
      Candidate.ofPoint p linking s.primal bound = .ok c := by
  rcases project_cases h with hsolve | ⟨model, s, hprojection, hreplied, hs, hpoint⟩
  · obtain ⟨settings', w₁, s, hreplied, hs, -, hpoint⟩ := solve_replied hsolve
    exact ⟨p.model, settings', w₁, s, _, hp, rfl, fun _ => id, hreplied, hs, hpoint⟩
  · obtain ⟨hwellFormed, hvars, hfeasible⟩ := projection_eq_ok hp hprojection
    exact ⟨model, settings, w, s, lower, hwellFormed, hvars, hfeasible, hreplied, hs, hpoint⟩

/-- The projection of a centre comes from a feasible point of the planning problem as well. -/
theorem project_offers (hb : backend.IsExact) (hp : p.model.WellFormed) {centre : Candidate K}
    {lower upper gamma : K}
    (h : Yields (p.project backend linking centre lower upper gamma settings) w c w') :
    p.Offers linking c := by
  obtain ⟨model, settings', w₁, s, bound, hmodel, -, hfeasible, hreplied, hs, hpoint⟩ :=
    project_replied hp h
  have hexact := hb model settings' w₁ w' s hmodel hreplied
  exact ⟨s.primal, bound, hfeasible _ (hexact.feasible hs), hpoint⟩

end Solve

end PlanningProblem

end BendersPlanning

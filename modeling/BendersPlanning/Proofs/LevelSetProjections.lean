import BendersPlanning.Proofs.EditedModels
import BendersPlanning.Proofs.FailedProjections
import BendersPlanning.Proofs.RunProgress

/-!
# Projections onto level sets

The model of a projection is the planning problem with its linear objective as one more row. The new
objective is a sum of squares written out, so it is the squared distance of the linking values to the
centre. The level is never below the lower bound, also where the bounds have crossed, so the level set
has whatever point the lower bound came from.
-/

namespace BendersPlanning

open Scalar (entry isFinite)

section Meaning
variable {K : Type} [Scalar K]

/-- The squared distance of two assignments of values to names. -/
def squaredDistance (names : List String) (x y : String → K) : K :=
  Scalar.sum (names.map fun name => (x name - y name) * (x name - y name))

namespace PlanningProblem

/-- The fixed cost and the proxies at a point, without any squares. -/
def linearCost (p : PlanningProblem K) (point : Array K) : K :=
  p.fixedCost.evaluate point + Scalar.sum (p.theta.map (entry point)).toList

/-- What the model of a projection asks for: points of the planning problem within the level, and
among them those near the centre. All else is as in the planning problem. -/
structure IsProjection (p : PlanningProblem K) (linking : List String)
    (centre : SortedMap String K) (level : K) (model : Model K) : Prop where
  wellFormed : model.WellFormed
  vars : model.vars = p.model.vars
  rows : model.constraints =
    p.model.constraints.push ⟨levelName, p.model.objective, .atMost, level⟩
  expressions : model.expressions = p.model.expressions
  feasible : ∀ point, model.Feasible point ↔
    p.model.Feasible point ∧ p.linearCost point ≤ level
  distance : ∀ point, IsFiniteVector p.model.vars.size point →
    model.objectiveValue point = squaredDistance linking (p.linkAt point) centre.valueAt

/-- A candidate read from a point of the planning problem within a level, of which none is nearer to
the centre. -/
structure IsNearest (p : PlanningProblem K) (linking : List String) (centre : SortedMap String K)
    (lower level : K) (c : Candidate K) : Prop where
  offered : ∃ point, p.model.Feasible point ∧ Candidate.ofPoint p linking point lower = .ok c
  lowerBound : c.lowerBound = lower
  objective : c.planningObjective ≤ level
  nearest : ∀ point, p.model.Feasible point → p.linearCost point ≤ level →
    squaredDistance linking c.values.valueAt centre.valueAt ≤
      squaredDistance linking (p.linkAt point) centre.valueAt

/-- Whether projections are possible above a lower bound: a point is within it, and from every centre
and for every upper bound there is a model to solve, which has a point. -/
structure AdmitsProjections (p : PlanningProblem K) (linking : List String) (lower : K) : Prop where
  within : ∃ point, p.model.Feasible point ∧ p.linearCost point ≤ lower
  possible : ∀ (centre : SortedMap String K) (upper gamma : K), centre.Covers linking →
    isFinite upper = true → 0.0 < gamma ∧ gamma ≤ 1.0 →
    ∃ model, p.projection linking centre (level lower upper gamma) = .ok model ∧
      p.IsProjection linking centre (level lower upper gamma) model ∧
      ∃ point, model.Feasible point

end PlanningProblem

/-- Names of equal values are equally far away. -/
theorem squaredDistance_congr {names : List String} {x x' y : String → K}
    (h : ∀ name ∈ names, x name = x' name) :
    squaredDistance names x y = squaredDistance names x' y := by
  have hsquares : ∀ name ∈ names, (x name - y name) * (x name - y name) =
      (x' name - y name) * (x' name - y name) := fun name hname => by rw [h name hname]
  rw [squaredDistance, squaredDistance, List.map_congr_left hsquares]

end Meaning

open Exact (number)

section Distance
variable {m : Model Exact} {linking : List String} {centre : SortedMap String Exact}
  {e : Expression Exact} {weights : Array (ℕ × Exact)} {count : ℕ}

theorem squaredDistance_eq {x y : String → Exact} {a b : String → ℚ}
    (hx : ∀ name ∈ linking, x name = number (a name))
    (hy : ∀ name ∈ linking, y name = number (b name)) : squaredDistance linking x y =
      number (linking.map fun name => (a name - b name) * (a name - b name)).sum := by
  have hsquares : ∀ name ∈ linking, (x name - y name) * (x name - y name) =
      number ((a name - b name) * (a name - b name)) := by
    intro name hname
    rw [hx name hname, hy name hname, Exact.number_sub, Exact.number_mul]
  rw [squaredDistance, List.map_congr_left hsquares, Exact.sum_map_number]

/-- A value at the centre is a number. -/
theorem SortedMap.Covers.valueAt_eq (h : centre.Covers linking) {name : String}
    (hname : name ∈ linking) : centre.valueAt name = number (centre.valueAt name).toRat := by
  obtain ⟨value, hvalue, hfinite⟩ := h name hname
  obtain ⟨c, rfl⟩ := Exact.isFinite_iff.mp hfinite
  simp [SortedMap.valueAt, hvalue]

/-- The position of the variable with this name. -/
def Model.positionOf (m : Model Exact) (name : String) : ℕ := (m.variableNamed? name).getD 0

/-- The squared distance to a centre at rational coordinates. -/
def Model.distanceAt (m : Model Exact) (linking : List String) (centre : SortedMap String Exact)
    (x : ℕ → ℚ) : ℚ :=
  (linking.map fun name => (x (m.positionOf name) - (centre.valueAt name).toRat) *
    (x (m.positionOf name) - (centre.valueAt name).toRat)).sum

/-- Whether an expression and weights of squares are over some variables and make up a function. -/
structure IsSplit (e : Expression Exact) (weights : Array (ℕ × Exact)) (count : ℕ)
    (f : (ℕ → ℚ) → ℚ) : Prop where
  linear : e.IsOver count
  squares : ∀ t ∈ weights, t.1 < count ∧ isFinite t.2 = true ∧ ¬t.2 < 0.0
  value : ∀ x, e.valueAt x + termSum weights.toList (fun v => x v * x v) = f x

/-- One more linking variable adds its square: linear part, constant and weight make it up. -/
theorem IsSplit.addSquare {f : (ℕ → ℚ) → ℚ} (h : IsSplit e weights count f) {v : ℕ}
    (hv : v < count) (c : ℚ) :
    IsSplit ((e.addTerm v (-2.0 * number c)).addConstant (number c * number c))
      (weights.push (v, 1.0)) count fun x => f x + (x v - c) * (x v - c) := by
  have hslope : (-2.0 * number c : Exact) = number (-2 * c) := by simp
  obtain ⟨k, hk⟩ := Exact.isFinite_iff.mp h.linear.constant
  constructor
  · have hterm := h.linear.addTerm hv (hslope ▸ Exact.isFinite_number (-2 * c))
    refine ⟨hterm.terms, ?_⟩
    simp [Expression.addConstant, Expression.addTerm, hk]
  · intro t ht
    rcases Array.mem_push.mp ht with ht | rfl
    · exact h.squares t ht
    · exact ⟨hv, by simp, by simp⟩
  · intro x
    rw [← h.value]
    simp [Expression.valueAt, Expression.addConstant, Expression.addTerm, hk]
    ring

theorem isSplit_zero (count : ℕ) : IsSplit .zero #[] count fun _ => 0 :=
  ⟨⟨nofun, Scalar.isFinite_zero⟩, nofun, fun x => by
    simp [Expression.valueAt, Expression.zero, Expression.ofConstant]⟩

/-- The objective of a projection can be written for every choice of variables that are there and have
values at the centre, and it is the squared distance. -/
theorem exists_distanceTo_eq
    (hlinking : ∀ name ∈ linking, (m.variableNamed? name).isSome = true)
    (hcentre : centre.Covers linking) :
    ∃ e weights, PlanningProblem.distanceTo m linking centre = .ok (e, weights) ∧
      IsSplit e weights m.vars.size (m.distanceAt linking centre) := by
  induction linking using List.reverseRecOn with
  | nil => exact ⟨.zero, #[], rfl, isSplit_zero _⟩
  | append_singleton linking name ih =>
    rw [List.forall_mem_append, List.forall_mem_singleton] at hlinking
    have hvalues := List.forall_mem_append.mp hcentre
    obtain ⟨e, weights, hdistance, hsplit⟩ := ih hlinking.1 hvalues.1
    obtain ⟨v, hv⟩ := Option.isSome_iff_exists.mp hlinking.2
    obtain ⟨value, hvalue, hfinite⟩ := hvalues.2 name (List.mem_singleton_self _)
    obtain ⟨c, rfl⟩ := Exact.isFinite_iff.mp hfinite
    have hone : m.distanceAt (linking ++ [name]) centre =
        fun x => m.distanceAt linking centre x + (x v - c) * (x v - c) := by
      funext x
      simp [Model.distanceAt, Model.positionOf, SortedMap.valueAt, hv, hvalue]
    refine ⟨_, _, ?_, hone ▸ hsplit.addSquare (Model.lt_of_variableNamed? hv) c⟩
    rw [PlanningProblem.distanceTo, List.foldlM_append]
    refine bind_eq_ok.mpr ⟨_, hdistance, ?_⟩
    simp only [List.foldlM_cons, List.foldlM_nil, hv, hvalue]
    rfl

end Distance

section Projecting
variable {p : PlanningProblem Exact} {linking : List String} {centre : SortedMap String Exact}
  {point : Array Exact} {limit lower upper gamma : Exact}

namespace PlanningProblem

theorem linearCost_eq (hp : p.model.WellFormed) (hcharges : p.ChargesProxies)
    (hpoint : IsFiniteVector p.model.vars.size point) : p.linearCost point =
      number (p.fixedCost.valueAt (coordinate point) +
        (p.theta.toList.map (coordinate point)).sum) := by
  have hproxies : (p.theta.map (entry point)).toList =
      p.theta.toList.map fun t => number (coordinate point t) := by
    rw [Array.toList_map]
    exact List.map_congr_left fun t ht =>
      hpoint.entry_eq (hcharges.proxy_lt hp (Array.mem_toList_iff.mp ht))
  rw [linearCost, Expression.evaluate_eq (hcharges.isOver_fixedCost hp) hpoint, hproxies,
    Exact.sum_map_number, Exact.number_add]

/-- The objective that building installs is the linear cost. -/
theorem evaluate_objective (hp : p.model.WellFormed) (hcharges : p.ChargesProxies)
    (hpoint : IsFiniteVector p.model.vars.size point) :
    p.model.objective.evaluate point = p.linearCost point := by
  rw [linearCost_eq hp hcharges hpoint, Expression.evaluate_eq hp.objective hpoint,
    hcharges.valueAt_objective]

theorem squaredDistance_linkAt (hlinking : ∀ name ∈ linking,
      (p.model.variableNamed? name).isSome = true) (hcentre : centre.Covers linking)
    (hpoint : IsFiniteVector p.model.vars.size point) :
    squaredDistance linking (p.linkAt point) centre.valueAt =
      number (p.model.distanceAt linking centre (coordinate point)) := by
  apply squaredDistance_eq
  · intro name hname
    obtain ⟨v, hv⟩ := Option.isSome_iff_exists.mp (hlinking name hname)
    simp [linkAt, Model.positionOf, hv, hpoint.entry_eq (Model.lt_of_variableNamed? hv)]
  · intro name hname
    exact hcentre.valueAt_eq hname

/-- A projection has a model, whatever the level, the variables and their values at the centre. -/
theorem exists_projection_eq (hp : p.model.WellFormed) (hcharges : p.ChargesProxies)
    (hfree : p.model.constraintNamed? levelName = none)
    (hlinking : ∀ name ∈ linking, (p.model.variableNamed? name).isSome = true)
    (hcentre : centre.Covers linking) (hlimit : isFinite limit = true) :
    ∃ model, p.projection linking centre limit = .ok model ∧
      p.IsProjection linking centre limit model := by
  let row : Constraint Exact := ⟨levelName, p.model.objective, .atMost, limit⟩
  let widened : Model Exact := { p.model with constraints := p.model.constraints.push row }
  have hadd : p.model.addConstraint row = .ok (widened, p.model.constraints.size) :=
    Model.addConstraint_eq_ok.mpr ⟨rfl, hfree, hlimit, hp.objective, rfl, rfl⟩
  have hlinking' : ∀ name ∈ linking, (widened.variableNamed? name).isSome = true := hlinking
  obtain ⟨e, weights, hdistance, hsplit⟩ := exists_distanceTo_eq hlinking' hcentre
  have hobjective : widened.setObjective e = .ok { widened with objective := e } :=
    Model.setObjective_eq_ok.mpr ⟨hsplit.linear, rfl⟩
  have hquadratic : ({ widened with objective := e } : Model Exact).setQuadratic weights =
      .ok { widened with objective := e, quadratic := weights } :=
    Model.setQuadratic_eq_ok.mpr ⟨hsplit.squares, rfl⟩
  have hwell := ((hp.addConstraint hadd).setObjective hobjective).setQuadratic hquadratic
  refine ⟨_, ?_, hwell, rfl, rfl, rfl, fun point => ⟨fun h => ?_, fun h => ?_⟩,
    fun point hpoint => ?_⟩
  · exact bind_eq_ok.mpr ⟨_, mapError_eq_ok.mpr hadd, bind_eq_ok.mpr ⟨_, hdistance,
      bind_eq_ok.mpr ⟨_, mapError_eq_ok.mpr hobjective, mapError_eq_ok.mpr hquadratic⟩⟩⟩
  · have hrow : p.model.objective.evaluate point ≤ limit :=
      h.rows row Array.mem_push_self
    rw [evaluate_objective hp hcharges h.toIsFiniteVector] at hrow
    exact ⟨⟨h.toIsFiniteVector, h.admitted, fun c hc => h.rows c (Array.mem_push_of_mem _ hc)⟩,
      hrow⟩
  · obtain ⟨hfeasible, hcost⟩ := h
    rw [← evaluate_objective hp hcharges hfeasible.toIsFiniteVector] at hcost
    refine ⟨hfeasible.toIsFiniteVector, hfeasible.admitted, fun c hc => ?_⟩
    rcases Array.mem_push.mp hc with hc | rfl
    · exact hfeasible.rows c hc
    · exact hcost
  · rw [Model.objectiveValue_eq hwell hpoint, squaredDistance_linkAt hlinking hcentre hpoint]
    exact congrArg number (hsplit.value (coordinate point))

/-- Cuts leave a planning problem well-formed, whether they are taken or refused. -/
theorem wellFormed_addCuts (hp : p.model.WellFormed) (cuts : List (Cut Exact)) :
    (p.addCuts cuts).1.model.WellFormed := by
  induction cuts generalizing p with
  | nil => exact hp
  | cons c cuts ih =>
    rw [addCuts]
    cases hadd : p.addCut c with
    | error e => exact hp
    | ok p' => exact ih (addCut_eq_ok hp hadd).2.1

theorem wellFormed_afterCuts (hp : p.model.WellFormed) (batches : List (List (Cut Exact))) :
    (p.afterCuts batches).model.WellFormed := by
  induction batches generalizing p with
  | nil => exact hp
  | cons cuts batches ih => exact ih (wellFormed_addCuts hp cuts)

theorem level_eq (l u g : ℚ) :
    level (number l) (number u) (number g) = number (l + g * max (u - l) 0) := by
  rw [level, Exact.number_sub, Exact.zero_eq, Exact.larger_number, Exact.number_mul,
    Exact.number_add]

/-- The level is a number and not below the lower bound, even where the bounds have crossed. -/
theorem le_level (hlower : isFinite lower = true) (hupper : isFinite upper = true)
    (hgamma : 0.0 < gamma ∧ gamma ≤ 1.0) :
    isFinite (level lower upper gamma) = true ∧ lower ≤ level lower upper gamma := by
  obtain ⟨l, rfl⟩ := Exact.isFinite_iff.mp hlower
  obtain ⟨u, rfl⟩ := Exact.isFinite_iff.mp hupper
  obtain ⟨g, rfl⟩ : ∃ g, gamma = number g := by
    rw [Exact.zero_eq, Exact.one_eq] at hgamma
    cases gamma with
    | number g => exact ⟨g, rfl⟩
    | infinity => exact absurd hgamma.2 (Exact.not_infinity_le_number 1)
    | negInfinity | undefined => cases hgamma.1
  have hg : 0 < g := by simpa using hgamma.1
  rw [level_eq]
  refine ⟨Exact.isFinite_number _, Exact.number_le.mpr ?_⟩
  have hgap : 0 ≤ g * max (u - l) 0 := mul_nonneg hg.le (le_max_right _ _)
  linarith

section Candidates
variable {c : Candidate Exact} {bound : Exact}

/-- A candidate has the values of the linking variables at the point it was read from. -/
theorem squaredDistance_of_ofPoint (hpoint : IsFiniteVector p.model.vars.size point)
    (h : Candidate.ofPoint p linking point bound = .ok c) :
    squaredDistance linking c.values.valueAt centre.valueAt =
      squaredDistance linking (p.linkAt point) centre.valueAt := by
  apply squaredDistance_congr
  intro name hname
  obtain ⟨x, hx, -⟩ := covers_of_ofPoint hpoint.finite h name hname
  obtain ⟨-, id, hid, hentry⟩ := find?_of_ofPoint h hx
  simp [SortedMap.valueAt, linkAt, hx, hid, entry, hentry]

theorem planningObjective_of_ofPoint (h : Candidate.ofPoint p linking point bound = .ok c) :
    c.planningObjective = p.linearCost point := by
  obtain ⟨hfixed, htheta⟩ := parts_of_ofPoint h
  rw [Candidate.planningObjective, hfixed, htheta, linearCost]

end Candidates

section Solving
variable {σ : Type} {backend : Backend (StateM σ) Exact} {settings : SolverSettings Exact}
  {centre : Candidate Exact} {model : Model Exact} {c : Candidate Exact} {w w' : σ}

/-- A projection is read from the optimal reply about its model, with the lower bound it was given. -/
theorem yields_project_iff (hlower : isFinite lower = true) (hupper : isFinite upper = true)
    (hgamma : 0.0 < gamma ∧ gamma ≤ 1.0)
    (hmodel : p.projection linking centre.values (level lower upper gamma) = .ok model) :
    Yields (p.project backend linking centre lower upper gamma settings) w c w' ↔
      ∃ s, Answers (backend.solve model settings) w (.ok s) w' ∧ s.status = .optimal ∧
        Candidate.ofPoint p linking s.primal lower = .ok c := by
  have hpositive : (0.0 : Exact) ≤ gamma :=
    LinearScalar.le_of_not_lt (OrderedScalar.defined_of_lt hgamma.1).1
      (OrderedScalar.defined_of_lt hgamma.1).2 (OrderedScalar.lt_asymm hgamma.1)
  have hrange : (!(decide (0.0 ≤ gamma) && decide (gamma ≤ 1.0))) = false := by
    rw [decide_eq_true hpositive, decide_eq_true hgamma.2]
    rfl
  have hbounds : (!(isFinite lower && isFinite upper)) = false := by
    rw [hlower, hupper]
    rfl
  unfold project
  rw [hrange, beq_zero_of_pos hgamma.1, hbounds, hmodel]
  simp only [Bool.false_eq_true, if_false]
  constructor
  · intro h
    obtain ⟨_, w₁, hread, h⟩ := yields_bind.mp h
    obtain ⟨hsame, rfl⟩ := yields_mk_pure.mp hread
    obtain rfl := Except.ok.inj hsame
    obtain ⟨s, w₂, hattempt, h⟩ := yields_bind.mp h
    split_ifs at h with hs
    · obtain ⟨hpoint, rfl⟩ := yields_mk_pure.mp h
      exact ⟨s, Backend.yields_attempt.mp hattempt, of_decide_eq_true hs, hpoint⟩
    · exact (not_yields_throw h).elim
  · rintro ⟨s, hanswer, hs, hpoint⟩
    refine yields_bind.mpr ⟨model, w, yields_mk_pure.mpr ⟨rfl, rfl⟩, ?_⟩
    refine yields_bind.mpr ⟨s, w', Backend.yields_attempt.mpr hanswer, ?_⟩
    have hoptimal : s.isOptimal = true := decide_eq_true hs
    rw [if_pos hoptimal]
    exact yields_mk_pure.mpr ⟨hpoint, rfl⟩

/-- The candidate that an exact backend gives for the model of a projection is a nearest one. -/
theorem IsProjection.isNearest (h : p.IsProjection linking centre.values limit model)
    (hb : backend.IsExact) {s : Solution Exact}
    (hanswer : Answers (backend.solve model settings) w (.ok s) w') (hs : s.status = .optimal)
    (hc : Candidate.ofPoint p linking s.primal lower = .ok c) :
    p.IsNearest linking centre.values lower limit c := by
  have hexact := hb model settings w w' s h.wellFormed hanswer
  obtain ⟨hfeasible, hcost⟩ := (h.feasible s.primal).mp (hexact.feasible hs)
  have hpoint := hfeasible.toIsFiniteVector
  refine ⟨⟨s.primal, hfeasible, hc⟩, lowerBound_of_ofPoint hc, ?_, fun point hother hwithin => ?_⟩
  · rw [planningObjective_of_ofPoint hc]
    exact hcost
  · have hleast := hexact.least hs point ((h.feasible point).mpr ⟨hother, hwithin⟩)
    rwa [hexact.value hs, h.distance _ hpoint, h.distance point hother.toIsFiniteVector,
      ← squaredDistance_of_ofPoint hpoint hc] at hleast

/-- The point that the planning problem was solved by costs at most the bound that came with it. -/
theorem exists_within_of_solve (hb : backend.IsExact) (hp : p.model.WellFormed)
    (hcharges : p.ChargesProxies) (h : Yields (p.solve backend linking settings) w c w') :
    ∃ bound, c.lowerBound = number bound ∧
      ∃ point, p.model.Feasible point ∧ p.linearCost point ≤ number bound := by
  obtain ⟨settings', w₁, s, hreplied, hs, -, hpoint⟩ := solve_replied h
  have hexact := hb p.model settings' w₁ w' s hp hreplied
  have hfeasible := hexact.feasible hs
  refine ⟨p.model.cost (coordinate s.primal), ?_, s.primal, hfeasible, ?_⟩
  · rw [lowerBound_of_ofPoint hpoint, hexact.value hs,
      Model.objectiveValue_eq hp hfeasible.toIsFiniteVector]
  · rw [linearCost_eq hp hcharges hfeasible.toIsFiniteVector, Exact.number_le]
    exact hcharges.le_cost hp _

end Solving

/-- A level above a bound has the points within that bound. -/
theorem IsProjection.exists_feasible {centre : SortedMap String Exact} {model : Model Exact}
    (h : p.IsProjection linking centre limit model) (hbelow : lower ≤ limit)
    (hwithin : ∃ point, p.model.Feasible point ∧ p.linearCost point ≤ lower) :
    ∃ point, model.Feasible point := by
  obtain ⟨point, hfeasible, hcost⟩ := hwithin
  exact ⟨point, (h.feasible point).mpr ⟨hfeasible, Exact.le_trans hcost hbelow⟩⟩

/-- From a point within the lower bound every projection is possible. -/
theorem admitsProjections (hp : p.model.WellFormed) (hcharges : p.ChargesProxies)
    (hfree : p.model.constraintNamed? levelName = none)
    (hlinking : ∀ name ∈ linking, (p.model.variableNamed? name).isSome = true)
    (hlower : isFinite lower = true)
    (hwithin : ∃ point, p.model.Feasible point ∧ p.linearCost point ≤ lower) :
    p.AdmitsProjections linking lower := by
  refine ⟨hwithin, fun centre upper gamma hcentre hupper hgamma => ?_⟩
  obtain ⟨hlimit, hbelow⟩ := le_level hlower hupper hgamma
  obtain ⟨model, hmodel, hprojection⟩ :=
    exists_projection_eq hp hcharges hfree hlinking hcentre hlimit
  exact ⟨model, hmodel, hprojection, hprojection.exists_feasible hbelow hwithin⟩

end PlanningProblem

end Projecting

namespace RunState

section Running
variable {σ : Type} {backend : Backend (StateM σ) Exact} {clock : Clock (StateM σ) Exact}
  {c : Configuration Exact} {problem : DecomposedProblem Exact} {linking : List String}
  {before after start : RunState Exact × σ} {pass : Pass Exact σ}

open PlanningProblem (levelName)

/-- What projections need of the state between iterations. -/
structure IsProjectable (s : RunState Exact) (linking : List String) : Prop where
  sound : s.IsSound
  charges : s.planning.ChargesProxies
  free : s.planning.model.constraintNamed? levelName = none
  planned : ∀ name ∈ linking, (s.planning.model.variableNamed? name).isSome = true
  lower : s.history.lowerBound = .negInfinity ∨ ∃ q, s.history.lowerBound = number q

theorem isProjectable_start {s : RunState Exact} (hproblem : problem.WellFormed)
    (hcharges : problem.planning.ChargesProxies)
    (hfree : problem.planning.model.constraintNamed? levelName = none)
    (h : RunState.start c problem = .ok s) : s.IsProjectable problem.linking := by
  obtain ⟨hsound, hempty, -⟩ := start_sound hproblem h
  obtain ⟨-, hvalid, evaluators, -, rfl⟩ := start_eq_ok.mp h
  have hplanned := (DecomposedProblem.validate_eq_ok.mp hvalid).planned
  refine ⟨hsound, ?_, ?_, ?_, .inl (hempty ▸ rfl)⟩
  · unfold PlanningProblem.ChargesProxies
    dsimp only
    split_ifs <;> exact hcharges
  · dsimp only
    split_ifs <;> exact hfree
  · dsimp only
    split_ifs
    · exact hplanned
    · simpa [Model.variableNamed?, Model.relaxIntegrality, Function.comp_def] using hplanned

/-- The rows that an iteration adds have the names of cuts, and its bound is a number. -/
theorem IsProjectable.leads (h : before.1.IsProjectable linking) (hb : backend.IsExact)
    (hleads : pass.Leads backend clock c linking before after) :
    after.1.IsProjectable linking := by
  obtain ⟨hsound, hextends, -⟩ := leads_keeps h.sound hleads
  obtain ⟨bound, hbound, -⟩ :=
    PlanningProblem.exists_within_of_solve hb h.sound.planning h.charges hleads.solves
  refine ⟨hsound, hextends.chargesProxies h.charges, ?_, fun name hname => ?_, ?_⟩
  · have hfree := h.free
    rw [Model.constraintNamed?_eq_none_iff] at hfree ⊢
    intro hmem
    have hmem : levelName ∈ after.1.planning.rowNames := hmem
    rw [(PlanningProblem.gainsCuts_of_addCuts hleads.adds).1.rowNames] at hmem
    rcases List.mem_append.mp hmem with hold | hcut
    · exact hfree hold
    · rw [PlanningProblem.names_cuts hleads.cuts] at hcut
      exact absurd (PlanningProblem.marked_of_mem_cutNames hcut) (by decide +kernel)
  · rw [hextends.variableNamed?]
    exact h.planned name hname
  · obtain ⟨q, hq, -⟩ := Exact.exists_larger_eq_number h.lower bound
    rw [hleads.records, History.lowerBound_record, hbound]
    exact .inr ⟨q, hq⟩

theorem isProjectable_of_reaches (hb : backend.IsExact) (hstart : start.1.IsProjectable linking)
    (h : Reaches backend clock c linking start after) : after.1.IsProjectable linking := by
  induction h with
  | refl => exact hstart
  | tail _ hstep ih =>
    obtain ⟨pass, hleads⟩ := yields_step_iff.mp hstep
    exact ih.leads hb hleads

/-- Before an iteration projects, its lower bound is that of the planning problem or a later one, so
the solution of the planning problem is within it. -/
theorem IsProjectable.admitsProjections {s : RunState Exact} (h : s.IsProjectable linking)
    (hb : backend.IsExact) {master : Candidate Exact} {settings : SolverSettings Exact} {w w' : σ}
    (hmaster : Yields (s.planning.solve backend linking settings) w master w') :
    s.planning.AdmitsProjections linking
      (Scalar.larger s.history.lowerBound master.lowerBound) := by
  obtain ⟨bound, hbound, point, hfeasible, hcost⟩ :=
    PlanningProblem.exists_within_of_solve hb h.sound.planning h.charges hmaster
  obtain ⟨q, hq, hle⟩ := Exact.exists_larger_eq_number h.lower bound
  rw [hbound, hq]
  exact PlanningProblem.admitsProjections h.sound.planning h.charges h.free h.planned
    (Exact.isFinite_number q) ⟨point, hfeasible, Exact.le_trans hcost (Exact.number_le.mpr hle)⟩

end Running

end RunState

/-- A projection onto a level set asks for just the points of the planning problem within the level,
and of these for one nearest to the centre, so that is what an exact backend gives. It is possible
wherever a point is within the lower bound; in every iteration of a run the solution of the planning
problem is, and what the iteration changes of the planning problem are the rows of its cuts. -/
theorem level_sets_are_projected_onto {m : Model Exact} {fixedCost : Expression Exact}
    {theta : Array ℕ} {built p : PlanningProblem Exact} (hm : m.WellFormed)
    (hbuilt : PlanningProblem.ofModel m fixedCost theta = .ok built)
    (batches : List (List (Cut Exact))) (hp : p = built.afterCuts batches)
    (hfree : p.model.constraintNamed? PlanningProblem.levelName = none) :
    (∀ (linking : List String) (centre : Candidate Exact) (lower upper gamma : Exact),
      (∀ name ∈ linking, (p.model.variableNamed? name).isSome = true) →
      centre.values.Covers linking → isFinite lower = true → isFinite upper = true →
      0.0 < gamma ∧ gamma ≤ 1.0 →
      ∃ model, p.projection linking centre.values (PlanningProblem.level lower upper gamma) =
          .ok model ∧
        p.IsProjection linking centre.values (PlanningProblem.level lower upper gamma) model ∧
        ((∃ point, p.model.Feasible point ∧ p.linearCost point ≤ lower) →
          ∃ point, model.Feasible point) ∧
        ∀ (σ : Type) (backend : Backend (StateM σ) Exact) (settings : SolverSettings Exact)
          (w w' : σ), backend.IsExact →
          (∀ c, Yields (p.project backend linking centre lower upper gamma settings) w c w' →
            p.IsNearest linking centre.values lower (PlanningProblem.level lower upper gamma) c) ∧
          ∀ s, Answers (backend.solve model settings) w (.ok s) w' → s.status = .optimal →
            ∃ c, Yields (p.project backend linking centre lower upper gamma settings) w c w') ∧
    ∀ (σ : Type) (backend : Backend (StateM σ) Exact) (clock : Clock (StateM σ) Exact)
      (c : Configuration Exact) (problem : DecomposedProblem Exact) (start : RunState Exact) (w : σ)
      (before : RunState Exact × σ),
      backend.IsExact → problem.WellFormed → problem.planning = p →
      RunState.start c problem = .ok start →
      RunState.Reaches backend clock c problem.linking (start, w) before →
      ∀ (pass : Pass Exact σ) (after : RunState Exact × σ),
        pass.Leads backend clock c problem.linking before after →
        before.1.planning.AdmitsProjections problem.linking
            (Scalar.larger before.1.history.lowerBound pass.master.lowerBound) ∧
          after.1.planning.GainsCuts before.1.planning pass.cuts := by
  have hagain := PlanningProblem.ofModel_afterCuts hbuilt batches
  have hwell : p.model.WellFormed :=
    hp ▸ PlanningProblem.wellFormed_afterCuts (PlanningProblem.wellFormed_of_ofModel hm hbuilt) batches
  have hcharges : p.ChargesProxies := hp ▸ PlanningProblem.chargesProxies_of_ofModel hagain
  constructor
  · intro linking centre lower upper gamma hlinking hcentre hlower hupper hgamma
    obtain ⟨hlimit, hbelow⟩ := PlanningProblem.le_level hlower hupper hgamma
    obtain ⟨model, hmodel, hprojection⟩ :=
      PlanningProblem.exists_projection_eq hwell hcharges hfree hlinking hcentre hlimit
    refine ⟨model, hmodel, hprojection, hprojection.exists_feasible hbelow,
      fun σ backend settings w w' hb => ⟨?_, ?_⟩⟩
    · intro c hyields
      obtain ⟨s, hanswer, hs, hc⟩ :=
        (PlanningProblem.yields_project_iff hlower hupper hgamma hmodel).mp hyields
      exact hprojection.isNearest hb hanswer hs hc
    · intro s hanswer hs
      obtain ⟨hfeasible, -⟩ := (hprojection.feasible s.primal).mp
        ((hb model settings w w' s hprojection.wellFormed hanswer).feasible hs)
      obtain ⟨c, hc⟩ : ∃ c, Candidate.ofPoint p linking s.primal lower = .ok c :=
        PlanningProblem.exists_ofPoint hlinking hfeasible.size
      exact ⟨c, (PlanningProblem.yields_project_iff hlower hupper hgamma hmodel).mpr
        ⟨s, hanswer, hs, hc⟩⟩
  · intro σ backend clock c problem start w before hb hproblem hplanning hstart hreach pass after
      hleads
    have hbefore := RunState.isProjectable_of_reaches hb
      (RunState.isProjectable_start hproblem (hplanning ▸ hcharges) (hplanning ▸ hfree) hstart)
      hreach
    exact ⟨hbefore.admitsProjections hb hleads.solves,
      (PlanningProblem.gainsCuts_of_addCuts hleads.adds).1⟩

/-- The planning of the one plant with a square left in its objective. -/
def squaredPlant : Model Exact :=
  { onePlant.planning.model with quadratic := #[(0, number 1)] }

/-- A cut that asks the plant and its proxy for eight in all, two for each unit of capacity. -/
def plantCut : Cut Exact :=
  ⟨"opt_cut[0,all]", .optimality, none, some 1, .ofList [("capacity", number (-2))], number 8⟩

/-- A plant of this capacity, as a centre. -/
def plantOf (capacity : ℚ) : Candidate Exact :=
  ⟨number 0, number capacity, .ofList [("capacity", number capacity)], #[number 0]⟩

/-- Four units without any proxy cost are the cheapest way to meet the cut, at a cost of four. Half the
way from there up to ten is seven, and so the plant of eight units is projected onto one of seven. An
upper bound below four leaves the level at four. -/
theorem squaredPlant_projected :
    ∃ built, PlanningProblem.ofModel squaredPlant (.ofVariable 0) #[1] = .ok built ∧
      let p := built.afterCuts [[plantCut, plantCut]]
      p.rowNames = ["opt_cut[0,all]"] ∧
      (∃ c, Yields (p.project (ConicSolver.checkedBackend ConicProgram.solveByPivoting) ["capacity"]
          (plantOf 8) (number 4) (number 10) (number (1 / 2)) .default) () c () ∧
        c.values = (plantOf 7).values ∧
        p.IsNearest ["capacity"] (plantOf 8).values (number 4) (number 7) c) ∧
      (∃ model, p.projection ["capacity"] (plantOf 8).values (number 4) = .ok model ∧
        ∃ point, model.Feasible point) ∧
      ∃ start after, ∃ pass : Pass Exact Unit,
        RunState.start .default { onePlant with planning := p } = .ok start ∧
        pass.Leads (ConicSolver.checkedBackend ConicProgram.solveByPivoting)
          (fun _ => pure (number 1)) .default ["capacity"] (start, ()) (after, ()) ∧
        start.planning.AdmitsProjections ["capacity"]
          (Scalar.larger start.history.lowerBound pass.master.lowerBound) := by
  let backend : Backend (StateM Unit) Exact :=
    ConicSolver.checkedBackend ConicProgram.solveByPivoting
  have hexact : backend.IsExact := checkedBackend_isExact _
  obtain ⟨built, hbuilt, hrows, hfree, hlinking, hwithin, hprojects, hwell, hsteps⟩ :=
    exists_ok_of_any (x := PlanningProblem.ofModel squaredPlant (.ofVariable 0) #[1])
    (P := fun built =>
      let p := built.afterCuts [[plantCut, plantCut]]
      p.rowNames = ["opt_cut[0,all]"] ∧
      p.model.constraintNamed? PlanningProblem.levelName = none ∧
      (∀ name ∈ ["capacity"], (p.model.variableNamed? name).isSome = true) ∧
      (p.model.Feasible #[number 4, number 0] ∧
        p.linearCost #[number 4, number 0] ≤ number 4) ∧
      (((p.project backend ["capacity"] (plantOf 8) (number 4) (number 10) (number (1 / 2))
        .default).run.run ()).1.toOption.any fun c => c.values = (plantOf 7).values) = true ∧
      p.model.WellFormed ∧
      ((RunState.start .default { onePlant with planning := p }).toOption.any fun start =>
        ((start.step backend (fun _ => pure (number 1)) .default ["capacity"]).run.run
          ()).1.toOption.any fun _ => true) = true) (by decide +kernel)
  let problem : DecomposedProblem Exact :=
    { onePlant with planning := built.afterCuts [[plantCut, plantCut]] }
  have hsubproblems : ∀ s ∈ onePlant.subproblems, s.model.WellFormed := by decide +kernel
  have hproblem : problem.WellFormed := ⟨hwell, hsubproblems⟩
  have hcovers : (plantOf 8).values.Covers ["capacity"] := by
    intro name hname
    rw [List.mem_singleton.mp hname]
    exact ⟨number 8, by decide +kernel, Exact.isFinite_number 8⟩
  have hmidway : PlanningProblem.level (number 4) (number 10) (number (1 / 2)) = number 7 := by
    decide +kernel
  have hcrossed : PlanningProblem.level (number 4) (number 1) (number (1 / 2)) = number 4 := by
    decide +kernel
  obtain ⟨c, hproject, hvalues⟩ := exists_yields_of_any hprojects
  obtain ⟨start, hstart, hstep⟩ := exists_ok_of_any (P := fun start : RunState Exact =>
    (((start.step backend (fun _ => pure (number 1)) .default ["capacity"]).run.run
      ()).1.toOption.any fun _ => true) = true) (by simpa using hsteps)
  obtain ⟨after, hafter, -⟩ := exists_yields_of_any (P := fun _ => True) (by simpa using hstep)
  obtain ⟨pass, hleads⟩ := RunState.yields_step_iff.mp hafter
  obtain ⟨hprojections, hruns⟩ := level_sets_are_projected_onto (m := squaredPlant)
    (by decide +kernel) hbuilt [[plantCut, plantCut]] rfl hfree
  obtain ⟨_, -, -, -, hnearest⟩ := hprojections ["capacity"] (plantOf 8) (number 4) (number 10)
    (number (1 / 2)) hlinking hcovers (Exact.isFinite_number 4) (Exact.isFinite_number 10)
    (by decide +kernel)
  obtain ⟨model, hmodel, -, hpossible, -⟩ := hprojections ["capacity"] (plantOf 8) (number 4)
    (number 1) (number (1 / 2)) hlinking hcovers (Exact.isFinite_number 4) (Exact.isFinite_number 1)
    (by decide +kernel)
  obtain ⟨hadmits, -⟩ := hruns Unit backend (fun _ => pure (number 1)) .default problem start ()
    (start, ()) hexact hproblem rfl hstart .refl pass _ hleads
  rw [hmidway] at hnearest
  rw [hcrossed] at hmodel
  exact ⟨built, hbuilt, hrows, ⟨c, hproject, hvalues,
    (hnearest Unit backend .default () () hexact).1 c hproject⟩,
    ⟨model, hmodel, hpossible ⟨_, hwithin⟩⟩, start, _, pass, hstart, hleads, hadmits⟩

end BendersPlanning

import BendersPlanning.Proofs.LevelSetProjections
import BendersPlanning.Proofs.RecordForms

/-!
# Two readings of the planning objective

The model of a planning problem is solved with its own objective, and a candidate reports the fixed
cost plus its proxies. At every point the first exceeds the second by the quadratic part that the
model brought along, which building or loading the problem leaves in place and cuts do not change.
So the lower bound of an exact solve is the planning objective of its candidate when the model has
no quadratic part, or one with zero weights only.
-/

namespace BendersPlanning

open Exact (number)
open Scalar (entry isFinite)

section Loading
variable {K ε α β γ : Type}

theorem Fields.exists_read_of_reader {x : Fields K ε α} {j : Json K} {a : α}
    (h : x.reader j = .ok a) : ∃ fields, x.read fields = .ok a := by
  unfold Fields.reader at h
  cases j with
  | obj fields => exact ⟨fields, Fields.reader_obj_eq_ok.mp h⟩
  | arr items =>
    refine ⟨x.names.zip items, ?_⟩
    dsimp only at h
    cases hread : x.read (x.names.zip items) with
    | error e => simp [hread] at h
    | ok b =>
      simp only [hread] at h
      split_ifs at h
      exact congrArg _ (Except.ok.inj h)
  | _ => cases h

theorem Fields.exists_read_of_required {name : String} {read : Reader K ε α}
    {fields : List (String × Json K)} {a : α}
    (h : (Fields.required name read).read fields = .ok a) : ∃ j, read j = .ok a := by
  simp only [Fields.required, Fields.fieldOr] at h
  split at h
  · cases h
  · rename_i i j more _
    split at h
    · cases h
    · cases h
    · rename_i b hread _
      exact ⟨j, hread.trans (congrArg _ (Except.ok.inj h))⟩

theorem Json.checked_eq_ok {reason : γ → ε} {f : α → Except γ β} {read : Reader K ε α} {j : Json K}
    {b : β} : Json.checked reason f read j = .ok b ↔ ∃ a, read j = .ok a ∧ f a = .ok b := by
  unfold Json.checked
  rw [bind_eq_ok]
  refine exists_congr fun a => and_congr_right fun _ => ?_
  cases f a <;> simp

variable [Scalar K] [OrderedScalar K]

/-- A model that was read was built from parts, so it is well-formed. -/
theorem Model.wellFormed_of_ofJson {j : Json K} {m : Model K} (h : Model.ofJson j = .ok m) :
    m.WellFormed := by
  obtain ⟨built, hparts, hbuilt⟩ := Json.checked_eq_ok.mp h
  obtain ⟨fields, hread⟩ := Fields.exists_read_of_reader hparts
  simp only [Fields.read_seq_eq_ok, Fields.read_map_eq_ok] at hread
  obtain ⟨_, _, ⟨_, _, ⟨_, _, ⟨_, _, ⟨_, -, rfl⟩, -, rfl⟩, -, rfl⟩, -, rfl⟩, -, rfl⟩ := hread
  exact WellFormed.ofParts hbuilt

end Loading

/-- A planning problem that was built from a well-formed model, or loaded. -/
inductive PlanningProblem.IsAccepted {K : Type} [Scalar K] : PlanningProblem K → Prop
  | built {m : Model K} {fixedCost : Expression K} {theta : Array ℕ} {p : PlanningProblem K}
      (hm : m.WellFormed) (h : ofModel m fixedCost theta = .ok p) : IsAccepted p
  | loaded {j : Json K} {p : PlanningProblem K} (h : ofJson j = .ok p) : IsAccepted p

/-- Loading builds the problem from a model that was read, so all problems are built. -/
theorem PlanningProblem.IsAccepted.exists_ofModel {K : Type} [Scalar K] [OrderedScalar K]
    {p : PlanningProblem K} (hp : p.IsAccepted) :
    ∃ (m : Model K) (fixedCost : Expression K) (theta : Array ℕ),
      m.WellFormed ∧ ofModel m fixedCost theta = .ok p := by
  cases hp with
  | built hm h => exact ⟨_, _, _, hm, h⟩
  | @loaded j p h =>
    obtain ⟨built, hparts, hbuilt⟩ := Json.checked_eq_ok.mp h
    obtain ⟨fields, hread⟩ := Fields.exists_read_of_reader hparts
    simp only [Fields.read_seq_eq_ok, Fields.read_map_eq_ok] at hread
    obtain ⟨_, theta, ⟨_, fixedCost, ⟨m, hmodel, rfl⟩, -, rfl⟩, -, rfl⟩ := hread
    obtain ⟨j, hj⟩ := Fields.exists_read_of_required hmodel
    exact ⟨m, fixedCost, theta, Model.wellFormed_of_ofJson hj, hbuilt⟩

namespace PlanningProblem

variable {p : PlanningProblem Exact} {point : Array Exact}

theorem evaluate_proxyCost (theta : Array ℕ) (point : Array Exact) :
    (proxyCost theta).evaluate point = Scalar.sum (theta.map (entry point)).toList := by
  have hterms : (proxyCost (K := Exact) theta).terms.toList.map (fun t => t.2 * entry point t.1) =
      theta.toList.map (entry point) := by
    simp [proxyCost, Expression.ofTerms, Exact.one_mul, Function.comp_def]
  have hconstant : (proxyCost (K := Exact) theta).constant = number 0 := Exact.zero_eq
  rw [Expression.evaluate_eq_sum, hterms, hconstant, Exact.zero_add, Array.toList_map]

/-- The objective of the model is what candidates report, and the quadratic part. -/
theorem ChargesProxies.objectiveValue_eq (h : p.ChargesProxies) (point : Array Exact) :
    p.model.objectiveValue point = p.linearCost point + p.model.quadraticValue point := by
  rw [Model.objectiveValue, h, Exact.one_eq, Expression.evaluate_addScaled, Exact.one_mul,
    evaluate_proxyCost, linearCost]

/-- The objective exceeds what candidates report by the squares, so the two agree at all finite points
just when no square is weighted. -/
theorem ChargesProxies.objectiveValue_eq_linearCost_iff (h : p.ChargesProxies)
    (hm : p.model.WellFormed) :
    (∀ point, IsFiniteVector p.model.vars.size point →
        p.model.objectiveValue point = p.linearCost point) ↔
      ∀ t ∈ p.model.quadratic, t.2 = number 0 := by
  have hsquares : ∀ point, IsFiniteVector p.model.vars.size point →
      (p.model.objectiveValue point = p.linearCost point ↔ termSum p.model.quadratic.toList
        (fun v => coordinate point v * coordinate point v) = 0) := by
    intro point hpoint
    rw [h.objectiveValue_eq, linearCost_eq hm h hpoint, Model.quadraticValue_eq hm hpoint,
      Exact.number_add, Exact.number.injEq, add_eq_left]
  constructor
  · intro hagree t ht
    let ones : Array Exact := Array.replicate p.model.vars.size (number 1)
    have hones : IsFiniteVector p.model.vars.size ones := by
      refine ⟨Array.size_replicate, fun x hx => ?_⟩
      rw [(Array.mem_replicate.mp hx).2, Exact.isFinite_number]
    have hone : ∀ t ∈ p.model.quadratic.toList,
        t.2.toRat * (coordinate ones t.1 * coordinate ones t.1) = t.2.toRat := by
      intro t ht
      have hlt := (hm.quadratic t (Array.mem_toList_iff.mp ht)).1
      simp [coordinate, entry, ones, hlt]
    have hsum := (hsquares ones hones).mp (hagree ones hones)
    rw [termSum, List.map_congr_left hone] at hsum
    obtain ⟨-, hnumber, -⟩ := hm.quadratic t ht
    have hzero := List.all_zero_of_le_zero_le_of_sum_eq_zero (fun q hq => ?_) hsum
      (List.mem_map_of_mem (Array.mem_toList_iff.mpr ht))
    · rw [← Exact.number_toRat hnumber, hzero]
    · obtain ⟨u, hu, rfl⟩ := List.mem_map.mp hq
      exact hm.toRat_weight_nonneg (Array.mem_toList_iff.mp hu)
  · intro hweights point hpoint
    refine (hsquares point hpoint).mpr (termSum_eq_zero (fun t ht => ?_) _)
    rw [hweights t (Array.mem_toList_iff.mp ht), Exact.toRat_number]

section Candidates
variable {linking : List String} {c : Candidate Exact} {bound : Exact}

/-- What the objective is at the point of a candidate. -/
theorem ChargesProxies.objectiveValue_of_ofPoint (h : p.ChargesProxies)
    (hc : Candidate.ofPoint p linking point bound = .ok c) :
    p.model.objectiveValue point = c.planningObjective + p.model.quadraticValue point := by
  rw [h.objectiveValue_eq, planningObjective_of_ofPoint hc]

/-- The lower bound of an exact solve is the objective at the point of its candidate. -/
theorem exists_point_of_solve {σ : Type} {backend : Backend (StateM σ) Exact}
    {settings : SolverSettings Exact} {w w' : σ} (hb : backend.IsExact) (hp : p.model.WellFormed)
    (h : Yields (p.solve backend linking settings) w c w') :
    ∃ point, p.model.Feasible point ∧ Candidate.ofPoint p linking point c.lowerBound = .ok c ∧
      c.lowerBound = p.model.objectiveValue point := by
  obtain ⟨settings', w₁, s, hreplied, hs, -, hc⟩ := solve_replied h
  have hexact := hb p.model settings' w₁ w' s hp hreplied
  have hbound := lowerBound_of_ofPoint hc
  exact ⟨s.primal, hexact.feasible hs, hbound ▸ hc, hbound.trans (hexact.value hs)⟩

end Candidates

/-- The objective of an accepted problem, with any cuts, is at every point what a candidate from there
reports, and the quadratic part of the model that was passed in. The two agree at all finite points
just when that part has no weight, and at all points when there is none. What an exact solve gives as a
lower bound is the objective, so it exceeds the report of its candidate in the same way. -/
theorem objective_of_candidates (hp : p.IsAccepted) (batches : List (List (Cut Exact))) :
    let q := p.afterCuts batches
    q.model.quadratic = p.model.quadratic ∧
    (∀ (linking : List String) (point : Array Exact) (bound : Exact),
      point.size = q.model.vars.size →
      (∀ name ∈ linking, (q.model.variableNamed? name).isSome = true) →
      ∃ c, Candidate.ofPoint q linking point bound = .ok c ∧
        q.model.objectiveValue point = c.planningObjective + q.model.quadraticValue point ∧
        (p.model.quadratic = #[] → q.model.objectiveValue point = c.planningObjective)) ∧
    ((∀ (linking : List String) (point : Array Exact) (bound : Exact) (c : Candidate Exact),
        IsFiniteVector q.model.vars.size point →
        Candidate.ofPoint q linking point bound = .ok c →
        q.model.objectiveValue point = c.planningObjective) ↔
      ∀ t ∈ p.model.quadratic, t.2 = number 0) ∧
    ∀ (σ : Type) (backend : Backend (StateM σ) Exact) (linking : List String)
      (settings : SolverSettings Exact) (w w' : σ) (c : Candidate Exact), backend.IsExact →
      Yields (q.solve backend linking settings) w c w' →
      ∃ point, q.model.Feasible point ∧
        Candidate.ofPoint q linking point c.lowerBound = .ok c ∧
        c.lowerBound = c.planningObjective + q.model.quadraticValue point := by
  obtain ⟨m, fixedCost, theta, hm, hbuilt⟩ := hp.exists_ofModel
  intro q
  have hcharges : q.ChargesProxies := chargesProxies_of_ofModel (ofModel_afterCuts hbuilt batches)
  have hwell : q.model.WellFormed :=
    wellFormed_afterCuts (wellFormed_of_ofModel hm hbuilt) batches
  have hquadratic : q.model.quadratic = p.model.quadratic := by
    obtain ⟨rows, hrows⟩ := p.exists_afterCuts_eq batches
    exact congrArg (·.model.quadratic) hrows
  refine ⟨hquadratic, ?_, ?_, ?_⟩
  · intro linking point bound hsize hlinking
    obtain ⟨c, hc⟩ := exists_ofPoint hlinking hsize
    have hvalue := hcharges.objectiveValue_of_ofPoint hc
    refine ⟨c, hc, hvalue, fun hnone => ?_⟩
    have hzero : q.model.quadraticValue point = number 0 := by
      simp [Model.quadraticValue, hquadratic, hnone]
    rw [hvalue, hzero, Exact.add_number_zero]
  · rw [← hquadratic, ← hcharges.objectiveValue_eq_linearCost_iff hwell]
    constructor
    · intro hagree point hpoint
      obtain ⟨c, hc⟩ : ∃ c, Candidate.ofPoint q [] point (number 0) = .ok c :=
        exists_ofPoint (fun _ hname => absurd hname List.not_mem_nil) hpoint.size
      rw [hagree [] point (number 0) c hpoint hc, planningObjective_of_ofPoint hc]
    · intro hagree linking point bound c hpoint hc
      rw [hagree point hpoint, planningObjective_of_ofPoint hc]
  · intro σ backend linking settings w w' c hb hyields
    obtain ⟨point, hfeasible, hc, hbound⟩ := exists_point_of_solve hb hwell hyields
    exact ⟨point, hfeasible, hc, hbound.trans (hcharges.objectiveValue_of_ofPoint hc)⟩

end PlanningProblem

/-- A variable that is fixed at three, with a charge on its square, and a proxy. -/
def squaredReserve : Model Exact where
  vars := #[.continuous "x" (some (number 3)) (some (number 3)),
    .continuous "theta" (some (number 0)) (some (number 10))]
  constraints := #[⟨"r", ⟨#[(0, number 1), (1, number 1)], number 0⟩, .atLeast, number 1⟩]
  objective := .zero
  quadratic := #[(0, number 1)]
  expressions := .empty

/-- A cut that asks for a proxy of five at three units. -/
def reserveCut : Cut Exact :=
  ⟨"opt_cut[0,all]", .optimality, none, some 1, .ofList [("x", number (-1))], number 8⟩

/-- With the cut the plan costs six and the proxy five, and the lower bound is nine more. -/
theorem squaredReserve_objective_of_candidate :
    ∃ p, PlanningProblem.ofModel squaredReserve ⟨#[(0, number 2)], number 0⟩ #[1] = .ok p ∧
      p.IsAccepted ∧
      ∃ c, Yields ((p.afterCuts [[reserveCut]]).solve
          (ConicSolver.checkedBackend ConicProgram.solveByPivoting) ["x"] .default) () c () ∧
        c.lowerBound = number 20 ∧ c.planningObjective = number 11 ∧
        ∃ point, (p.afterCuts [[reserveCut]]).model.Feasible point ∧
          c.lowerBound =
            c.planningObjective + (p.afterCuts [[reserveCut]]).model.quadraticValue point := by
  let backend : Backend (StateM Unit) Exact :=
    ConicSolver.checkedBackend ConicProgram.solveByPivoting
  obtain ⟨p, hp, hsolves⟩ := exists_ok_of_any
    (x := PlanningProblem.ofModel squaredReserve ⟨#[(0, number 2)], number 0⟩ #[1])
    (P := fun p => ((((p.afterCuts [[reserveCut]]).solve backend ["x"] .default).run.run
      ()).1.toOption.any fun c => c.lowerBound = number 20 ∧ c.planningObjective = number 11) = true)
    (by decide +kernel)
  obtain ⟨c, hc, hbound, hreport⟩ := exists_yields_of_any hsolves
  have hp' : p.IsAccepted := .built (by decide +kernel) hp
  obtain ⟨-, -, -, hsolved⟩ := PlanningProblem.objective_of_candidates hp' [[reserveCut]]
  obtain ⟨point, hfeasible, -, hexcess⟩ :=
    hsolved Unit backend ["x"] .default () () c (checkedBackend_isExact _) hc
  exact ⟨p, hp, hp', c, hc, hbound, hreport, point, hfeasible, hexcess⟩

/-- Without the cut the candidate reports six and comes with the lower bound fifteen, which is the
objective at its point. -/
theorem squaredReserve_bound_exceeds_report :
    ∃ p, PlanningProblem.ofModel squaredReserve ⟨#[(0, number 2)], number 0⟩ #[1] = .ok p ∧
      p.model.objectiveValue #[number 3, number 0] = number 15 ∧
      ∃ c, Yields (p.solve (ConicSolver.checkedBackend ConicProgram.solveByPivoting) ["x"] .default)
          () c () ∧
        Candidate.ofPoint p ["x"] #[number 3, number 0] (number 15) = .ok c ∧
        c.lowerBound = number 15 ∧ c.planningObjective = number 6 := by
  obtain ⟨p, hp, hvalue, hsolves⟩ := exists_ok_of_any
    (x := PlanningProblem.ofModel squaredReserve ⟨#[(0, number 2)], number 0⟩ #[1])
    (P := fun p => p.model.objectiveValue #[number 3, number 0] = number 15 ∧
      (((p.solve (ConicSolver.checkedBackend ConicProgram.solveByPivoting) ["x"] .default).run.run
        ()).1.toOption.any fun c =>
          Candidate.ofPoint p ["x"] #[number 3, number 0] (number 15) = .ok c ∧
          c.lowerBound = number 15 ∧ c.planningObjective = number 6) = true)
    (by decide +kernel)
  obtain ⟨c, hc, hread⟩ := exists_yields_of_any hsolves
  exact ⟨p, hp, hvalue, c, hc, hread⟩

end BendersPlanning

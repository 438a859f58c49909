import BendersPlanning.Conic.Backend
import BendersPlanning.Proofs.SearchSteps
import BendersPlanning.Proofs.StoredPrograms

/-!
# Shapes of solutions

Readers of a solution index into its vectors by its status: an optimum comes with one value for each
variable and one price for each row, anything else with neither (`Solution.HasShape`). All solutions of
the built-in solver have this shape but those of searches that run into their node limit. They keep the
incumbent, point and objective, under a status that promises none (`Model.solve_hasShape_iff`).
-/

namespace BendersPlanning

variable {K : Type} [Scalar K]

section Meaning

/-- The shape that goes with the status: a point and prices with an optimum and only there, and a
certificate of infeasibility only with that status. -/
structure Solution.HasShape (columns prices rows : ℕ) (s : Solution K) : Prop where
  optimal : s.status = .optimal → s.primal.size = columns ∧ s.duals.size = prices
  otherwise : s.status ≠ .optimal →
    s.primal = #[] ∧ s.duals = #[] ∧ s.objective = Scalar.undefined
  certificate : ∀ c ∈ s.certificate,
    s.status = .infeasible ∧ c.ray.size = rows ∧ 0.0 < c.infeasibility

/-- The shape of the solutions of a model. Integer models have no prices. -/
def Model.ShapesSolution (m : Model K) (s : Solution K) : Prop :=
  s.HasShape m.vars.size (if m.hasInteger then 0 else m.constraints.size) m.constraints.size

/-- A minimiser has one entry for each column. -/
def ConicSolver.FillsColumns (conic : ConicSolver K) : Prop :=
  ∀ p settings x z, (conic p settings).1 = .optimal x z → x.size = p.columnCount

/-- The outcome of a box in the search of an integer model. -/
def Model.relaxed (m : Model K) (conic : ConicSolver K) (settings : SolverSettings K)
    (node : SearchNode K) : Solution K :=
  Relaxation.solve conic
    { Relaxation.ofModel m with lower := node.lower, upper := node.upper } settings

end Meaning

theorem Solution.hasShape_without {status : Status} (hstatus : status ≠ .optimal)
    {columns prices rows iterations : ℕ} :
    (Solution.without status iterations : Solution K).HasShape columns prices rows :=
  ⟨fun h => (hstatus h).elim, fun _ => ⟨rfl, rfl, rfl⟩, nofun⟩

namespace Relaxation

theorem size_perConstraint (r : Relaxation K) (read : ConicRow K → K → K) (z : Array K) :
    (r.perConstraint read z).size = r.model.constraints.size := by
  rw [perConstraint, size_foldl, Array.size_replicate]
  rintro out ⟨row, x⟩
  dsimp only
  split <;> simp

theorem hasShape_optimum {r : Relaxation K} {point duals : Array K} (iterations rows : ℕ)
    (hpoint : point.size = r.model.vars.size) (hduals : duals.size = r.model.constraints.size) :
    (r.optimum point duals iterations).HasShape r.model.vars.size r.model.constraints.size rows :=
  ⟨fun _ => ⟨hpoint, hduals⟩, fun h => (h rfl).elim, nofun⟩

theorem hasShape_solveWithoutVariables {r : Relaxation K} (hvars : r.model.vars.isEmpty = true)
    (rows : ℕ) :
    r.solveWithoutVariables.HasShape r.model.vars.size r.model.constraints.size rows := by
  unfold solveWithoutVariables
  dsimp only
  split
  · refine ⟨fun _ => ⟨?_, Array.size_replicate⟩, fun h => (h rfl).elim, nofun⟩
    rw [Array.isEmpty_iff.mp hvars]
    rfl
  · exact Solution.hasShape_without (by simp)

theorem length_of_mapM_eq_some {α β : Type} {f : α → Option β} {xs : List α} {ys : List β}
    (h : xs.mapM f = some ys) : ys.length = xs.length := by
  induction xs generalizing ys with
  | nil =>
    obtain rfl := Option.some.inj h
    rfl
  | cons x xs ih =>
    rw [List.mapM_cons] at h
    obtain ⟨y, -, h⟩ := Option.bind_eq_some_iff.mp h
    obtain ⟨rest, hrest, h⟩ := Option.bind_eq_some_iff.mp h
    obtain rfl := Option.some.inj h
    rw [List.length_cons, List.length_cons, ih hrest]

theorem hasShape_solveWithoutRows (r : Relaxation K) (rows : ℕ) :
    r.solveWithoutRows.HasShape r.model.vars.size r.model.constraints.size rows := by
  unfold solveWithoutRows
  dsimp only
  split
  · rename_i point hpoint
    refine hasShape_optimum _ _ ?_ Array.size_replicate
    rw [List.size_toArray, length_of_mapM_eq_some hpoint, List.length_zip, Array.length_toList,
      Array.length_toList, size_linearCosts, size_squareWeights, Nat.min_self]
  · exact Solution.hasShape_without (by simp)

theorem certificate?_eq_some {r : Relaxation K} {z : Array K} {c : Certificate K}
    (h : r.certificate? z = some c) :
    c.ray.size = r.model.constraints.size ∧ 0.0 < c.infeasibility := by
  unfold certificate? at h
  dsimp only at h
  split_ifs at h with hscale hmargin
  obtain rfl := Option.some.inj h
  rw [Bool.not_eq_true', Bool.not_eq_false, Bool.and_eq_true, decide_eq_true_eq] at hmargin
  exact ⟨size_perConstraint .., hmargin.2⟩

/-- Every relaxation has a solution of the documented shape, whichever way it is solved. -/
theorem hasShape_solve {conic : ConicSolver K} (hconic : conic.FillsColumns) (r : Relaxation K)
    (settings : SolverSettings K) :
    (r.solve conic settings).HasShape r.model.vars.size r.model.constraints.size
      r.model.constraints.size := by
  unfold solve
  split_ifs with hcrossed hvars hrows
  · exact Solution.hasShape_without (by simp)
  · exact hasShape_solveWithoutVariables hvars _
  · exact r.hasShape_solveWithoutRows _
  · have hfills := hconic r.program settings
    split
    · rename_i x z iterations houtcome
      refine hasShape_optimum _ _ ?_ (size_perConstraint ..)
      rw [hfills x z (by rw [houtcome])]
      exact r.size_linearCosts
    · split
      · rename_i c hc
        exact ⟨nofun, fun _ => ⟨rfl, rfl, rfl⟩, fun c' hc' => by
          obtain rfl := Option.some.inj hc'
          exact ⟨rfl, certificate?_eq_some hc⟩⟩
      · exact Solution.hasShape_without (by simp)
    all_goals exact Solution.hasShape_without (by simp)

end Relaxation

section Pivoting

namespace Tableau

variable {t : Tableau K}

theorem size_constants_pivot (t : Tableau K) (k l : ℕ) :
    (t.pivot k l).constants.size = t.constants.size := by
  simp [pivot]

theorem size_constants_exchange (t : Tableau K) (k : ℕ) :
    (t.exchange k).constants.size = t.constants.size :=
  t.size_constants_pivot k k

theorem size_constants_exchangeBoth (t : Tableau K) (k l : ℕ) :
    (t.exchangeBoth k l).constants.size = t.constants.size := by
  simp [exchangeBoth, mark, size_constants_pivot]

theorem size_constants_settle (others : List ℕ) (vanishes : Tableau K → ℕ → Bool) (fuel : ℕ)
    (pending : List ℕ) (t : Tableau K) :
    (t.settle others vanishes fuel pending).1.constants.size = t.constants.size := by
  induction fuel generalizing pending t with
  | zero => rfl
  | succ fuel ih =>
    unfold settle
    split
    · rw [ih, size_constants_exchange]
    · split
      · rfl
      · split
        · rw [ih, size_constants_exchangeBoth]
        · split_ifs
          · rw [ih]
          · rfl

theorem size_constants_crissCross (pairs : List ℕ) (negative : Tableau K → ℕ → Bool) (fuel : ℕ)
    (t : Tableau K) (count : ℕ) :
    (t.crissCross pairs negative fuel count).1.constants.size = t.constants.size := by
  induction fuel generalizing t count with
  | zero => rfl
  | succ fuel ih =>
    unfold crissCross
    split
    · rfl
    · split_ifs
      · rw [ih, size_constants_exchange]
      · split
        · rw [ih, size_constants_exchangeBoth]
        · rfl

end Tableau

namespace ConicProgram

theorem size_constants_pivoted (p : ConicProgram K) :
    p.pivoted.1.constants.size = p.columnCount + p.rowCount := by
  have hstart : p.tableau.constants.size = p.columnCount + p.rowCount := Array.size_append ..
  unfold pivoted
  dsimp only
  split <;>
  · rename_i t hsettled
    have hsize := congrArg (fun r => r.1.constants.size) hsettled
    rw [Tableau.size_constants_settle, hstart] at hsize
    first
      | rw [Tableau.size_constants_crissCross, hsize]
      | exact hsize.symm

/-- Minimisers that pivoting finds have one entry for each column. -/
theorem fillsColumns_solveByPivoting :
    ConicSolver.FillsColumns (ConicProgram.solveByPivoting (K := K)) := by
  intro p settings x z h
  unfold solveByPivoting at h
  split_ifs at h
  dsimp only at h
  have hsize := p.size_constants_pivoted
  split at h
  · rename_i t count hpivoted
    obtain ⟨rfl, -⟩ := ConicOutcome.optimal.inj h
    rw [hpivoted] at hsize
    simp [hsize]
  · cases h
  · split at h <;> cases h

end ConicProgram

end Pivoting

section Searches

/-- The incumbent of a search is a point of the model, with its objective. -/
def SearchState.KeepsPoint (m : Model K) (s : SearchState K) : Prop :=
  ∀ best ∈ s.incumbent, best.point.size = m.vars.size ∧ best.objective = m.objectiveValue best.point

theorem SearchState.StepsTo.keepsPoint {m : Model K} {tolerance : K} {s s' : SearchState K}
    {node : SearchNode K} {rest : List (SearchNode K)} {outcome : Solution K}
    (hstep : StepsTo m tolerance s node rest outcome s')
    (houtcome : outcome.status = .optimal → outcome.primal.size = m.vars.size)
    (h : s.KeepsPoint m) : s'.KeepsPoint m := by
  cases hstep with
  | pruned | branched | emptied | dropped => exact h
  | improved hoptimal =>
    intro best hbest
    obtain rfl := Option.some.inj hbest
    exact ⟨by rw [Model.roundIntegers, Array.size_mapIdx, houtcome hoptimal], rfl⟩

/-- Searches end with a solution of the documented shape, except for want of nodes with an incumbent
at hand. -/
theorem SearchState.hasShape_solution {m : Model K} {s : SearchState K} {reason : SearchEnd}
    (h : s.KeepsPoint m) (hreason : ¬(reason = .nodeLimit ∧ s.incumbent.isSome = true)) (rows : ℕ) :
    (s.solution reason).HasShape m.vars.size 0 rows := by
  unfold solution
  cases reason with
  | unbounded => exact Solution.hasShape_without (by simp)
  | nodeLimit =>
    cases hbest : s.incumbent with
    | none => exact Solution.hasShape_without (by simp)
    | some best => exact (hreason ⟨rfl, by rw [hbest]; rfl⟩).elim
  | exhausted =>
    cases hbest : s.incumbent with
    | none => exact Solution.hasShape_without (by split_ifs <;> simp)
    | some best => exact ⟨fun _ => ⟨(h best hbest).1, rfl⟩, fun hstatus => (hstatus rfl).elim, nofun⟩

theorem SearchState.solution_nodeLimit {m : Model K} {s : SearchState K} (h : s.KeepsPoint m)
    (hsome : s.incumbent.isSome = true) :
    (s.solution .nodeLimit).primal.size = m.vars.size ∧
      (s.solution .nodeLimit).objective = m.objectiveValue (s.solution .nodeLimit).primal ∧
      (s.solution .nodeLimit).duals = #[] ∧ (s.solution .nodeLimit).certificate = none := by
  obtain ⟨best, hbest⟩ := Option.isSome_iff_exists.mp hsome
  unfold solution
  rw [hbest]
  exact ⟨(h best hbest).1, (h best hbest).2, rfl, rfl⟩

namespace Model

variable {m : Model K} {conic : ConicSolver K} {settings : SolverSettings K}

theorem size_primal_relaxed (hconic : conic.FillsColumns) (m : Model K) (settings : SolverSettings K)
    (node : SearchNode K) (hoptimal : (m.relaxed conic settings node).status = .optimal) :
    (m.relaxed conic settings node).primal.size = m.vars.size :=
  ((Relaxation.hasShape_solve hconic
    { Relaxation.ofModel m with lower := node.lower, upper := node.upper } settings).optimal
      hoptimal).1

theorem keepsPoint_searched (hconic : conic.FillsColumns) (m : Model K)
    (settings : SolverSettings K) :
    (m.searched settings (m.relaxed conic settings)).1.KeepsPoint m :=
  (m.explores_searched settings (m.relaxed conic settings)).preserves
    (fun _ _ _ _ _ _ hstep => hstep.keepsPoint (m.size_primal_relaxed hconic settings _)) nofun

theorem solve_eq (conic : ConicSolver K) (m : Model K) (settings : SolverSettings K) :
    m.solve conic settings =
      if m.hasInteger then m.branchAndBound settings (m.relaxed conic settings)
      else Relaxation.solve conic (.ofModel m) settings := rfl

variable (m conic settings) in
/-- Whether a search has used up its nodes after finding a whole minimiser. -/
def KeepsIncumbent : Prop :=
  m.hasInteger = true ∧ (m.solve conic settings).status = .iterationLimit ∧
    ∃ node ∈ m.solvedNodes settings (m.relaxed conic settings),
      m.isWhole settings.integralityTol (m.relaxed conic settings node) = true

theorem keepsIncumbent_iff (hinteger : m.hasInteger = true) :
    m.KeepsIncumbent conic settings ↔
      (m.searched settings (m.relaxed conic settings)).2 = .nodeLimit ∧
        (m.searched settings (m.relaxed conic settings)).1.incumbent.isSome = true := by
  have hfound := (m.explores_searched settings (m.relaxed conic settings)).incumbent_isSome_iff
  rw [KeepsIncumbent, solve_eq, if_pos hinteger, branchAndBound_eq,
    (SearchState.status_solution _ _).1, hfound]
  simp [hinteger, searchStart, solvedNodes]

/-- Solutions have the documented shape unless a search keeps its incumbent at the node limit. It then
reports the point and its objective although its status is no optimum. -/
theorem solve_hasShape_iff (hconic : conic.FillsColumns) (m : Model K) (settings : SolverSettings K) :
    (m.ShapesSolution (m.solve conic settings) ↔ ¬m.KeepsIncumbent conic settings) ∧
    (m.KeepsIncumbent conic settings →
      (m.solve conic settings).primal.size = m.vars.size ∧
        (m.solve conic settings).objective = m.objectiveValue (m.solve conic settings).primal ∧
        (m.solve conic settings).duals = #[] ∧ (m.solve conic settings).certificate = none) := by
  have hkept : m.KeepsIncumbent conic settings →
      (m.solve conic settings).primal.size = m.vars.size ∧
        (m.solve conic settings).objective = m.objectiveValue (m.solve conic settings).primal ∧
        (m.solve conic settings).duals = #[] ∧ (m.solve conic settings).certificate = none := by
    intro hkeeps
    obtain ⟨hreason, hsome⟩ := (keepsIncumbent_iff hkeeps.1).mp hkeeps
    rw [solve_eq, if_pos hkeeps.1, branchAndBound_eq, hreason]
    exact SearchState.solution_nodeLimit (m.keepsPoint_searched hconic settings) hsome
  refine ⟨⟨fun hshape hkeeps => ?_, fun hends => ?_⟩, hkept⟩
  · -- A model with an integer variable has no empty point.
    have hempty := (hshape.otherwise (by rw [hkeeps.2.1]; simp)).1
    have hsize := (hkept hkeeps).1
    have hinteger := hkeeps.1
    rw [hempty, Array.size_empty, eq_comm, Array.size_eq_zero_iff] at hsize
    simp [hasInteger, hsize] at hinteger
  · rw [ShapesSolution, solve_eq]
    by_cases hinteger : m.hasInteger = true
    · rw [if_pos hinteger, if_pos hinteger, branchAndBound_eq]
      exact SearchState.hasShape_solution (m.keepsPoint_searched hconic settings)
        (hends ∘ (keepsIncumbent_iff hinteger).mpr) _
    · rw [if_neg hinteger, if_neg hinteger]
      exact Relaxation.hasShape_solve hconic (.ofModel m) settings

end Model

end Searches

section Crates

open Exact (number)

/-- The fewest crates of ten that hold seventeen pieces. -/
def crates : Model Exact where
  vars := #[⟨"crates", some (number 0), some (number 10), true⟩]
  constraints := #[⟨"hold", ⟨#[(0, number 10)], number 0⟩, .atLeast, number 17⟩]
  objective := ⟨#[(0, number 1)], number 0⟩
  quadratic := #[]
  expressions := .empty

/-- With two nodes the search has found the two crates but not ruled out one. -/
theorem crates_unshaped_at_nodeLimit :
    let s := crates.solve ConicProgram.solveByPivoting { SolverSettings.default with maxNodes := 2 }
    crates.WellFormed ∧ s.status = .iterationLimit ∧ s.primal = #[number 2] ∧
      s.objective = number 2 ∧ ¬crates.ShapesSolution s := by
  refine ⟨by decide +kernel, by decide +kernel, by decide +kernel, by decide +kernel, fun hshape => ?_⟩
  have hempty := (hshape.otherwise (by decide +kernel)).1
  revert hempty
  decide +kernel

/-- With enough nodes the solution is an optimum and has its shape, and with two it has a point. -/
theorem crates_shaped_with_enough_nodes :
    crates.ShapesSolution (crates.solve ConicProgram.solveByPivoting .default) ∧
      (crates.solve ConicProgram.solveByPivoting
        { SolverSettings.default with maxNodes := 2 }).primal.size = 1 := by
  refine ⟨(Model.solve_hasShape_iff ConicProgram.fillsColumns_solveByPivoting crates
    .default).1.mpr fun hkeeps => ?_, ?_⟩
  · have hstatus := hkeeps.2.1
    revert hstatus
    decide +kernel
  · refine ((Model.solve_hasShape_iff ConicProgram.fillsColumns_solveByPivoting crates
      { SolverSettings.default with maxNodes := 2 }).2 ⟨?_, ?_, ?_⟩).1 <;> decide +kernel

end Crates

end BendersPlanning

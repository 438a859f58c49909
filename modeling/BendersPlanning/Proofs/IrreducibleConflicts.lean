import BendersPlanning.Conic.Backend
import BendersPlanning.Proofs.CheckedRelaxations
import BendersPlanning.Proofs.EditedModels

/-!
# Irreducible conflicts

Deletion keeps a row only where the rows that were left at that time had a common point without it.
Rows that are deleted later take nothing from such a point, so at the end each row that is left is
needed. That all of them have no common point is known from the last answer of the solver, even where
it misses some infeasible choices of rows.
-/

namespace BendersPlanning

variable {K : Type} [Scalar K]

open Scalar (entry)

/-- Whether all rows of one mask are rows of another. -/
def IsSubmask (small large : Array Bool) : Prop :=
  ∀ i : ℕ, small[i]? = some true → large[i]? = some true

/-- A mask after the first `k` rows were tried: it is infeasible, and none of these rows that is left
can go, for the answer about some mask with all the others was that it is not infeasible. -/
structure IsReduced (infeasible : Array Bool → Bool) (count k : ℕ) (active : Array Bool) :
    Prop where
  size : active.size = count
  refuted : infeasible active = true
  needed : ∀ i < k, active[i]? = some true → ∃ large : Array Bool, large.size = count ∧
    infeasible large = false ∧ IsSubmask (active.setIfInBounds i false) large

namespace Model

/-- The feasibility problem over some of the rows. -/
def feasibilityOver (m : Model K) (active : Array Bool) : Relaxation K :=
  { Relaxation.ofModel m with active := active, feasibilityOnly := true }

/-- Whether a finite point is within the bounds of a model and meets the rows with these names. -/
structure MeetsRows (m : Model K) (names : List String) (point : Array K) : Prop extends
    IsFiniteVector m.vars.size point where
  bounds : ∀ j (v : Variable K), m.vars[j]? = some v →
    v.lowerBound ≤ entry point j ∧ entry point j ≤ v.upperBound
  rows : ∀ c ∈ m.constraints, c.name ∈ names → c.Holds point

/-- The names of the rows of a mask, in model order. -/
def activeNames (m : Model K) (active : Array Bool) : List String :=
  ((m.constraints.toList.zip active.toList).filter (·.2)).map (·.1.name)

end Model

section Deletion
variable {infeasible : Array Bool → Bool} {count k : ℕ} {active small large : Array Bool}

theorem IsSubmask.refl (active : Array Bool) : IsSubmask active active := fun _ h => h

theorem IsSubmask.trans {larger : Array Bool} (h : IsSubmask small large)
    (h' : IsSubmask large larger) : IsSubmask small larger := fun i hi => h' i (h i hi)

theorem getElem?_setIfInBounds_eq_true {i j : ℕ} :
    (active.setIfInBounds j false)[i]? = some true ↔ i ≠ j ∧ active[i]? = some true := by
  rw [Array.getElem?_setIfInBounds]
  grind

/-- A row that goes from the smaller mask may stay in the larger one. -/
theorem IsSubmask.setIfInBounds (h : IsSubmask small large) (i : ℕ) :
    IsSubmask (small.setIfInBounds i false) (large.setIfInBounds i false) := by
  intro j hj
  rw [getElem?_setIfInBounds_eq_true] at hj ⊢
  exact ⟨hj.1, h j hj.2⟩

theorem isSubmask_setIfInBounds (active : Array Bool) (i : ℕ) :
    IsSubmask (active.setIfInBounds i false) active :=
  fun _ h => (getElem?_setIfInBounds_eq_true.mp h).2

theorem isReduced_zero (hsize : active.size = count) (h : infeasible active = true) :
    IsReduced infeasible count 0 active :=
  ⟨hsize, h, nofun⟩

/-- Trying one more row: it goes, and what was needed before is needed all the more, or it stays, for
the others are not infeasible. -/
theorem IsReduced.deleteIfRedundant (h : IsReduced infeasible count k active) :
    IsReduced infeasible count (k + 1) (deleteIfRedundant infeasible active k) := by
  unfold BendersPlanning.deleteIfRedundant
  by_cases hwithout : infeasible (active.setIfInBounds k false) = true
  · simp only [hwithout, if_true]
    refine ⟨by simpa using h.size, hwithout, fun i hi hactive => ?_⟩
    obtain ⟨hne, hbefore⟩ := getElem?_setIfInBounds_eq_true.mp hactive
    obtain ⟨large, hsize, hfeasible, hsub⟩ := h.needed i (by omega) hbefore
    exact ⟨large, hsize, hfeasible, ((isSubmask_setIfInBounds active k).setIfInBounds i).trans hsub⟩
  · rw [if_neg hwithout]
    refine ⟨h.size, h.refuted, fun i hi hactive => ?_⟩
    by_cases hlast : i = k
    · subst hlast
      exact ⟨_, by simpa using h.size, by simpa using hwithout, .refl _⟩
    · exact h.needed i (by omega) hactive

theorem IsReduced.foldl (hsize : active.size = count) (h : infeasible active = true) (k : ℕ) :
    IsReduced infeasible count k
      ((List.range k).foldl (BendersPlanning.deleteIfRedundant infeasible) active) := by
  induction k with
  | zero => exact isReduced_zero hsize h
  | succ k ih =>
    rw [List.range_succ, List.foldl_append]
    exact ih.deleteIfRedundant

end Deletion

namespace Model

variable {m : Model K} {active : Array Bool} {point : Array K}

omit [Scalar K] in
/-- What deletion returns: nothing where not even all rows are infeasible, else the names of a mask of
which every row was tried. -/
theorem conflictSet?_cases (m : Model K) (infeasible : Array Bool → Bool) :
    infeasible (Array.replicate m.constraints.size true) = false ∧
        m.conflictSet? infeasible = none ∨
      infeasible (Array.replicate m.constraints.size true) = true ∧
        ∃ active, IsReduced infeasible m.constraints.size m.constraints.size active ∧
          m.conflictSet? infeasible = some (m.activeNames active) := by
  unfold conflictSet?
  cases hall : infeasible (Array.replicate m.constraints.size true) with
  | false => exact .inl ⟨rfl, by simp [hall]⟩
  | true => exact .inr ⟨rfl, _, .foldl (by simp) hall _, by simp only [hall, if_true]; rfl⟩

omit [Scalar K] in
theorem activeNames_sublist (hsize : active.size = m.constraints.size) :
    (m.activeNames active).Sublist (m.constraints.toList.map (·.name)) := by
  have hfst : (m.constraints.toList.zip active.toList).map (·.1) = m.constraints.toList :=
    List.map_fst_zip (by simp [hsize])
  have hfilter := (List.filter_sublist (p := (·.2))
    (l := m.constraints.toList.zip active.toList)).map (·.1.name)
  rwa [← hfst, List.map_map]

omit [Scalar K] in
theorem mem_activeNames {name : String} : name ∈ m.activeNames active ↔
    ∃ (i : ℕ) (c : Constraint K), m.constraints[i]? = some c ∧ active[i]? = some true ∧
      c.name = name := by
  constructor
  · intro h
    obtain ⟨⟨c, left⟩, hrow, rfl⟩ := List.mem_map.mp h
    obtain ⟨hrow, rfl⟩ := List.mem_filter.mp hrow
    obtain ⟨i, hi⟩ := List.mem_iff_getElem?.mp hrow
    rw [List.getElem?_zip_eq_some, Array.getElem?_toList, Array.getElem?_toList] at hi
    exact ⟨i, c, hi.1, hi.2, rfl⟩
  · rintro ⟨i, c, hc, hactive, rfl⟩
    refine List.mem_map.mpr ⟨(c, true), List.mem_filter.mpr ⟨?_, rfl⟩, rfl⟩
    apply List.mem_of_getElem? (i := i)
    rw [List.getElem?_zip_eq_some, Array.getElem?_toList, Array.getElem?_toList]
    exact ⟨hc, hactive⟩

/-- Names are distinct, so a row is left exactly when its name is. -/
theorem WellFormed.name_mem_activeNames (hm : m.WellFormed) {i : ℕ} {c : Constraint K}
    (hc : m.constraints[i]? = some c) : c.name ∈ m.activeNames active ↔ active[i]? = some true := by
  rw [mem_activeNames]
  constructor
  · rintro ⟨j, d, hd, hactive, hname⟩
    have hi : m.constraintNamed? c.name = some i := by simp [hm.constraintNamed?_eq_some_iff, hc]
    have hj : m.constraintNamed? c.name = some j := by
      simp [hm.constraintNamed?_eq_some_iff, hd, hname]
    obtain rfl : i = j := Option.some.inj (hi.symm.trans hj)
    exact hactive
  · exact fun hactive => ⟨i, c, hc, hactive, rfl⟩

/-- A mask asks of a point what the names of its rows ask. -/
theorem WellFormed.feasibilityOver_iff (hm : m.WellFormed) :
    (m.feasibilityOver active).Feasible point ↔ m.MeetsRows (m.activeNames active) point := by
  have hlower : ∀ j, entry (m.feasibilityOver active).lower j =
      (m.vars[j]?.map (·.lowerBound)).getD Scalar.undefined := by
    simp [feasibilityOver, Relaxation.ofModel, entry]
  have hupper : ∀ j, entry (m.feasibilityOver active).upper j =
      (m.vars[j]?.map (·.upperBound)).getD Scalar.undefined := by
    simp [feasibilityOver, Relaxation.ofModel, entry]
  constructor
  · intro h
    refine ⟨h.toIsFiniteVector, fun j v hv => ?_, fun c hc hname => ?_⟩
    · have hj : j < m.vars.size := (Array.getElem?_eq_some_iff.mp hv).choose
      have hbox := h.box j hj
      rwa [hlower, hupper, hv] at hbox
    · obtain ⟨i, hi⟩ := Array.mem_iff_getElem?.mp hc
      have hactive : active[i]? = some true := (hm.name_mem_activeNames hi).mp hname
      exact h.rows i c hi (by simp [feasibilityOver, hactive])
  · intro h
    refine ⟨h.toIsFiniteVector, fun j hj => ?_, fun i c hc hactive => ?_⟩
    · change j < m.vars.size at hj
      rw [hlower, hupper, Array.getElem?_eq_getElem hj]
      exact h.bounds j _ (Array.getElem?_eq_getElem hj)
    · have hsome : active[i]? = some true := by
        cases hleft : active[i]? with
        | none => simp [feasibilityOver, hleft] at hactive
        | some left => simpa [feasibilityOver, hleft] using hactive
      exact h.rows c (Array.mem_of_getElem? hc) ((hm.name_mem_activeNames hc).mpr hsome)

theorem feasibilityOver_all_iff :
    (m.feasibilityOver (Array.replicate m.constraints.size true)).Feasible point ↔
      (Relaxation.ofModel m).Feasible point :=
  ⟨fun h => ⟨h.toIsFiniteVector, h.box, h.rows⟩, fun h => ⟨h.toIsFiniteVector, h.box, h.rows⟩⟩

/-- A point of more rows meets fewer of them. -/
theorem MeetsRows.mono {names fewer : List String} (h : m.MeetsRows names point)
    (hsub : fewer ⊆ names) : m.MeetsRows fewer point :=
  ⟨h.toIsFiniteVector, h.bounds, fun c hc hname => h.rows c hc (hsub hname)⟩

/-- Among the rows that are left after a deletion each is needed, where the solver finds every
infeasible choice of rows. -/
theorem WellFormed.exists_meetsRows_erase (hm : m.WellFormed) {infeasible : Array Bool → Bool}
    (hreduced : IsReduced infeasible m.constraints.size m.constraints.size active)
    (hcomplete : ∀ active : Array Bool, active.size = m.constraints.size →
      (∀ point, ¬(m.feasibilityOver active).Feasible point) → infeasible active = true)
    {name : String} (hname : name ∈ m.activeNames active) :
    ∃ point, m.MeetsRows ((m.activeNames active).erase name) point := by
  obtain ⟨i, c, hc, hactive, rfl⟩ := mem_activeNames.mp hname
  have hi : i < m.constraints.size := (Array.getElem?_eq_some_iff.mp hc).choose
  obtain ⟨large, hsize, hfeasible, hsub⟩ := hreduced.needed i hi hactive
  obtain ⟨point, hpoint⟩ : ∃ point, (m.feasibilityOver large).Feasible point := by
    by_contra hnone
    rw [hcomplete large hsize (not_exists.mp hnone)] at hfeasible
    cases hfeasible
  refine ⟨point, (hm.feasibilityOver_iff.mp hpoint).mono fun other hother => ?_⟩
  have hnodup : (m.activeNames active).Nodup :=
    hm.constraintNames.sublist (activeNames_sublist hreduced.size)
  obtain ⟨hne, hother⟩ := hnodup.mem_erase_iff.mp hother
  obtain ⟨j, d, hd, hleft, rfl⟩ := mem_activeNames.mp hother
  refine mem_activeNames.mpr ⟨j, d, hd, hsub j ?_, rfl⟩
  rw [getElem?_setIfInBounds_eq_true]
  refine ⟨?_, hleft⟩
  rintro rfl
  exact hne (congrArg (·.name) (Option.some.inj (hd.symm.trans hc)))

/-- The rows that deletion returns are in model order and have no point within the bounds in common,
whatever infeasible choices of rows the solver misses. Where it misses none, rows are returned exactly
for an infeasible relaxation, and dropping any one of them leaves rows with a common point. -/
theorem conflicts_are_irreducible (hm : m.WellFormed) (conic : ConicSolver K)
    (settings : SolverSettings K)
    (hsound : ∀ active : Array Bool, active.size = m.constraints.size →
      ((m.feasibilityOver active).solve conic settings).status = .infeasible →
      ∀ point, ¬(m.feasibilityOver active).Feasible point) :
    (∀ names, m.conflicts conic settings = some names →
      names.Sublist (m.constraints.toList.map (·.name)) ∧ ∀ point, ¬m.MeetsRows names point) ∧
    ((∀ active : Array Bool, active.size = m.constraints.size →
        (∀ point, ¬(m.feasibilityOver active).Feasible point) →
        ((m.feasibilityOver active).solve conic settings).status = .infeasible) →
      (m.conflicts conic settings = none ↔ ∃ point, (Relaxation.ofModel m).Feasible point) ∧
      ∀ names, m.conflicts conic settings = some names →
        ∀ name ∈ names, ∃ point, m.MeetsRows (names.erase name) point) := by
  rcases m.conflictSet?_cases fun active =>
      ((m.feasibilityOver active).solve conic settings).status = .infeasible with
    ⟨hall, hnone⟩ | ⟨hall, active, hreduced, hsome⟩
  · have hnone : m.conflicts conic settings = none := hnone
    refine ⟨fun names h => ?_, fun hcomplete => ⟨iff_of_true hnone ?_, fun names h => ?_⟩⟩
    · cases hnone.symm.trans h
    · by_contra hempty
      have hrefuted := hcomplete _ Array.size_replicate fun point hpoint =>
        hempty ⟨point, feasibilityOver_all_iff.mp hpoint⟩
      exact of_decide_eq_false hall hrefuted
    · cases hnone.symm.trans h
  · have hsome : m.conflicts conic settings = some (m.activeNames active) := hsome
    refine ⟨fun names h => ?_, fun hcomplete => ⟨iff_of_false ?_ ?_, fun names h name hname => ?_⟩⟩
    · obtain rfl := Option.some.inj (hsome.symm.trans h)
      refine ⟨activeNames_sublist hreduced.size, fun point hpoint => ?_⟩
      exact hsound active hreduced.size (of_decide_eq_true hreduced.refuted) point
        (hm.feasibilityOver_iff.mpr hpoint)
    · rw [hsome]
      exact Option.some_ne_none _
    · rintro ⟨point, hpoint⟩
      exact hsound _ Array.size_replicate (of_decide_eq_true hall) point
        (feasibilityOver_all_iff.mpr hpoint)
    · obtain rfl := Option.some.inj (hsome.symm.trans h)
      exact hm.exists_meetsRows_erase hreduced
        (fun active hsize hempty => decide_eq_true (hcomplete active hsize hempty)) hname

end Model

open Exact (number)

/-- An answer that proves itself says whether a relaxation is infeasible, with or without an
objective. -/
theorem Relaxation.status_infeasible_iff {r : Relaxation Exact} {conic : ConicSolver Exact}
    {settings : SolverSettings Exact} (hr : r.WellFormed) (hvars : r.model.vars.isEmpty = false)
    (hrows : r.rows.isEmpty = false) (hproved : r.IsProvedBy (conic r.program settings).1) :
    (r.solve conic settings).status = .infeasible ↔ ∀ point, ¬r.Feasible point := by
  cases hanswer : conic r.program settings with
  | mk outcome iterations =>
    rw [hanswer] at hproved
    cases outcome with
    | optimal x z =>
      rw [solve_of_optimal hr hanswer hvars hrows]
      exact iff_of_false nofun fun hempty => hempty x hproved.1
    | infeasible z =>
      obtain ⟨hcertificate, hrefuted⟩ := isRefutedBy_of_isRay hr hproved
      refine iff_of_true ?_ fun point => hrefuted.not_feasible hr
      simp [solve, isCrossed_eq_false hr, hvars, hrows, hanswer, hcertificate, Solution.without]
    | unbounded | limit | failed => exact hproved.elim

/-- Two limits that cross on one variable and a third one that has nothing to do with them. -/
def crossedLimits : Model Exact where
  vars := #[.continuous "x" (some (number 0)) none, .continuous "y" (some (number 0)) none]
  constraints := #[
    ⟨"y_cap", ⟨#[(1, number 1)], number 0⟩, .atMost, number 4⟩,
    ⟨"x_min", ⟨#[(0, number 1)], number 0⟩, .atLeast, number 3⟩,
    ⟨"x_max", ⟨#[(0, number 1)], number 0⟩, .atMost, number 1⟩]
  objective := ⟨#[], number 0⟩
  quadratic := #[]
  expressions := .empty

/-- The pivoting solver proves all its answers about the crossed limits, so the two that cross are
found and each of them is needed. -/
theorem crossedLimits_conflict :
    (∀ active : Array Bool, active.size = crossedLimits.constraints.size →
      (((crossedLimits.feasibilityOver active).solve ConicProgram.solveByPivoting .default).status =
          .infeasible ↔ ∀ point, ¬(crossedLimits.feasibilityOver active).Feasible point)) ∧
      crossedLimits.conflicts ConicProgram.solveByPivoting .default = some ["x_min", "x_max"] ∧
      (∀ point, ¬crossedLimits.MeetsRows ["x_min", "x_max"] point) ∧
      (∃ point, crossedLimits.MeetsRows ["x_max"] point) ∧
      ∃ point, crossedLimits.MeetsRows ["x_min"] point := by
  have hanswers : ∀ a b c, (crossedLimits.feasibilityOver #[a, b, c]).WellFormed ∧
      (crossedLimits.feasibilityOver #[a, b, c]).rows.isEmpty = false ∧
      (crossedLimits.feasibilityOver #[a, b, c]).IsProvedBy
        (ConicProgram.solveByPivoting (crossedLimits.feasibilityOver #[a, b, c]).program
          .default).1 := by
    decide +kernel
  have hexact (active : Array Bool) (hsize : active.size = crossedLimits.constraints.size) :
      ((crossedLimits.feasibilityOver active).solve ConicProgram.solveByPivoting .default).status =
        .infeasible ↔ ∀ point, ¬(crossedLimits.feasibilityOver active).Feasible point := by
    obtain ⟨a, b, c, hlist⟩ := List.length_eq_three.mp (active.length_toList.trans hsize)
    obtain rfl : active = #[a, b, c] := Array.toList_inj.mp hlist
    obtain ⟨hr, hrows, hproved⟩ := hanswers a b c
    exact Relaxation.status_infeasible_iff hr rfl hrows hproved
  have hconflicts : crossedLimits.conflicts ConicProgram.solveByPivoting .default =
      some ["x_min", "x_max"] := by decide +kernel
  obtain ⟨hrefuted, hneeded⟩ := Model.conflicts_are_irreducible (m := crossedLimits)
    (by decide +kernel) _ _ fun active hsize => (hexact active hsize).mp
  obtain ⟨-, hneeded⟩ := hneeded fun active hsize => (hexact active hsize).mpr
  exact ⟨hexact, hconflicts, (hrefuted _ hconflicts).2,
    hneeded _ hconflicts "x_min" (by decide), hneeded _ hconflicts "x_max" (by decide)⟩

end BendersPlanning

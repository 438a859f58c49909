import BendersPlanning.Run.Configuration
import BendersPlanning.Run.Problem
import Mathlib.Data.List.Perm.Subperm
import Mathlib.Order.Lattice
import Mathlib.Tactic.SplitIfs

/-!
# What validation accepts

A configuration is accepted exactly when its values are in range, and a decomposed problem exactly
when it meets the contract between the planning problem and its subproblems. The contract speaks of
proxies, linking names, indices and penalties; it says nothing of the rows of a model or of names
that do not link.
-/

namespace BendersPlanning

variable {K : Type} [Scalar K]

open Scalar (isFinite isUndefined)

structure Configuration.IsInRange (c : Configuration K) : Prop where
  iterations : 0 < c.maxIter
  time : isUndefined c.maxCpuTime = false ∧ ¬c.maxCpuTime ≤ 0.0
  tolerance : isFinite c.convTol = true ∧ 0.0 < c.convTol
  level : 0.0 ≤ c.stabParam ∧ c.stabParam ≤ 1.0
  solver : 0 < c.solver.maxIter ∧ 0 < c.solver.maxNodes

theorem Configuration.fault?_eq_none_iff {c : Configuration K} :
    c.fault? = none ↔ c.validate = .ok () := by
  unfold validate
  cases c.fault? <;> simp

theorem Configuration.validate_eq_ok {c : Configuration K} :
    c.validate = .ok () ↔ c.IsInRange := by
  rw [← fault?_eq_none_iff, fault?]
  constructor
  · intro h
    split_ifs at h with hcount htime htolerance hlevel hsolver
    simp only [Bool.or_eq_true, Bool.not_eq_true', Bool.and_eq_false_iff, decide_eq_true_eq,
      decide_eq_false_iff_not, not_or, Bool.not_eq_true, Bool.not_eq_false, not_not]
      at htime htolerance hlevel hsolver
    exact ⟨Nat.pos_of_ne_zero hcount, htime, htolerance, hlevel, Nat.pos_of_ne_zero hsolver.1,
      Nat.pos_of_ne_zero hsolver.2⟩
  · intro h
    simp [h.iterations.ne', h.time, h.tolerance, h.level, h.solver.1.ne', h.solver.2.ne']

/-- The contract between a planning problem and its subproblems. -/
structure DecomposedProblem.MeetsContract (p : DecomposedProblem K) : Prop where
  bounded : ∀ t ∈ p.planning.theta,
    ∃ v, p.planning.model.vars[t]? = some v ∧ isFinite v.lowerBound = true
  nonempty : p.planning.theta.size ≠ 0 ∧ p.subproblems.length ≠ 0
  /-- One proxy for all subproblems, or one for each. -/
  proxies : p.planning.theta.size = 1 ∨ p.planning.theta.size = p.subproblems.length
  distinct : p.linking.Nodup
  planned : ∀ name ∈ p.linking, (p.planning.model.variableNamed? name).isSome = true
  indices : (p.subproblems.map (·.index)).Perm (List.range p.subproblems.length)
  linked : ∀ s ∈ p.subproblems, ∀ name ∈ s.linking,
    name ∈ p.linking ∧ (s.model.variableNamed? name).isSome = true
  penalties : ∀ s ∈ p.subproblems, ∀ penalty ∈ s.slackPenalty,
    isFinite penalty = true ∧ 0.0 < penalty

theorem Model.proxyFault?_eq_none_iff {m : Model K} {theta : Array ℕ} :
    m.proxyFault? theta = none ↔ theta.size ≠ 0 ∧
      ∀ t ∈ theta, ∃ v, m.vars[t]? = some v ∧ isFinite v.lowerBound = true := by
  unfold proxyFault?
  split_ifs with hempty
  · simp [Array.isEmpty_iff.mp hempty]
  · rw [Array.findSome?_eq_none_iff, and_iff_right (by simpa using hempty)]
    refine forall₂_congr fun t _ => ?_
    cases m.vars[t]? <;> simp

theorem Subproblem.fault?_eq_none_iff {s : Subproblem K} {linking : List String} :
    s.fault? linking = none ↔
      (∀ name ∈ s.linking, name ∈ linking ∧ (s.model.variableNamed? name).isSome = true) ∧
        ∀ penalty ∈ s.slackPenalty, isFinite penalty = true ∧ 0.0 < penalty := by
  simp only [fault?, Option.or_eq_none_iff, List.findSome?_eq_none_iff, Option.bind_eq_none_iff]
  refine and_congr (forall₂_congr fun name _ => ?_) (forall₂_congr fun penalty _ => ?_)
  · by_cases hname : name ∈ linking <;> cases s.model.variableNamed? name <;> simp [hname]
  · by_cases hfinite : isFinite penalty = true <;> simp [hfinite]

namespace DecomposedProblem

omit [Scalar K] in
theorem linkFault?_eq_none_iff {m : Model K} {seen linking : List String} :
    linkFault? m seen linking = none ↔
      (linking.Nodup ∧ ∀ name ∈ linking, name ∉ seen) ∧
        ∀ name ∈ linking, (m.variableNamed? name).isSome = true := by
  induction linking generalizing seen with
  | nil => simp [linkFault?]
  | cons name linking ih =>
    rw [linkFault?]
    by_cases hseen : name ∈ seen
    · simp [hseen]
    · cases hv : m.variableNamed? name with
      | none => simp [hseen, hv]
      | some v => grind

section Indices

theorem length_eraseDups_le (xs : List ℕ) : xs.eraseDups.length ≤ xs.length := by
  induction h : xs.length using Nat.strong_induction_on generalizing xs with
  | _ n ih =>
    cases xs with
    | nil => simp
    | cons x xs =>
      have hfilter := List.length_filter_le (fun b => !b == x) xs
      have hrest := ih (xs.filter fun b => !b == x).length (by simp at h; omega) _ rfl
      rw [List.eraseDups_cons, List.length_cons]
      simp at h
      omega

theorem length_eraseDups_eq_iff {xs : List ℕ} : xs.eraseDups.length = xs.length ↔ xs.Nodup := by
  induction xs with
  | nil => simp
  | cons x xs ih =>
    rw [List.eraseDups_cons, List.length_cons, List.length_cons, Nat.add_right_cancel_iff,
      List.nodup_cons]
    have hfilter := List.length_filter_le (fun b => !b == x) xs
    have hrest := length_eraseDups_le (xs.filter fun b => !b == x)
    constructor
    · intro h
      have hkept : (xs.filter fun b => !b == x).length = xs.length := by omega
      have hall := List.length_filter_eq_length_iff.mp hkept
      rw [List.filter_eq_self.mpr hall] at h
      exact ⟨fun hx => by simpa using hall x hx, ih.mp h⟩
    · rintro ⟨hfresh, hnodup⟩
      rw [List.filter_eq_self.mpr (by grind)]
      exact ih.mpr hnodup

theorem le_foldl_max (xs : List ℕ) (start : ℕ) :
    start ≤ xs.foldl max start ∧ ∀ x ∈ xs, x ≤ xs.foldl max start := by
  induction xs generalizing start with
  | nil => exact ⟨le_rfl, nofun⟩
  | cons first xs ih =>
    obtain ⟨hstart, hrest⟩ := ih (max start first)
    rw [List.foldl_cons]
    refine ⟨(le_max_left _ _).trans hstart, fun x hx => ?_⟩
    rcases List.mem_cons.mp hx with rfl | hx
    · exact (le_max_right _ _).trans hstart
    · exact hrest x hx

theorem foldl_max_range (n : ℕ) : (List.range n).foldl max 0 = n - 1 := by
  induction n with
  | zero => rfl
  | succ n ih =>
    rw [List.range_succ, List.foldl_append, ih]
    simp

/-- Indices that cover the numbers below their count are these numbers in some order. -/
theorem coversIndices_iff {indices : List ℕ} {n : ℕ} (hlength : indices.length = n) (hn : n ≠ 0) :
    coversIndices indices n = true ↔ indices.Perm (List.range n) := by
  simp only [coversIndices, Bool.and_eq_true, beq_iff_eq]
  rw [← hlength, length_eraseDups_eq_iff, hlength]
  constructor
  · rintro ⟨hnodup, hgreatest⟩
    have hsubset : indices ⊆ List.range n := by
      intro x hx
      have := (le_foldl_max indices 0).2 x hx
      rw [List.mem_range]
      omega
    exact (hnodup.subperm hsubset).perm_of_length_le (by simp [hlength])
  · intro hperm
    refine ⟨hperm.nodup_iff.mpr List.nodup_range, ?_⟩
    rw [hperm.foldl_eq, foldl_max_range]

end Indices

theorem fault?_eq_none_iff {p : DecomposedProblem K} : p.fault? = none ↔ p.validate = .ok () := by
  unfold validate
  cases p.fault? <;> simp

/-- Validation accepts exactly the problems that meet the contract. -/
theorem validate_eq_ok {p : DecomposedProblem K} : p.validate = .ok () ↔ p.MeetsContract := by
  rw [← fault?_eq_none_iff, fault?, Option.or_eq_none_iff, Model.proxyFault?_eq_none_iff]
  constructor
  · rintro ⟨⟨hproxies, hbounded⟩, h⟩
    split_ifs at h with hsome hcount hcovers
    · cases (Option.or_eq_none_iff.mp h).2
    obtain ⟨hlinking, hsubproblems⟩ := Option.or_eq_none_iff.mp h
    obtain ⟨⟨hdistinct, -⟩, hplanned⟩ := linkFault?_eq_none_iff.mp hlinking
    have hsubproblem : ∀ s ∈ p.subproblems, _ := fun s hs =>
      Subproblem.fault?_eq_none_iff.mp (List.findSome?_eq_none_iff.mp hsubproblems s hs)
    refine ⟨hbounded, ⟨hproxies, hsome⟩, ?_, hdistinct, hplanned, ?_,
      fun s hs => (hsubproblem s hs).1, fun s hs => (hsubproblem s hs).2⟩
    · omega
    · exact (coversIndices_iff (List.length_map _) hsome).mp (by simpa using hcovers)
  · intro h
    have hcovers := (coversIndices_iff (List.length_map _) h.nonempty.2).mpr h.indices
    refine ⟨⟨h.nonempty.1, h.bounded⟩, ?_⟩
    rw [if_neg h.nonempty.2, if_neg (by have := h.proxies; omega), hcovers]
    refine Option.or_eq_none_iff.mpr ⟨?_, List.findSome?_eq_none_iff.mpr fun s hs => ?_⟩
    · exact linkFault?_eq_none_iff.mpr ⟨⟨h.distinct, by simp⟩, h.planned⟩
    · exact Subproblem.fault?_eq_none_iff.mpr ⟨h.linked s hs, h.penalties s hs⟩

end DecomposedProblem

end BendersPlanning

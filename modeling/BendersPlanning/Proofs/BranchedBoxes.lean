import BendersPlanning.BranchAndBound
import BendersPlanning.Proofs.RelaxationRows

/-!
# Boxes of a search

A node of a search stands for the relaxation of its model over a box. A truthful outcome of that
relaxation says that it is empty or gives a minimiser. Splitting a box at a value of an integer
variable cuts out nothing but values between two whole numbers: every point of the box that is whole
there lies in one of the halves, and the halves lie in the box.
-/

namespace BendersPlanning

section Meaning
variable {K : Type} [Scalar K]

open Scalar (entry)

/-- The relaxation that a node stands for. -/
def SearchNode.relaxation (node : SearchNode K) (m : Model K) : Relaxation K :=
  { Relaxation.ofModel m with lower := node.lower, upper := node.upper }

/-- What a truthful outcome of a relaxation promises. -/
structure Solution.IsTruthfulFor (s : Solution K) (r : Relaxation K) : Prop where
  infeasible : s.status = .infeasible → ∀ point, ¬r.Feasible point
  feasible : s.status = .optimal → r.Feasible s.primal
  value : s.status = .optimal → s.objective = r.model.objectiveValue s.primal
  least : s.status = .optimal → ∀ point, r.Feasible point →
    s.objective ≤ r.model.objectiveValue point

namespace Model

def IsIntegral (m : Model K) (point : Array K) : Prop :=
  ∀ j (v : Variable K), m.vars[j]? = some v → v.integer = true →
    ∃ i : ℤ, entry point j = Scalar.ofInt i

/-- Whether no value of an integer variable is close to a whole number without being one. -/
def IsSeparated (m : Model K) (tolerance : K) (point : Array K) : Prop :=
  ∀ j (v : Variable K), m.vars[j]? = some v → v.integer = true →
    (∃ i : ℤ, entry point j = Scalar.ofInt i) ∨
      ∀ i : ℤ, tolerance < Scalar.abs (entry point j - Scalar.ofInt i)

variable {m : Model K} {tolerance : K} {point : Array K} {j : ℕ} {x : K}

theorem bounds_ofModel {v : Variable K} (hv : m.vars[j]? = some v) :
    entry (Relaxation.ofModel m).lower j = v.lowerBound ∧
      entry (Relaxation.ofModel m).upper j = v.upperBound := by
  simp [Relaxation.ofModel, entry, hv]

/-- A model asks for its relaxation and for whole values. -/
theorem feasible_iff :
    m.Feasible point ↔ (Relaxation.ofModel m).Feasible point ∧ m.IsIntegral point := by
  constructor
  · intro h
    refine ⟨⟨h.toIsFiniteVector, fun j hj => ?_, fun i c hc _ =>
      h.rows c (Array.mem_of_getElem? hc)⟩, fun j v hv => (h.admitted j v hv).2.2⟩
    have hv : m.vars[j]? = some m.vars[j] := Array.getElem?_eq_getElem hj
    obtain ⟨hlower, hupper, -⟩ := h.admitted j _ hv
    rw [(bounds_ofModel hv).1, (bounds_ofModel hv).2]
    exact ⟨hlower, hupper⟩
  · rintro ⟨hrelaxed, hintegral⟩
    refine ⟨hrelaxed.toIsFiniteVector, fun j v hv => ?_, fun c hc => ?_⟩
    · obtain ⟨hj, -⟩ := Array.getElem?_eq_some_iff.mp hv
      obtain ⟨hlower, hupper⟩ := hrelaxed.box j hj
      rw [(bounds_ofModel hv).1] at hlower
      rw [(bounds_ofModel hv).2] at hupper
      exact ⟨hlower, hupper, hintegral j v hv⟩
    · obtain ⟨i, hi, rfl⟩ := Array.mem_iff_getElem.mp hc
      exact hrelaxed.rows i _ (Array.getElem?_eq_getElem hi) (by simp [Relaxation.ofModel, hi])

/-- A fold that keeps its choice or takes the next candidate ends with one of the candidates, and
without a choice only if there were none. -/
theorem foldl_choice {α : Type} {f : Option α → α → Option α}
    (hf : ∀ best a, f best a = some a ∨ f best a = best ∧ best ≠ none) (xs : List α)
    (best : Option α) :
    (xs.foldl f best = none → best = none ∧ xs = []) ∧
      ∀ a, xs.foldl f best = some a → best = some a ∨ a ∈ xs := by
  induction xs generalizing best with
  | nil => exact ⟨fun h => ⟨h, rfl⟩, fun a h => .inl h⟩
  | cons first xs ih =>
    obtain ⟨hnone, hsome⟩ := ih (f best first)
    rw [List.foldl_cons]
    rcases hf best first with htaken | ⟨hkept, hbest⟩
    · refine ⟨fun h => ?_, fun a h => .inr ?_⟩
      · rw [htaken] at hnone h
        cases (hnone h).1
      · rcases hsome a h with hfirst | hmem
        · exact Option.some.inj (htaken.symm.trans hfirst) ▸ List.mem_cons_self
        · exact List.mem_cons_of_mem _ hmem
    · refine ⟨fun h => absurd (hkept ▸ (hnone h).1) hbest, fun a h => ?_⟩
      exact (hsome a h).imp (fun hfirst => hkept ▸ hfirst) (List.mem_cons_of_mem _)

/-- Each turn of the search for the most fractional variable takes a candidate or keeps the best. -/
theorem mostFractional_turn (best : Option (ℕ × K)) (c : ℕ × K) :
    (match best with
      | some (_, y) => if fractionality y < fractionality c.2 then some (c.1, c.2) else best
      | none => some (c.1, c.2)) = some c ∨
    (match best with
      | some (_, y) => if fractionality y < fractionality c.2 then some (c.1, c.2) else best
      | none => some (c.1, c.2)) = best ∧ best ≠ none := by
  cases best with
  | none => exact .inl rfl
  | some b =>
    by_cases hmore : fractionality b.2 < fractionality c.2
    · exact .inl (if_pos hmore)
    · exact .inr ⟨if_neg hmore, nofun⟩

theorem eq_of_mostFractional?_eq_some (h : m.mostFractional? tolerance point = some (j, x)) :
    (∃ v, m.vars[j]? = some v ∧ v.integer = true) ∧ x = entry point j := by
  rcases (foldl_choice mostFractional_turn _ none).2 _ h with hnone | hmem
  · cases hnone
  · obtain ⟨⟨v, i⟩, hv, hc⟩ := List.mem_filterMap.mp hmem
    rw [List.mem_zipIdx_iff_getElem?, Array.getElem?_toList] at hv
    simp only [Option.ite_none_right_eq_some, Option.some.injEq, Prod.mk.injEq] at hc
    obtain ⟨hfar, rfl, rfl⟩ := hc
    exact ⟨⟨v, hv, (Bool.and_eq_true_iff.mp hfar).1⟩, rfl⟩

/-- A search does not branch where all integer variables are close to whole numbers. -/
theorem fractionality_le_of_mostFractional?_eq_none (h : m.mostFractional? tolerance point = none)
    {v : Variable K} (hv : m.vars[j]? = some v) (hinteger : v.integer = true) :
    fractionality (entry point j) ≤ tolerance := by
  obtain ⟨-, hempty⟩ := (foldl_choice mostFractional_turn _ none).1 h
  have hmem : (v, j) ∈ m.vars.toList.zipIdx := by
    rw [List.mem_zipIdx_iff_getElem?, Array.getElem?_toList]
    exact hv
  have hnot := List.filterMap_eq_nil_iff.mp hempty (v, j) hmem
  by_contra hfar
  simp [hinteger, hfar] at hnot

end Model

namespace SearchNode

variable {m : Model K} {node child : SearchNode K} {point : Array K} {j : ℕ} {x : K}

theorem mem_split_iff :
    child ∈ node.split j x ↔
      child = ⟨node.lower, node.upper.setIfInBounds j (Scalar.floor x), node.depth + 1⟩ ∨
        child = ⟨node.lower.setIfInBounds j (Scalar.ceil x), node.upper, node.depth + 1⟩ := by
  unfold split
  cases isDownFirst x <;> simp [or_comm]

theorem entry_setIfInBounds (xs : Array K) (j i : ℕ) (x : K) :
    entry (xs.setIfInBounds j x) i = if j = i ∧ j < xs.size then x else entry xs i := by
  unfold entry
  rw [Array.getElem?_setIfInBounds]
  by_cases hj : j = i
  · subst hj
    by_cases hsize : j < xs.size <;> simp [hsize]
  · simp [hj]

end SearchNode

end Meaning

open Exact (number)

namespace Exact

theorem floor_le (q : ℚ) : Scalar.floor (number q) ≤ number q := number_le.mpr (Rat.floor_le q)

theorem le_ceil (q : ℚ) : number q ≤ Scalar.ceil (number q) := number_le.mpr Rat.le_ceil

theorem le_floor_or_ceil_le (q : ℚ) (i : ℤ) :
    (Scalar.ofInt i : Exact) ≤ Scalar.floor (number q) ∨
      Scalar.ceil (number q) ≤ (Scalar.ofInt i : Exact) := by
  rcases le_total (i : ℚ) q with hbelow | habove
  · left
    apply number_le.mpr
    exact_mod_cast Rat.le_floor_iff.mpr hbelow
  · right
    apply number_le.mpr
    exact_mod_cast Rat.ceil_le_iff.mpr habove

theorem nearest_intCast (i : ℤ) : nearest i = i := by
  unfold nearest
  split
  · apply le_antisymm
    · apply Rat.ceil_le_iff.mpr
      linarith
    · by_contra hless
      have hbelow : (i : ℚ) - 1 / 2 ≤ ((i - 1 : ℤ) : ℚ) :=
        Rat.ceil_le_iff.mp (Int.le_sub_one_of_lt (not_le.mp hless))
      push_cast at hbelow
      linarith
  · apply le_antisymm
    · apply Int.lt_add_one_iff.mp
      apply Rat.floor_lt_iff.mpr
      push_cast
      linarith
    · apply Rat.le_floor_iff.mpr
      linarith

theorem abs_sub_nearest_le (q : ℚ) : |q - nearest q| ≤ 1 / 2 := by
  unfold nearest
  rw [abs_le]
  split
  · have hbelow : q - 1 / 2 ≤ ((q - 1 / 2).ceil : ℚ) := Rat.le_ceil
    have habove : ((q - 1 / 2).ceil : ℚ) < q - 1 / 2 + 1 := Rat.ceil_lt
    constructor <;> linarith
  · have hbelow : ((q + 1 / 2).floor : ℚ) ≤ q + 1 / 2 := Rat.floor_le _
    have habove : q + 1 / 2 < (((q + 1 / 2).floor + 1 : ℤ) : ℚ) := Rat.lt_floor_add_one _
    push_cast at habove
    constructor <;> linarith

theorem abs_sub_nearest_le_abs_sub (q : ℚ) (i : ℤ) : |q - nearest q| ≤ |q - i| := by
  by_cases hsame : i = nearest q
  · rw [hsame]
  · have hapart : (1 : ℚ) ≤ |(nearest q : ℚ) - i| := by
      exact_mod_cast Int.one_le_abs (sub_ne_zero.mpr (Ne.symm hsame))
    have htriangle : |(nearest q : ℚ) - i| ≤ |q - i| + |q - nearest q| := by
      have := abs_add_le (q - i) (nearest q - q)
      rwa [sub_add_sub_cancel', abs_sub_comm (nearest q : ℚ) q] at this
    linarith [abs_sub_nearest_le q]

theorem round_ofInt (i : ℤ) : Scalar.round (Scalar.ofInt i : Exact) = Scalar.ofInt i :=
  congrArg (fun n : ℤ => number n) (nearest_intCast i)

end Exact

namespace Model

variable {m : Model Exact} {tolerance : Exact} {point : Array Exact}

theorem roundIntegers_eq (h : m.IsIntegral point) : m.roundIntegers point = point := by
  unfold roundIntegers
  apply Array.ext
  · simp
  · intro j _ hj
    rw [Array.getElem_mapIdx]
    split_ifs with hinteger
    · obtain ⟨v, hv, hkind⟩ := (Option.any_eq_true _ _).mp hinteger
      obtain ⟨i, hi⟩ := h j v hv hkind
      rw [← entry_eq_getElem hj, hi, Exact.round_ofInt]
    · rfl

/-- Values are separated when each is rounded to itself or farther from that than the tolerance. -/
theorem isSeparated_of_fractionality (hfinite : IsFiniteVector m.vars.size point)
    (h : ∀ j, ∀ hj : j < m.vars.size, m.vars[j].integer = true →
      Scalar.round (Scalar.entry point j) = Scalar.entry point j ∨
        tolerance < fractionality (Scalar.entry point j)) : m.IsSeparated tolerance point := by
  intro j v hv hinteger
  obtain ⟨hj, rfl⟩ := Array.getElem?_eq_some_iff.mp hv
  have hcase := h j hj hinteger
  rw [hfinite.entry_eq hj] at hcase ⊢
  rcases hcase with hsame | hfar
  · exact .inl ⟨_, hsame.symm⟩
  · right
    intro i
    apply Exact.lt_of_lt_of_le hfar
    change Scalar.abs (number _ - number _) ≤ Scalar.abs (number _ - number _)
    rw [Exact.number_sub, Exact.number_sub, Exact.abs_number, Exact.abs_number, Exact.number_le]
    exact Exact.abs_sub_nearest_le_abs_sub _ i

/-- Where separated values are within the tolerance of whole numbers, they are whole numbers. -/
theorem isIntegral_of_isSeparated (hseparated : m.IsSeparated tolerance point)
    (hfinite : IsFiniteVector m.vars.size point)
    (hwhole : m.mostFractional? tolerance point = none) : m.IsIntegral point := by
  intro j v hv hinteger
  obtain hsome | hfar := hseparated j v hv hinteger
  · exact hsome
  · obtain ⟨hj, -⟩ := Array.getElem?_eq_some_iff.mp hv
    have hclose := fractionality_le_of_mostFractional?_eq_none hwhole hv hinteger
    rw [hfinite.entry_eq hj] at hclose hfar
    exact absurd (hfar _) (Exact.not_lt_of_le hclose)

end Model

namespace SearchNode

variable {m : Model Exact} {node child : SearchNode Exact} {primal point : Array Exact} {j : ℕ}

/-- The halves of a box at a value between its bounds lie in the box. -/
theorem feasible_of_mem_split (hprimal : (node.relaxation m).Feasible primal)
    (hj : j < m.vars.size) (hchild : child ∈ node.split j (Scalar.entry primal j))
    (h : (child.relaxation m).Feasible point) : (node.relaxation m).Feasible point := by
  obtain ⟨hlower, hupper⟩ := hprimal.box j hj
  rw [hprimal.entry_eq hj] at hlower hupper hchild
  refine ⟨h.toIsFiniteVector, fun i hi => ?_, h.rows⟩
  obtain ⟨hbelow, habove⟩ := h.box i hi
  rcases mem_split_iff.mp hchild with rfl | rfl
  · refine ⟨hbelow, ?_⟩
    simp only [relaxation, entry_setIfInBounds] at habove
    split_ifs at habove with hsame
    · obtain ⟨rfl, -⟩ := hsame
      exact Exact.le_trans habove (Exact.le_trans (Exact.floor_le _) hupper)
    · exact habove
  · refine ⟨?_, habove⟩
    simp only [relaxation, entry_setIfInBounds] at hbelow
    split_ifs at hbelow with hsame
    · obtain ⟨rfl, -⟩ := hsame
      exact Exact.le_trans hlower (Exact.le_trans (Exact.le_ceil _) hbelow)
    · exact hbelow

/-- Whether the boxes of nodes lie in the box of the model. -/
def AreInside (m : Model Exact) (nodes : List (SearchNode Exact)) : Prop :=
  ∀ node ∈ nodes, ∀ point, (node.relaxation m).Feasible point →
    (Relaxation.ofModel m).Feasible point

theorem areInside_split {rest : List (SearchNode Exact)} (h : AreInside m (node :: rest))
    (hprimal : (node.relaxation m).Feasible primal) (hj : j < m.vars.size) :
    AreInside m (node.split j (Scalar.entry primal j) ++ rest) := by
  intro child hchild point hpoint
  rcases List.mem_append.mp hchild with hhalf | hrest
  · apply h node List.mem_cons_self
    exact feasible_of_mem_split hprimal hj hhalf hpoint
  · exact h child (List.mem_cons_of_mem _ hrest) point hpoint

/-- A point of a box with a whole value lies in one of its halves. -/
theorem exists_mem_split (h : (node.relaxation m).Feasible point) (q : ℚ)
    (hwhole : ∃ i : ℤ, Scalar.entry point j = Scalar.ofInt i) :
    ∃ child ∈ node.split j (number q), (child.relaxation m).Feasible point := by
  obtain ⟨i, hi⟩ := hwhole
  rcases Exact.le_floor_or_ceil_le q i with hdown | hup
  · refine ⟨_, mem_split_iff.mpr (.inl rfl), h.toIsFiniteVector, fun k hk => ?_, h.rows⟩
    obtain ⟨hbelow, habove⟩ := h.box k hk
    refine ⟨hbelow, ?_⟩
    simp only [relaxation, entry_setIfInBounds]
    split_ifs with hsame
    · obtain ⟨rfl, -⟩ := hsame
      exact hi ▸ hdown
    · exact habove
  · refine ⟨_, mem_split_iff.mpr (.inr rfl), h.toIsFiniteVector, fun k hk => ?_, h.rows⟩
    obtain ⟨hbelow, habove⟩ := h.box k hk
    refine ⟨?_, habove⟩
    simp only [relaxation, entry_setIfInBounds]
    split_ifs with hsame
    · obtain ⟨rfl, -⟩ := hsame
      exact hi ▸ hup
    · exact hbelow

end SearchNode

end BendersPlanning

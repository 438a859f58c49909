import BendersPlanning.Form.Run
import BendersPlanning.Proofs.OrderedScalars

/-!
# Histories as lists of measurements

A history is kept step by step: each iteration compares its bounds with the best ones so far. Read
as a function of all that was measured, its lower bound is the greatest one of the planning problem,
its upper bound the least cost of a candidate, and the incumbent the first candidate of that cost. It
does not matter whether the iterations are kept by rows or by columns (`History.record_vectors`).
-/

namespace BendersPlanning

/-- What one iteration measures. -/
structure Measurement (K : Type) where
  /-- The lower bound of the planning problem as it was then. -/
  lowerBound : K
  /-- The cost of the candidate. -/
  upperBound : K
  elapsed : K
  gamma : K
  candidate : Candidate K

variable {K : Type} [Scalar K]

section Measured
variable (measured : List (Measurement K))

def lowestCost : K := least (measured.map (·.upperBound))

def gapAfter : K := relativeGap (greatest (measured.map (·.lowerBound))) (lowestCost measured)

/-- The `k`-th measurement is the first one of the least cost. -/
structure IsFirstOfLeastCost (k : ℕ) (first : Measurement K) : Prop where
  found : measured[k]? = some first
  least : first.upperBound = lowestCost measured
  finite : first.upperBound < Scalar.infinity
  earlier : ∀ x ∈ measured.take k,
    Scalar.isUndefined x.upperBound = true ∨ first.upperBound < x.upperBound

end Measured

namespace History

def ofMeasured (measured : List (Measurement K)) : History K :=
  measured.foldl (fun h x => h.record x.lowerBound x.upperBound x.elapsed x.gamma x.candidate) .empty

variable {measured : List (Measurement K)} {x : Measurement K} {h : History K}
  {lower upper elapsed gamma : K} {candidate : Candidate K}

@[simp] theorem ofMeasured_nil : (ofMeasured [] : History K) = .empty := rfl

@[simp] theorem ofMeasured_concat : ofMeasured (measured ++ [x]) =
    (ofMeasured measured).record x.lowerBound x.upperBound x.elapsed x.gamma x.candidate := by
  simp [ofMeasured]

@[simp] theorem count_record :
    (h.record lower upper elapsed gamma candidate).count = h.count + 1 := by
  simp [record, count]

@[simp] theorem lowerBound_record : (h.record lower upper elapsed gamma candidate).lowerBound =
    Scalar.larger h.lowerBound lower := by
  simp [record, lowerBound]

@[simp] theorem bestUpperBound_record :
    (h.record lower upper elapsed gamma candidate).bestUpperBound =
      Scalar.smaller h.bestUpperBound upper := by
  simp [record, bestUpperBound]

theorem count_ofMeasured : (ofMeasured measured).count = measured.length := by
  induction measured using List.reverseRecOn with
  | nil => rfl
  | append_singleton measured x ih => simp [ih]

theorem lowerBound_ofMeasured :
    (ofMeasured measured).lowerBound = greatest (measured.map (·.lowerBound)) := by
  induction measured using List.reverseRecOn with
  | nil => rfl
  | append_singleton measured x ih => simp [ih]

theorem bestUpperBound_ofMeasured :
    (ofMeasured measured).bestUpperBound = lowestCost measured := by
  induction measured using List.reverseRecOn with
  | nil => rfl
  | append_singleton measured x ih => simp [ih, lowestCost]

/-- What a history holds of each iteration: its own measurements, and the bounds up to then. -/
theorem getElem?_iterations (k : ℕ) : (ofMeasured measured).iterations[k]? =
    measured[k]?.map fun x =>
      ⟨greatest ((measured.take (k + 1)).map (·.lowerBound)), x.upperBound,
        lowestCost (measured.take (k + 1)), x.elapsed, x.gamma, x.candidate⟩ := by
  induction measured using List.reverseRecOn with
  | nil => rfl
  | append_singleton measured x ih =>
    have hsize : (ofMeasured measured).iterations.size = measured.length := count_ofMeasured
    rw [ofMeasured_concat, record, Array.getElem?_push, hsize]
    rcases lt_trichotomy k measured.length with hk | rfl | hk
    · rw [if_neg hk.ne, ih, List.getElem?_append_left hk, List.take_append_of_le_length hk]
    · rw [if_pos rfl, List.getElem?_concat_length, List.take_of_length_le (by simp)]
      simp [lowerBound_ofMeasured, bestUpperBound_ofMeasured, lowestCost]
    · rw [if_neg hk.ne', ih, List.getElem?_eq_none (by omega), List.getElem?_eq_none (by simp; omega)]
      rfl

section Vectors

/-- The history by columns. -/
def vectors (h : History K) : HistoryVectors K where
  lowerBounds := h.column (·.lowerBound)
  upperBounds := h.column (·.upperBound)
  bestUpperBounds := h.column (·.bestUpperBound)
  elapsed := h.column (·.elapsed)
  gammas := h.column (·.gamma)
  candidates := h.iterations.map (·.candidate)
  best := h.best

@[simp] theorem lowerBound_vectors : h.vectors.lowerBound = h.lowerBound := by
  simp [HistoryVectors.lowerBound, lowerBound, vectors, column]

@[simp] theorem bestUpperBound_vectors : h.vectors.bestUpperBound = h.bestUpperBound := by
  simp [HistoryVectors.bestUpperBound, bestUpperBound, vectors, column]

omit [Scalar K] in
theorem incumbent?_vectors : h.vectors.incumbent? = h.incumbent? := by
  simp [HistoryVectors.incumbent?, incumbent?, vectors]

/-- Recording by columns and by rows comes to the same. -/
theorem record_vectors : h.vectors.record lower upper elapsed gamma candidate =
    ((h.record lower upper elapsed gamma candidate).vectors, h.improves upper) := by
  simp only [HistoryVectors.record, lowerBound_vectors, bestUpperBound_vectors]
  simp [record, improves, count, vectors, column]

end Vectors

section Ordered
variable [OrderedScalar K]

theorem lowestCost_concat : lowestCost (measured ++ [x]) =
    if x.upperBound < lowestCost measured then x.upperBound else lowestCost measured := by
  rw [lowestCost, List.map_append, List.map_singleton, least_concat_eq]
  rfl

theorem isFirstOfLeastCost_of_lt (h : x.upperBound < lowestCost measured) :
    IsFirstOfLeastCost (measured ++ [x]) measured.length x where
  found := List.getElem?_concat_length
  least := by rw [lowestCost_concat, if_pos h]
  finite := OrderedScalar.lt_of_lt_of_not_lt h isUndefined_infinity
    (not_lt_least List.mem_cons_self)
  earlier := by
    intro y hy
    rw [List.take_left] at hy
    by_cases hundefined : Scalar.isUndefined y.upperBound = true
    · exact .inl hundefined
    · have hleast : ¬y.upperBound < lowestCost measured :=
        not_lt_least (List.mem_cons_of_mem _ (List.mem_map_of_mem hy))
      exact .inr (OrderedScalar.lt_of_lt_of_not_lt h (Bool.not_eq_true _ ▸ hundefined) hleast)

theorem isFirstOfLeastCost_of_not_lt {k : ℕ} {first : Measurement K}
    (h : IsFirstOfLeastCost measured k first) (hx : ¬x.upperBound < lowestCost measured) :
    IsFirstOfLeastCost (measured ++ [x]) k first := by
  have hk : k < measured.length := (List.getElem?_eq_some_iff.mp h.found).1
  refine ⟨?_, ?_, h.finite, ?_⟩
  · rw [List.getElem?_append_left hk, h.found]
  · rw [lowestCost_concat, if_neg hx, h.least]
  · rw [List.take_append_of_le_length hk.le]
    exact h.earlier

/-- The incumbent is the candidate of the first measurement of the least cost; there is none while
no cost is below infinity. -/
theorem best_ofMeasured :
    (ofMeasured measured).best = none ∧ (∀ x ∈ measured, ¬x.upperBound < Scalar.infinity) ∨
      ∃ k first, (ofMeasured measured).best = some k ∧ IsFirstOfLeastCost measured k first := by
  induction measured using List.reverseRecOn with
  | nil => exact .inl ⟨rfl, nofun⟩
  | append_singleton measured x ih =>
    have hbest : (ofMeasured (measured ++ [x])).best =
        if x.upperBound < lowestCost measured then some measured.length
        else (ofMeasured measured).best := by
      simp [record, improves, bestUpperBound_ofMeasured, count_ofMeasured]
    rw [hbest]
    by_cases hx : x.upperBound < lowestCost measured
    · rw [if_pos hx]
      exact .inr ⟨_, x, rfl, isFirstOfLeastCost_of_lt hx⟩
    · rw [if_neg hx]
      refine ih.imp (fun ⟨hnone, hall⟩ => ⟨hnone, ?_⟩) fun ⟨k, first, hk, hfirst⟩ =>
        ⟨k, first, hk, isFirstOfLeastCost_of_not_lt hfirst hx⟩
      have hleast : lowestCost measured = Scalar.infinity :=
        least_eq_infinity (List.forall_mem_map.mpr hall)
      exact List.forall_mem_append.mpr ⟨hall, List.forall_mem_singleton.mpr (hleast ▸ hx)⟩

theorem incumbent?_ofMeasured (measured : List (Measurement K)) :
    (ofMeasured measured).incumbent? = none ∧
        (∀ x ∈ measured, ¬x.upperBound < Scalar.infinity) ∨
      ∃ k first, (ofMeasured measured).incumbent? = some first.candidate ∧
        IsFirstOfLeastCost measured k first := by
  refine best_ofMeasured.imp (fun ⟨hnone, hall⟩ => ⟨?_, hall⟩)
    fun ⟨k, first, hk, hfirst⟩ => ⟨k, first, ?_, hfirst⟩
  · rw [incumbent?, hnone, Option.bind_none]
  · rw [incumbent?, hk, Option.bind_some, getElem?_iterations, hfirst.found]
    rfl

end Ordered

end History

end BendersPlanning

import BendersPlanning.Proofs.RoundedScalars
import BendersPlanning.Proofs.StoppingRules

/-!
# Recorded histories

Whatever bounds are recorded, infinite ones and those that are no numbers among them, a history holds
running extremes that are numbers, knows the first candidate of the least cost, and measures a gap
that is a number. Nothing here asks for exact arithmetic: doubles are a `RoundedScalar`.
-/

namespace BendersPlanning

variable {K : Type} [Scalar K]

open Scalar (isFinite isUndefined)

/-- A number of a list that none of the others is above. -/
structure IsGreatestOf (values : List K) (b : K) : Prop where
  mem : b ∈ values
  defined : isUndefined b = false
  greatest : ∀ x ∈ values, ¬b < x

/-- A number of a list that none of the others is below. -/
structure IsLeastOf (values : List K) (b : K) : Prop where
  mem : b ∈ values
  defined : isUndefined b = false
  least : ∀ x ∈ values, ¬x < b

namespace History

/-- What a history holds after some measurements. -/
structure Records (h : History K) (measured : List (Measurement K)) : Prop where
  count : h.count = measured.length
  columns : ∀ f, (h.column f).size = measured.length
  copied : h.iterations.toList.map (fun it => (it.upperBound, it.elapsed, it.gamma, it.candidate)) =
    measured.map fun x => (x.upperBound, x.elapsed, x.gamma, x.candidate)
  lowerBound : ∀ k it, h.iterations[k]? = some it →
    IsGreatestOf (-Scalar.infinity :: (measured.take (k + 1)).map (·.lowerBound)) it.lowerBound
  ascending : (h.iterations.toList.map (·.lowerBound)).Pairwise (· ≤ ·)
  bestUpperBound : ∀ k it, h.iterations[k]? = some it →
    IsLeastOf (Scalar.infinity :: (measured.take (k + 1)).map (·.upperBound)) it.bestUpperBound
  improves : ∀ upper, h.improves upper = true ↔ upper < Scalar.infinity ∧
    ∀ x ∈ measured, isUndefined x.upperBound = false → upper < x.upperBound
  incumbent_none : h.incumbent? = none ↔ ∀ x ∈ measured, ¬x.upperBound < Scalar.infinity
  incumbent_some : ∀ candidate, h.incumbent? = some candidate →
    ∃ (k : ℕ) (first : Measurement K), measured[k]? = some first ∧ first.candidate = candidate ∧
      (first.upperBound == h.bestUpperBound) = true ∧
      ∀ x ∈ measured.take k, (x.upperBound == h.bestUpperBound) = false
  gap_defined : isUndefined h.gap = false
  gap_infinite : isFinite h.bestUpperBound = false ∨ isFinite h.lowerBound = false →
    h.gap = Scalar.infinity

end History

namespace HistoryVectors

def ofMeasured (measured : List (Measurement K)) : HistoryVectors K :=
  measured.foldl (fun v x => (v.record x.lowerBound x.upperBound x.elapsed x.gamma x.candidate).1)
    .empty

/-- The vectors of a history: of one length, and read and continued like it. -/
structure Stores (v : HistoryVectors K) (h : History K) : Prop where
  sizes : [v.lowerBounds.size, v.upperBounds.size, v.bestUpperBounds.size, v.elapsed.size,
    v.gammas.size, v.candidates.size] = List.replicate 6 h.count
  columns : v = h.vectors
  lowerBound : v.lowerBound = h.lowerBound
  bestUpperBound : v.bestUpperBound = h.bestUpperBound
  incumbent : v.incumbent? = h.incumbent?
  gap : v.gap = h.gap
  record : ∀ lower upper elapsed gamma candidate,
    v.record lower upper elapsed gamma candidate =
      ((h.record lower upper elapsed gamma candidate).vectors, h.improves upper)

theorem ofMeasured_eq (measured : List (Measurement K)) :
    ofMeasured measured = (History.ofMeasured measured).vectors := by
  induction measured using List.reverseRecOn with
  | nil => simp [ofMeasured, empty, History.vectors, History.column, History.empty]
  | append_singleton measured x ih =>
    rw [ofMeasured, List.foldl_append, ← ofMeasured, ih, List.foldl_cons, List.foldl_nil,
      History.record_vectors, History.ofMeasured_concat]

theorem stores_ofMeasured (measured : List (Measurement K)) :
    (ofMeasured measured).Stores (History.ofMeasured measured) := by
  rw [ofMeasured_eq]
  constructor
  case sizes => simp [History.vectors, History.column, History.count, List.replicate]
  case columns => rfl
  case lowerBound => exact History.lowerBound_vectors
  case bestUpperBound => exact History.bestUpperBound_vectors
  case incumbent => exact History.incumbent?_vectors
  case gap => rw [HistoryVectors.gap, History.lowerBound_vectors, History.bestUpperBound_vectors,
    History.gap]
  case record => exact fun _ _ _ _ _ => History.record_vectors

end HistoryVectors

section Extremes
variable [OrderedScalar K] {values bounds : List K} {b x y : K}

/-- A greater number takes the place of a number, and nothing else does. -/
theorem larger_of_defined (hx : isUndefined x = false) :
    Scalar.larger x y = if x < y then y else x := by
  unfold Scalar.larger
  rw [hx, if_neg Bool.false_ne_true]
  by_cases hlt : x < y
  · rw [(OrderedScalar.defined_of_lt hlt).2, if_neg Bool.false_ne_true]
  · simp [hlt]

/-- One more value is compared with the greatest one so far. -/
theorem IsGreatestOf.concat (h : IsGreatestOf values b) (x : K) :
    IsGreatestOf (values ++ [x]) (Scalar.larger b x) := by
  rw [larger_of_defined h.defined]
  by_cases hx : b < x
  · rw [if_pos hx]
    refine ⟨by simp, (OrderedScalar.defined_of_lt hx).2, ?_⟩
    rw [List.forall_mem_append, List.forall_mem_singleton]
    refine ⟨fun y hy hlt => h.greatest y hy ?_, lt_irrefl_scalar x⟩
    exact OrderedScalar.lt_of_lt_of_not_lt hx (OrderedScalar.defined_of_lt hlt).2
      (OrderedScalar.lt_asymm hlt)
  · rw [if_neg hx]
    refine ⟨List.mem_append_left _ h.mem, h.defined, ?_⟩
    rw [List.forall_mem_append, List.forall_mem_singleton]
    exact ⟨h.greatest, hx⟩

theorem isLeastOf_least (bounds : List K) :
    IsLeastOf (Scalar.infinity :: bounds) (least bounds) := by
  refine ⟨?_, isUndefined_least bounds, fun x hx => not_lt_least hx⟩
  induction bounds using List.reverseRecOn with
  | nil => exact List.mem_singleton_self _
  | append_singleton bounds y ih =>
    rw [least_concat_eq]
    split_ifs
    · simp
    · rw [← List.cons_append]
      exact List.mem_append_left _ ih

/-- To be below the least of some bounds is to be below infinity and all of these that are numbers. -/
theorem lt_least_iff : x < least bounds ↔
    x < Scalar.infinity ∧ ∀ y ∈ bounds, isUndefined y = false → x < y := by
  constructor
  · intro h
    have hbelow : ∀ y ∈ Scalar.infinity :: bounds, isUndefined y = false → x < y :=
      fun y hy hdefined => OrderedScalar.lt_of_lt_of_not_lt h hdefined (not_lt_least hy)
    exact ⟨hbelow _ List.mem_cons_self isUndefined_infinity,
      fun y hy => hbelow y (List.mem_cons_of_mem _ hy)⟩
  · intro h
    have hleast := isLeastOf_least bounds
    rcases List.mem_cons.mp hleast.mem with htop | hmem
    · rw [htop]
      exact h.1
    · exact h.2 _ hmem hleast.defined

end Extremes

section Numbers
variable [RoundedScalar K]

theorem isGreatestOf_greatest (bounds : List K) :
    IsGreatestOf (-Scalar.infinity :: bounds) (greatest bounds) := by
  induction bounds using List.reverseRecOn with
  | nil =>
    refine ⟨List.mem_singleton_self _, ExtendedScalar.neg_infinity_defined, ?_⟩
    rw [List.forall_mem_singleton]
    exact lt_irrefl_scalar _
  | append_singleton bounds x ih =>
    rw [greatest_concat, ← List.cons_append]
    exact ih.concat x

/-- The greatest of more bounds is at least that of fewer. -/
theorem greatest_le_greatest {fewer more : List K} (h : fewer ⊆ more) :
    greatest fewer ≤ greatest more := by
  have hfewer := isGreatestOf_greatest fewer
  have hmore := isGreatestOf_greatest more
  refine LinearScalar.le_of_not_lt hfewer.defined hmore.defined (hmore.greatest _ ?_)
  exact List.cons_subset_cons _ h hfewer.mem

theorem isUndefined_relativeGap (lower upper : K) :
    isUndefined (relativeGap lower upper) = false := by
  unfold relativeGap
  by_cases hfinite : (isFinite upper && isFinite lower) = true
  · rw [if_pos hfinite]
    obtain ⟨hupper, hlower⟩ := Bool.and_eq_true_iff.mp hfinite
    have hdistance := RoundedScalar.sub_defined hupper hlower
    by_cases htiny : Scalar.abs upper < 1e-10
    · rw [if_pos htiny]
      exact hdistance
    · rw [if_neg htiny]
      obtain ⟨hpositive, hbelow⟩ := abs_bounds RoundedScalar.zero_lt_tiny hupper htiny
      exact RoundedScalar.div_defined hdistance hpositive hbelow
  · rw [if_neg hfinite]
    exact isUndefined_infinity

omit [RoundedScalar K] in
theorem relativeGap_eq_infinity {lower upper : K}
    (h : isFinite upper = false ∨ isFinite lower = false) :
    relativeGap lower upper = Scalar.infinity := by
  unfold relativeGap
  rw [if_neg]
  rcases h with h | h <;> simp [h]

namespace History

variable {measured : List (Measurement K)}

theorem incumbent?_eq_none_iff : (ofMeasured measured).incumbent? = none ↔
    ∀ x ∈ measured, ¬x.upperBound < Scalar.infinity := by
  rcases incumbent?_ofMeasured measured with ⟨hnone, hall⟩ | ⟨k, first, hsome, hfirst⟩
  · exact iff_of_true hnone hall
  · refine iff_of_false (hsome ▸ Option.some_ne_none _) fun hall => ?_
    exact hall first (List.mem_of_getElem? hfirst.found) hfirst.finite

/-- The first measurement of the least cost is the first one whose cost equals the best one. -/
theorem beq_bestUpperBound {k : ℕ} {first : Measurement K}
    (h : IsFirstOfLeastCost measured k first) :
    (first.upperBound == (ofMeasured measured).bestUpperBound) = true ∧
      ∀ x ∈ measured.take k, (x.upperBound == (ofMeasured measured).bestUpperBound) = false := by
  have hdefined := (OrderedScalar.defined_of_lt h.finite).1
  rw [bestUpperBound_ofMeasured, ← h.least]
  constructor
  · rw [RoundedScalar.beq_iff]
    exact ⟨⟨hdefined, hdefined⟩, lt_irrefl_scalar _, lt_irrefl_scalar _⟩
  · intro x hx
    rw [Bool.eq_false_iff, ne_eq, RoundedScalar.beq_iff]
    rintro ⟨⟨hnumber, -⟩, -, hnot⟩
    rcases h.earlier x hx with hundefined | hlt
    · rw [hundefined] at hnumber
      cases hnumber
    · exact hnot hlt

/-- Lower bounds only ever rise. -/
theorem pairwise_lowerBound (measured : List (Measurement K)) :
    ((ofMeasured measured).iterations.toList.map (·.lowerBound)).Pairwise (· ≤ ·) := by
  rw [List.pairwise_map, List.pairwise_iff_getElem]
  intro j k hj hk hlt
  have hentry (i : ℕ) (hi : i < (ofMeasured measured).iterations.toList.length) :
      (ofMeasured measured).iterations.toList[i].lowerBound =
        greatest ((measured.take (i + 1)).map (·.lowerBound)) := by
    have hget : (ofMeasured measured).iterations[i]? =
        some (ofMeasured measured).iterations.toList[i] := by
      rw [← Array.getElem?_toList, List.getElem?_eq_getElem hi]
    rw [getElem?_iterations] at hget
    obtain ⟨x, -, hx⟩ := Option.map_eq_some_iff.mp hget
    exact hx ▸ rfl
  rw [hentry j hj, hentry k hk]
  refine greatest_le_greatest fun bound hbound => ?_
  obtain ⟨x, hx, rfl⟩ := List.mem_map.mp hbound
  exact List.mem_map_of_mem ((List.take_sublist_take_left (by omega)).subset hx)

/-- The rows of a history keep its books. -/
theorem rows_ofMeasured (measured : List (Measurement K)) :
    (ofMeasured measured).Records measured where
  count := count_ofMeasured
  columns f := by
    rw [column, Array.size_map]
    exact count_ofMeasured
  copied := map_iterations_ofMeasured fun _ _ _ => rfl
  lowerBound k it hit := by
    rw [getElem?_iterations] at hit
    obtain ⟨x, -, rfl⟩ := Option.map_eq_some_iff.mp hit
    exact isGreatestOf_greatest _
  ascending := pairwise_lowerBound measured
  bestUpperBound k it hit := by
    rw [getElem?_iterations] at hit
    obtain ⟨x, -, rfl⟩ := Option.map_eq_some_iff.mp hit
    exact isLeastOf_least _
  improves upper := by
    rw [improves, decide_eq_true_iff, bestUpperBound_ofMeasured, lowestCost, lt_least_iff,
      List.forall_mem_map]
  incumbent_none := incumbent?_eq_none_iff
  incumbent_some candidate h := by
    rcases incumbent?_ofMeasured measured with ⟨hnone, -⟩ | ⟨k, first, hsome, hfirst⟩
    · cases hnone.symm.trans h
    · obtain rfl := Option.some.inj (hsome.symm.trans h)
      exact ⟨k, first, hfirst.found, rfl, beq_bestUpperBound hfirst⟩
  gap_defined := by
    rw [gap_ofMeasured]
    exact isUndefined_relativeGap _ _
  gap_infinite h := by
    rw [bestUpperBound_ofMeasured, lowerBound_ofMeasured] at h
    rw [gap_ofMeasured]
    exact relativeGap_eq_infinity h

/-- However bounds are recorded, a history keeps its books: what was measured, the running extremes
of the values that are numbers, the first candidate of the least cost, and a gap that is a number. The
vectors that it is stored in have one length and say the same. -/
theorem records_ofMeasured (measured : List (Measurement K)) :
    (ofMeasured measured).Records measured ∧
      (HistoryVectors.ofMeasured measured).Stores (ofMeasured measured) :=
  ⟨rows_ofMeasured measured, HistoryVectors.stores_ofMeasured measured⟩

end History

end Numbers

/-- Four rounds in double precision: without bounds, without a finite cost, and two of one cost. -/
def fourRounds : List (Measurement Float) :=
  let round (lower upper id : Float) : Measurement Float :=
    ⟨lower, upper, 0.5, 0.0, ⟨lower, id, .empty, #[]⟩⟩
  [round (0.0 / 0.0) (0.0 / 0.0) 0.0, round 5.0 (1.0 / 0.0) 1.0, round 4.0 12.0 2.0,
    round (0.0 / 0.0) 12.0 3.0]

/-- The third round is the incumbent, and the gap of the four is a number. -/
theorem fourRounds_records : (History.ofMeasured fourRounds).Records fourRounds ∧
    ((History.ofMeasured fourRounds).column (·.lowerBound)).toList.map (· == 5.0) =
      [false, true, true, true] ∧
    (History.ofMeasured fourRounds).best = some 2 ∧
    Scalar.isFinite (History.ofMeasured fourRounds).gap = true := by
  refine ⟨(History.records_ofMeasured fourRounds).1, ?_, ?_, ?_⟩ <;> decide +kernel

end BendersPlanning

import BendersPlanning.Proofs.FailedProjections

/-!
# Adapted level-set parameters

A parameter that adapts is halved by iterations without an improvement and doubled by the others. It
stays zero or between the least parameter and the configured one, and no sequence of outcomes gets it
stuck: ten iterations of one kind always take it to the end of its range, zero or the configured
parameter.
-/

namespace BendersPlanning

variable {K : Type} [Scalar K]

section Meaning

/-- Which costs are below all earlier ones. -/
def improvements (costs : List K) : List Bool :=
  costs.mapIdx fun k cost => decide (cost < least (costs.take k))

/-- The parameter after iterations with these outcomes. -/
def gammaAfter (configured gamma : K) (outcomes : List Bool) : K :=
  outcomes.foldl (fun gamma improved => nextGamma gamma configured improved) gamma

/-- The parameter is off, or in its range up to the configured one. -/
def IsAdapted (configured gamma : K) : Prop :=
  gamma = 0.0 ∨ Scalar.smaller configured leastGamma ≤ gamma ∧ gamma ≤ configured

/-- The parameters of a history are those after the outcomes before each iteration, all in range. -/
def History.IsAdapted (configured : K) (h : History K) : Prop :=
  ∀ k i, h.iterations[k]? = some i →
    i.gamma = gammaAfter configured configured
      ((improvements (h.iterations.toList.map (·.upperBound))).take k) ∧
    BendersPlanning.IsAdapted configured i.gamma

end Meaning

section Outcomes
variable {costs : List K} {cost configured gamma : K} {outcomes : List Bool}

@[simp] theorem length_improvements : (improvements costs).length = costs.length := by
  simp [improvements]

theorem improvements_concat :
    improvements (costs ++ [cost]) = improvements costs ++ [decide (cost < least costs)] := by
  unfold improvements
  rw [List.mapIdx_concat, List.take_left]
  congr 1
  apply List.ext_getElem
  · simp
  · intro k hk _
    rw [List.length_mapIdx] at hk
    rw [List.getElem_mapIdx, List.getElem_mapIdx, List.take_append_of_le_length hk.le]

theorem gammaAfter_concat {improved : Bool} : gammaAfter configured gamma (outcomes ++ [improved]) =
    nextGamma (gammaAfter configured gamma outcomes) configured improved := by
  simp [gammaAfter]

theorem gammaAfter_append {more : List Bool} : gammaAfter configured gamma (outcomes ++ more) =
    gammaAfter configured (gammaAfter configured gamma outcomes) more := by
  simp [gammaAfter]

end Outcomes

section Exact
open Exact (number)
variable {c g : ℚ} {outcomes : List Bool}

theorem Exact.exists_of_unit {x : Exact} (hzero : 0.0 ≤ x) (hone : x ≤ 1.0) :
    ∃ q, x = number q ∧ 0 ≤ q ∧ q ≤ 1 := by
  rw [Exact.zero_eq] at hzero
  rw [Exact.one_eq] at hone
  cases x with
  | number q => exact ⟨q, rfl, Exact.number_le.mp hzero, Exact.number_le.mp hone⟩
  | infinity => exact (Exact.not_infinity_le_number 1 hone).elim
  | negInfinity => exact absurd hzero (by decide +kernel)
  | undefined => exact absurd hzero (by decide +kernel)

theorem leastGamma_eq : (leastGamma : Exact) = number (1 / 1000) := by
  change number (Rat.ofScientific 1 true 3) = number (1 / 1000)
  norm_num [Rat.ofScientific_def, Rat.mkRat_eq_div]

theorem nextGamma_of_unconfigured {gamma : Exact} {improved : Bool} :
    nextGamma gamma (number 0) improved = number 0 := by
  simp [nextGamma]

/-- An improvement doubles the parameter, from the least one on and up to the configured one. -/
theorem nextGamma_true (hc : 0 < c) :
    nextGamma (number g) (number c) true = number (min (max g (1 / 1000) * 2) c) := by
  simp [nextGamma, hc, leastGamma_eq, Exact.larger_number, Exact.smaller_number]

/-- Without an improvement the parameter is halved, or off where that would make it too small. -/
theorem nextGamma_false (hc : 0 < c) :
    nextGamma (number g) (number c) false = number (if g / 2 < 1 / 1000 then 0 else g / 2) := by
  simp [nextGamma, hc, leastGamma_eq, Exact.number_div, apply_ite number]

theorem isAdapted_number :
    IsAdapted (number c) (number g) ↔ g = 0 ∨ min c (1 / 1000) ≤ g ∧ g ≤ c := by
  simp [IsAdapted, leastGamma_eq, Exact.smaller_number]

/-- A parameter of zero configures zero, whatever the outcomes. -/
theorem gammaAfter_of_unconfigured :
    gammaAfter (number 0) (number 0) outcomes = number 0 := by
  induction outcomes using List.reverseRecOn with
  | nil => rfl
  | append_singleton outcomes improved _ => rw [gammaAfter_concat, nextGamma_of_unconfigured]

/-- The range is kept by every outcome. -/
theorem exists_gammaAfter (hc : 0 ≤ c) (outcomes : List Bool) :
    ∃ g, gammaAfter (number c) (number c) outcomes = number g ∧
      (g = 0 ∨ min c (1 / 1000) ≤ g ∧ g ≤ c) := by
  induction outcomes using List.reverseRecOn with
  | nil => exact ⟨c, rfl, .inr ⟨min_le_left c _, le_rfl⟩⟩
  | append_singleton outcomes improved ih =>
    obtain ⟨g, hg, hrange⟩ := ih
    rw [gammaAfter_concat, hg]
    rcases hc.eq_or_lt with rfl | hpos
    · exact ⟨0, nextGamma_of_unconfigured, .inl rfl⟩
    cases improved with
    | true =>
      refine ⟨_, nextGamma_true hpos, .inr ⟨?_, min_le_right _ c⟩⟩
      have hleast : 1 / 1000 ≤ max g (1 / 1000) := le_max_right g _
      exact le_min (min_le_of_right_le (by linarith)) (min_le_left c _)
    | false =>
      refine ⟨_, nextGamma_false hpos, ?_⟩
      split_ifs with hsmall
      · exact .inl rfl
      · have hhalf : g / 2 ≤ c := by
          rcases hrange with rfl | hrange
          · linarith
          · linarith [hrange.2]
        exact .inr ⟨min_le_of_right_le (not_lt.mp hsmall), hhalf⟩

/-- Iterations without an improvement halve the parameter until it is off. -/
theorem gammaAfter_replicate_false (hc : 0 < c) (hg : 0 ≤ g) (n : ℕ) :
    gammaAfter (number c) (number g) (List.replicate (n + 1) false) =
      number (if g / 2 ^ (n + 1) < 1 / 1000 then 0 else g / 2 ^ (n + 1)) := by
  induction n with
  | zero =>
    rw [zero_add, pow_one]
    exact nextGamma_false hc
  | succ n ih =>
    have hhalf : g / 2 ^ (n + 1) / 2 = g / 2 ^ (n + 2) := by rw [div_div, ← pow_succ]
    have hless : g / 2 ^ (n + 2) ≤ g / 2 ^ (n + 1) := by
      rw [← hhalf]
      exact half_le_self (by positivity)
    rw [List.replicate_succ', gammaAfter_concat, ih, nextGamma_false hc]
    by_cases hoff : g / 2 ^ (n + 1) < 1 / 1000
    · rw [if_pos hoff, if_pos (by norm_num), if_pos (hless.trans_lt hoff)]
    · rw [if_neg hoff, hhalf]

/-- Improvements double the parameter until it is the configured one. -/
theorem gammaAfter_replicate_true (hc : 0 < c) (n : ℕ) :
    gammaAfter (number c) (number g) (List.replicate (n + 1) true) =
      number (min (max g (1 / 1000) * 2 ^ (n + 1)) c) := by
  induction n with
  | zero =>
    rw [zero_add, pow_one]
    exact nextGamma_true hc
  | succ n ih =>
    have hleast : 1 / 1000 ≤ max g (1 / 1000) := le_max_right g _
    have hdoubled : max g (1 / 1000) ≤ max g (1 / 1000) * 2 ^ (n + 1) :=
      le_mul_of_one_le_right (by linarith) (one_le_pow₀ (by norm_num))
    rw [List.replicate_succ', gammaAfter_concat, ih, nextGamma_true hc]
    rcases le_total (max g (1 / 1000) * 2 ^ (n + 1)) c with hbelow | hcapped
    · rw [min_eq_left hbelow, max_eq_left (hleast.trans hdoubled), mul_assoc, ← pow_succ]
    · rw [min_eq_right hcapped]
      have hkept : c ≤ max c (1 / 1000) * 2 := by linarith [le_max_left c (1 / 1000)]
      have htarget : c ≤ max g (1 / 1000) * 2 ^ (n + 2) := by
        rw [pow_succ, ← mul_assoc]
        linarith
      rw [min_eq_right hkept, min_eq_right htarget]

/-- From zero to one, ten iterations of one kind reach the end of the range. -/
theorem gammaAfter_replicate (hc : 0 ≤ c) (hone : c ≤ 1) {n : ℕ} (hn : 10 ≤ n) :
    gammaAfter (number c) (gammaAfter (number c) (number c) outcomes) (List.replicate n false) =
        number 0 ∧
      gammaAfter (number c) (gammaAfter (number c) (number c) outcomes) (List.replicate n true) =
        number c := by
  rcases hc.eq_or_lt with rfl | hpos
  · rw [← gammaAfter_append, ← gammaAfter_append]
    exact ⟨gammaAfter_of_unconfigured, gammaAfter_of_unconfigured⟩
  obtain ⟨g, hg, hrange⟩ := exists_gammaAfter hc outcomes
  have hunit : 0 ≤ g ∧ g ≤ 1 := by
    rcases hrange with rfl | ⟨hleast, hmost⟩
    · exact ⟨le_rfl, zero_le_one⟩
    · exact ⟨(le_min hc (by norm_num)).trans hleast, hmost.trans hone⟩
  obtain ⟨k, rfl⟩ := Nat.exists_eq_add_of_le' (by omega : 1 ≤ n)
  have hpow : (1024 : ℚ) ≤ 2 ^ (k + 1) :=
    calc (1024 : ℚ) = 2 ^ 10 := by norm_num
      _ ≤ 2 ^ (k + 1) := pow_le_pow_right₀ one_le_two hn
  rw [hg]
  constructor
  · have hoff : g / 2 ^ (k + 1) < 1 / 1000 := by
      rw [div_lt_div_iff₀ (by positivity) (by norm_num)]
      linarith [hunit.2]
    rw [gammaAfter_replicate_false hpos hunit.1, if_pos hoff]
  · have hleast : 1 / 1000 ≤ max g (1 / 1000) := le_max_right g _
    have hfull : c ≤ max g (1 / 1000) * 2 ^ (k + 1) :=
      calc c ≤ 1 / 1000 * 1024 := by linarith
        _ ≤ max g (1 / 1000) * 2 ^ (k + 1) :=
          mul_le_mul hleast hpow (by norm_num) (by linarith)
    rw [gammaAfter_replicate_true hpos, min_eq_right hfull]

end Exact

namespace RunState
variable {σ : Type} {backend : Backend (StateM σ) K} {clock : Clock (StateM σ) K}
  {c : Configuration K} {linking : List String} {start after : RunState K × σ}
  {passes : List (Pass K σ)}

/-- A pass uses the parameter after the outcomes of the earlier ones. -/
theorem Traces.gamma {p : DecomposedProblem K} (hdynamic : c.stabDynamic = true)
    (hstart : RunState.start c p = .ok start.1)
    (h : Traces backend clock c linking start passes after) :
    after.1.gamma = gammaAfter c.stabParam c.stabParam
        (improvements (passes.map (·.measurement.upperBound))) ∧
      ∀ k pass, passes[k]? = some pass → pass.gamma = gammaAfter c.stabParam c.stabParam
        ((improvements (passes.map (·.measurement.upperBound))).take k) := by
  obtain ⟨-, -, evaluators, -, hstate⟩ := start_eq_ok.mp hstart
  have hempty : start.1.history = .empty := by rw [hstate]
  have hconfigured : start.1.gamma = c.stabParam := by rw [hstate]
  induction h with
  | start => exact ⟨hconfigured, by simp⟩
  | @pass passes pass before after htraces hleads ih =>
    obtain ⟨hgamma, hpasses⟩ := ih
    have himproves : before.1.history.improves (pass.point.upperBound pass.outcomes) =
        decide (pass.measurement.upperBound < least (passes.map (·.measurement.upperBound))) := by
      rw [htraces.history hempty, History.improves, History.bestUpperBound_ofMeasured, lowestCost,
        List.map_map]
      rfl
    rw [List.map_append, List.map_singleton, improvements_concat]
    constructor
    · rw [gammaAfter_concat, ← hgamma, ← himproves, hleads.adapts, hdynamic, if_pos rfl,
        hleads.stabilizes]
    · intro k pass' hpass
      have hlength : (improvements (passes.map (·.measurement.upperBound))).length =
          passes.length := by
        simp
      rcases Nat.lt_or_ge k passes.length with hold | hnew
      · rw [List.getElem?_append_left hold] at hpass
        rw [List.take_append_of_le_length (by omega)]
        exact hpasses k pass' hpass
      rcases hnew.eq_or_lt with rfl | hbeyond
      · rw [List.getElem?_concat_length] at hpass
        rw [← Option.some.inj hpass, List.take_left' hlength, ← hgamma, hleads.stabilizes]
      · rw [List.getElem?_eq_none (by simp; omega)] at hpass
        cases hpass

end RunState

section Main
variable {σ : Type}

/-- What a run with adapted parameters does with them: in each state that it comes to the parameter is
the one after the outcomes so far, a projection is only asked for with a positive one up to one, and
its history keeps the range. -/
structure DecomposedProblem.AdaptsGamma (p : DecomposedProblem Exact)
    (backend : Backend (StateM σ) Exact) (clock : Clock (StateM σ) Exact) (c : Configuration Exact)
    (w : σ) : Prop where
  states : ∀ start passes s w', RunState.start c p = .ok start →
    RunState.Traces backend clock c p.linking (start, w) passes (s, w') →
    s.gamma = gammaAfter c.stabParam c.stabParam
      (improvements (passes.map (·.measurement.upperBound))) ∧ IsAdapted c.stabParam s.gamma
  projections : ∀ start passes s w', RunState.start c p = .ok start →
    RunState.Traces backend clock c p.linking (start, w) passes (s, w') → ∀ settings master,
    s.candidate backend p.linking settings master = pure master ∨ 0.0 < s.gamma ∧ s.gamma ≤ 1.0
  histories : ∀ r w', Yields (p.run backend clock c) w r w' → r.history.IsAdapted c.stabParam

variable {c : Exact}

theorem isAdapted_gammaAfter (hzero : 0.0 ≤ c) (hone : c ≤ 1.0) (outcomes : List Bool) :
    IsAdapted c (gammaAfter c c outcomes) := by
  obtain ⟨q, rfl, hq, -⟩ := Exact.exists_of_unit hzero hone
  obtain ⟨g, hg, hrange⟩ := exists_gammaAfter hq outcomes
  rw [hg]
  exact isAdapted_number.mpr hrange

theorem IsAdapted.le_one {gamma : Exact} (h : IsAdapted c gamma) (hone : c ≤ 1.0) : gamma ≤ 1.0 := by
  rcases h with rfl | ⟨-, hle⟩
  · decide +kernel
  · exact Exact.le_trans hle hone

/-- A history keeps the range where each parameter is the one after the outcomes before it. -/
theorem History.isAdapted_ofMeasured {measured : List (Measurement Exact)} (hzero : 0.0 ≤ c)
    (hone : c ≤ 1.0) (h : ∀ k x, measured[k]? = some x →
      x.gamma = gammaAfter c c ((improvements (measured.map (·.upperBound))).take k)) :
    (ofMeasured measured).IsAdapted c := by
  intro k i hi
  rw [getElem?_iterations] at hi
  obtain ⟨x, hx, rfl⟩ := Option.map_eq_some_iff.mp hi
  rw [map_iterations_ofMeasured (g := (·.upperBound)) fun _ _ _ => rfl, h k x hx]
  exact ⟨rfl, isAdapted_gammaAfter hzero hone _⟩

theorem DecomposedProblem.adaptsGamma {configuration : Configuration Exact}
    {p : DecomposedProblem Exact} {backend : Backend (StateM σ) Exact}
    {clock : Clock (StateM σ) Exact} {w : σ} (hdynamic : configuration.stabDynamic = true)
    (hzero : 0.0 ≤ configuration.stabParam) (hone : configuration.stabParam ≤ 1.0) :
    p.AdaptsGamma backend clock configuration w := by
  have hadapted : ∀ start passes s w', RunState.start configuration p = .ok start →
      RunState.Traces backend clock configuration p.linking (start, w) passes (s, w') →
      IsAdapted configuration.stabParam s.gamma := by
    intro start passes s w' hstart htraces
    rw [(htraces.gamma hdynamic hstart).1]
    exact isAdapted_gammaAfter hzero hone _
  constructor
  case states =>
    intro start passes s w' hstart htraces
    exact ⟨(htraces.gamma hdynamic hstart).1, hadapted start passes s w' hstart htraces⟩
  case projections =>
    intro start passes s w' hstart htraces settings master
    by_cases hpositive : 0.0 < s.gamma
    · exact .inr ⟨hpositive, (hadapted start passes s w' hstart htraces).le_one hone⟩
    · exact .inl (RunState.candidate_eq_pure hpositive)
  case histories =>
    intro r w' hrun
    obtain ⟨start, passes, last, hstart, htraces, -, -, -, hhistory, -⟩ := RunState.run_stops hrun
    rw [hhistory]
    apply History.isAdapted_ofMeasured hzero hone
    intro k x hx
    rw [List.getElem?_map] at hx
    obtain ⟨pass, hpass, rfl⟩ := Option.map_eq_some_iff.mp hx
    rw [List.map_map]
    exact (htraces.gamma hdynamic hstart).2 k pass hpass

/-- Whatever the outcomes, a parameter that adapts stays off or in its range, and ten or more
iterations of one kind leave it off or at the configured one. The runs that adapt it do so with the
outcomes of their iterations, whatever the backend answers and the clock shows. -/
theorem adapted_parameters_stay_and_recover (hrange : 0.0 ≤ c ∧ c ≤ 1.0) :
    (∀ outcomes, IsAdapted c (gammaAfter c c outcomes) ∧ ∀ n, 10 ≤ n →
      gammaAfter c (gammaAfter c c outcomes) (List.replicate n false) = 0.0 ∧
      gammaAfter c (gammaAfter c c outcomes) (List.replicate n true) = c) ∧
    ∀ (σ : Type) (configuration : Configuration Exact), configuration.stabParam = c →
      configuration.stabDynamic = true → ∀ (p : DecomposedProblem Exact)
        (backend : Backend (StateM σ) Exact) (clock : Clock (StateM σ) Exact) (w : σ),
        p.AdaptsGamma backend clock configuration w := by
  obtain ⟨hzero, hone⟩ := hrange
  constructor
  · intro outcomes
    refine ⟨isAdapted_gammaAfter hzero hone outcomes, fun n hn => ?_⟩
    obtain ⟨q, rfl, hq, hle⟩ := Exact.exists_of_unit hzero hone
    rw [Exact.zero_eq]
    exact gammaAfter_replicate hq hle hn
  · rintro σ configuration rfl hdynamic p backend clock w
    exact DecomposedProblem.adaptsGamma hdynamic hzero hone

/-- The first iteration of this run improves nothing and turns the parameter off, the second one
turns it on again. -/
theorem onePlant_adapts : ∃ r, Yields (onePlant.run (.replying linearReply fun _ _ => .ok none)
      (fun _ => pure (.number 1))
      { onePlantProjecting with stabParam := .number (3 / 2000) }) () r () ∧
    r.history.column (·.gamma) = #[.number (3 / 2000), .number 0, .number (3 / 2000)] ∧
    r.history.IsAdapted (.number (3 / 2000)) := by
  obtain ⟨r, hyields, hgammas⟩ := exists_yields_of_any (x := onePlant.run
      (.replying linearReply fun _ _ => .ok none) (fun _ => pure (.number 1))
      { onePlantProjecting with stabParam := .number (3 / 2000) })
    (P := fun r => r.history.column (·.gamma) =
      #[.number (3 / 2000), .number 0, .number (3 / 2000)]) (by decide +kernel)
  obtain ⟨-, hruns⟩ := adapted_parameters_stay_and_recover (c := .number (3 / 2000))
    (by decide +kernel)
  exact ⟨r, hyields, hgammas, (hruns Unit _ rfl rfl onePlant _ _ ()).histories r () hyields⟩

end Main

end BendersPlanning

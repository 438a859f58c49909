import BendersPlanning.Conic.Backend
import BendersPlanning.Proofs.GeneratedNames
import BendersPlanning.Proofs.OutcomeSources
import BendersPlanning.Proofs.RunBounds

/-!
# Repeated evaluations

An evaluation fixes rows in place, one after the other, in the model and in its elastic copy, and it
can end in the middle of that. All that it leaves behind are right-hand sides of fixing rows, the
same in both models (`Evaluator.IsRefixed`), and the next evaluation sets all of them anew before it
solves anything. So an evaluator answers like a new one, whatever was evaluated before.
-/

namespace BendersPlanning

variable {K : Type} [Scalar K]

open Exact (number)
open Scalar (isFinite entry)

section Meaning

/-- A backend whose replies depend on the model and the settings only. It keeps a record of the
models that it was given to solve. -/
def Backend.recording
    (reply : Model K → SolverSettings K → Except (ModelError K) (Solution K))
    (explain : Model K → SolverSettings K → Except (ModelError K) (Option (List String))) :
    Backend (StateM (List (Model K))) K where
  solve model settings := do
    modify (· ++ [model])
    return reply model settings
  conflicts model settings := return explain model settings

namespace Evaluator

/-- The evaluator with other right-hand sides, in the model and in its elastic copy. -/
def withRhs (e : Evaluator K) (rhs : Array K) : Evaluator K :=
  { e with
    model := e.model.withRhs rhs
    elastic := e.elastic.map fun (copy, slacks) => (copy.withRhs rhs, slacks) }

/-- Nothing has changed but right-hand sides of fixing rows, and these are the same in the model and
in its elastic copy. -/
structure IsRefixed (e fresh : Evaluator K) : Prop where
  same : e = fresh.withRhs e.model.rightHandSides
  copies : ∀ copy ∈ e.elastic, copy.1.rightHandSides = e.model.rightHandSides
  others : ∀ row, row ∉ fresh.fixingRows.map (·.2) →
    e.model.rightHandSides[row]? = fresh.model.rightHandSides[row]?

/-- The evaluator after some evaluations in a row, whatever came of them. -/
def after {m : Type → Type} [Monad m] (backend : Backend m K) :
    List (SortedMap String K × SolverSettings K) → Evaluator K → m (Evaluator K)
  | [], e => pure e
  | (values, settings) :: calls, e => do
    let (e, _) ← e.evaluate backend values settings
    after backend calls e

/-- Fixing rows of their own, the same right-hand sides in both models. -/
structure IsAligned (e : Evaluator K) : Prop where
  copies : ∀ copy ∈ e.elastic, copy.1.rightHandSides = e.model.rightHandSides
  rows : (e.fixingRows.map (·.2)).Nodup
  bound : ∀ entry ∈ e.fixingRows, entry.2 < e.model.constraints.size

/-- The first fault of the values that rows are to be fixed at: a missing one, or one that is not
finite. -/
def fixingFault? (index : ℕ) (values : SortedMap String K) (rows : List (String × ℕ)) :
    Option (RunError K) :=
  rows.findSome? fun (name, row) =>
    match values.find? name with
    | none => some (.subproblemFailed index (.noValue name))
    | some value =>
      if isFinite value then none else some (.model (.invalid (.nonFiniteNewRhs row value)))

end Evaluator

end Meaning

namespace Model

variable {m : Model K} {rhs : Array K}

theorem rightHandSides_withRhs (h : rhs.size = m.constraints.size) :
    (m.withRhs rhs).rightHandSides = rhs := by
  refine Array.ext (by simp [rightHandSides, withRhs, h]) fun i _ hi => ?_
  simp [rightHandSides, withRhs, entry, hi]

omit [Scalar K] in
theorem size_rightHandSides (m : Model K) : m.rightHandSides.size = m.constraints.size := by
  simp [rightHandSides]

/-- Setting a right-hand side replaces it, unless the new one is not finite. -/
theorem setRhs_withRhs {row : ℕ} (value : K) (hsize : rhs.size = m.constraints.size)
    (hrow : row < m.constraints.size) : (m.withRhs rhs).setRhs row value =
      if isFinite value then .ok (m.withRhs (rhs.setIfInBounds row value))
      else .error (.invalid (.nonFiniteNewRhs row value)) := by
  cases hfinite : isFinite value with
  | false => simp [setRhs, hfinite]
  | true =>
    refine setRhs_eq_ok.mpr ⟨hfinite, by simpa [withRhs] using hrow, ?_⟩
    unfold withRhs
    congr 1
    refine Array.ext (by simp) fun i hi hi' => ?_
    have hlt : i < rhs.size := by simpa [hsize] using hi
    rw [Array.getElem_modify, Array.getElem_mapIdx, Array.getElem_mapIdx]
    by_cases hsame : row = i
    · subst hsame
      simp [entry, hlt]
    · simp [entry, hsame]

end Model

namespace Evaluator

variable {fresh e e' : Evaluator K} {rhs rhs' : Array K} {values : SortedMap String K}
  {rows : List (String × ℕ)} {row : ℕ}

section Fixing

omit [Scalar K] in
theorem IsAligned.size_eq (h : fresh.IsAligned) {copy : Model K × Array ℕ}
    (hcopy : copy ∈ fresh.elastic) : copy.1.constraints.size = fresh.model.constraints.size := by
  rw [← Model.size_rightHandSides, h.copies copy hcopy, Model.size_rightHandSides]

theorem IsAligned.withRhs_rightHandSides (h : fresh.IsAligned) :
    fresh.withRhs fresh.model.rightHandSides = fresh := by
  obtain ⟨index, model, fixingRows, slackPenalty, elastic⟩ := fresh
  cases elastic with
  | none => simp [withRhs, Model.withRhs_rightHandSides]
  | some copy =>
    have hcopy := h.copies copy rfl
    simp only [withRhs, Option.map_some, Model.withRhs_rightHandSides]
    rw [← hcopy, Model.withRhs_rightHandSides]

theorem fixRow_withRhs (h : fresh.IsAligned) (hsize : rhs.size = fresh.model.constraints.size)
    (hrow : row < fresh.model.constraints.size) (value : K) :
    (fresh.withRhs rhs).fixRow row value =
      if isFinite value then (fresh.withRhs (rhs.setIfInBounds row value), .ok ())
      else (fresh.withRhs rhs, .error (.invalid (.nonFiniteNewRhs row value))) := by
  have hmodel : (fresh.withRhs rhs).model.setRhs row value = _ :=
    Model.setRhs_withRhs value hsize hrow
  unfold fixRow
  rw [hmodel]
  cases hfinite : isFinite value with
  | false => rfl
  | true =>
    cases helastic : fresh.elastic with
    | none => simp [withRhs, helastic]
    | some copy =>
      have hcopy := h.size_eq (Option.mem_def.mpr helastic)
      have hset : (copy.1.withRhs rhs).setRhs row value = _ :=
        Model.setRhs_withRhs value (hsize.trans hcopy.symm) (hcopy ▸ hrow)
      simp [withRhs, helastic, hset, hfinite]

/-- Fixing rows in order, from any right-hand sides: the verdict depends on the values only, other
rows stay, and without a fault every row has its value. -/
theorem fixRows_withRhs (h : fresh.IsAligned) (values : SortedMap String K)
    (hsize : rhs.size = fresh.model.constraints.size) (hrows : (rows.map (·.2)).Nodup)
    (hbound : ∀ entry ∈ rows, entry.2 < fresh.model.constraints.size) :
    ∃ new, fixRows values rows (fresh.withRhs rhs) = (fresh.withRhs new,
        match fixingFault? fresh.index values rows with
        | some x => .error x
        | none => .ok ()) ∧
      new.size = rhs.size ∧ (∀ row, row ∉ rows.map (·.2) → new[row]? = rhs[row]?) ∧
      (fixingFault? fresh.index values rows = none →
        ∀ entry ∈ rows, ∃ x, values.find? entry.1 = some x ∧ new[entry.2]? = some x) := by
  induction rows generalizing rhs with
  | nil => exact ⟨rhs, rfl, rfl, by simp, by simp⟩
  | cons entry rows ih =>
    obtain ⟨name, row⟩ := entry
    obtain ⟨hrow, hbound⟩ := List.forall_mem_cons.mp hbound
    obtain ⟨hfresh, hrest⟩ := List.nodup_cons.mp hrows
    have hindex : (fresh.withRhs rhs).index = fresh.index := rfl
    cases hvalue : values.find? name with
    | none => exact ⟨rhs, by simp [fixRows, fixingFault?, hvalue, hindex], rfl, by simp,
        by simp [fixingFault?, hvalue]⟩
    | some value =>
      have hfix := fixRow_withRhs h hsize hrow value
      cases hfinite : isFinite value with
      | false =>
        rw [hfinite] at hfix
        exact ⟨rhs, by simp [fixRows, fixingFault?, hvalue, hfix, hfinite], rfl, by simp,
          by simp [fixingFault?, hvalue, hfinite]⟩
      | true =>
        rw [hfinite] at hfix
        have hfault : fixingFault? fresh.index values ((name, row) :: rows) =
            fixingFault? fresh.index values rows := by
          simp [fixingFault?, hvalue, hfinite]
        have hsizeSet : (rhs.setIfInBounds row value).size = fresh.model.constraints.size := by
          simpa using hsize
        obtain ⟨new, hnew, hsize', hothers, hnamed⟩ := ih hsizeSet hrest hbound
        refine ⟨new, ?_, by simpa using hsize', fun other hother => ?_, fun hnone => ?_⟩
        · rw [fixRows, hvalue, hfault, ← hnew]
          simp only [hfix, if_true]
        · simp only [List.map_cons, List.mem_cons, not_or] at hother
          rw [hothers other hother.2, Array.getElem?_setIfInBounds_ne (Ne.symm hother.1)]
        · refine List.forall_mem_cons.mpr ⟨⟨value, hvalue, ?_⟩, hnamed (hfault ▸ hnone)⟩
          rw [hothers row hfresh]
          simp [hsize, hrow]

/-- Evaluators with the right-hand sides of other fixing rows, told apart by those only. -/
theorem IsAligned.isRefixed_withRhs (h : fresh.IsAligned)
    (hsize : rhs.size = fresh.model.constraints.size)
    (hothers : ∀ row, row ∉ fresh.fixingRows.map (·.2) →
      rhs[row]? = fresh.model.rightHandSides[row]?) : (fresh.withRhs rhs).IsRefixed fresh := by
  have hmodel : (fresh.withRhs rhs).model.rightHandSides = rhs :=
    Model.rightHandSides_withRhs hsize
  refine ⟨by rw [hmodel], fun copy hcopy => ?_, hmodel.symm ▸ hothers⟩
  obtain ⟨original, horiginal, rfl⟩ := Option.map_eq_some_iff.mp (Option.mem_def.mp hcopy)
  rw [hmodel]
  exact Model.rightHandSides_withRhs (hsize.trans (h.size_eq horiginal).symm)

theorem IsRefixed.size_eq (he : e.IsRefixed fresh) :
    e.model.rightHandSides.size = fresh.model.constraints.size := by
  have hmodel := congrArg (·.model.constraints.size) he.same
  simpa [withRhs, Model.withRhs, Model.rightHandSides] using hmodel

/-- Fixing refuses the same values as at first, and any others make the evaluator what they would
have made of it at first. -/
theorem IsRefixed.fixAt_cases (he : e.IsRefixed fresh) (h : fresh.IsAligned)
    (values : SortedMap String K) :
    (e.fixAt values).1.IsRefixed fresh ∧
      ((∃ x, (e.fixAt values).2 = .error x ∧ (fresh.fixAt values).2 = .error x) ∨
        ∃ fixed, e.fixAt values = (fixed, .ok ()) ∧ fresh.fixAt values = (fixed, .ok ()) ∧
          ∀ entry ∈ fresh.fixingRows, ∃ x, values.find? entry.1 = some x ∧
            fixed.model.rightHandSides[entry.2]? = some x) := by
  have hrows : e.fixingRows = fresh.fixingRows := congrArg (·.fixingRows) he.same
  obtain ⟨new, hfix, hsize, hothers, hnamed⟩ :=
    fixRows_withRhs h values he.size_eq h.rows h.bound
  obtain ⟨new₀, hfix₀, hsize₀, hothers₀, hnamed₀⟩ :=
    fixRows_withRhs h values fresh.model.size_rightHandSides h.rows h.bound
  rw [← he.same, ← hrows] at hfix
  rw [h.withRhs_rightHandSides] at hfix₀
  rw [fixAt, fixAt, hfix, hfix₀, hrows]
  have hothers' : ∀ row, row ∉ fresh.fixingRows.map (·.2) →
      new[row]? = fresh.model.rightHandSides[row]? :=
    fun row hrow => (hothers row hrow).trans (he.others row hrow)
  refine ⟨h.isRefixed_withRhs (hsize.trans he.size_eq) hothers', ?_⟩
  cases hfault : fixingFault? fresh.index values fresh.fixingRows with
  | some x => exact .inl ⟨x, rfl, rfl⟩
  | none =>
    -- Fixing rows have the given values, and the other rows have never changed.
    have hsame : new = new₀ := by
      refine Array.ext_getElem? fun row => ?_
      by_cases hrow : row ∈ fresh.fixingRows.map (·.2)
      · obtain ⟨entry, hentry, rfl⟩ := List.mem_map.mp hrow
        obtain ⟨x, hx, hset⟩ := hnamed hfault entry hentry
        obtain ⟨x₀, hx₀, hset₀⟩ := hnamed₀ hfault entry hentry
        rw [hset, hset₀, ← hx, hx₀]
      · rw [hothers' row hrow, hothers₀ row hrow]
    subst hsame
    refine .inr ⟨_, rfl, rfl, fun entry hentry => ?_⟩
    have hmodel : (fresh.withRhs new).model.rightHandSides = new :=
      Model.rightHandSides_withRhs (hsize.trans he.size_eq)
    rw [hmodel]
    exact hnamed hfault entry hentry

theorem activeModel_withRhs (e : Evaluator K) (rhs : Array K) :
    (e.withRhs rhs).activeModel = e.activeModel.withRhs rhs := by
  unfold activeModel withRhs
  cases e.elastic <;> rfl

end Fixing

section Evaluating
variable (reply : Model K → SolverSettings K → Except (ModelError K) (Solution K))
  (explain : Model K → SolverSettings K → Except (ModelError K) (Option (List String)))

/-- Solving the active model records it once for every attempt. The answer does not depend on the
record. -/
theorem solveActive_recording (settings : SolverSettings K) (e : Evaluator K) :
    ∃ (result : Except (RunError K) (Solution K)) (solved : List (Model K)),
      (∀ model ∈ solved, model = e.activeModel) ∧ ∀ log,
        Answers (e.solveActive (.recording reply explain) settings).run log result
          (log ++ solved) := by
  have hattempt (settings' : SolverSettings K) (log : List (Model K)) :
      Answers (Backend.attempt (.recording reply explain) e.activeModel settings').run log
        ((reply e.activeModel settings').mapError RunError.model) (log ++ [e.activeModel]) := rfl
  unfold solveActive
  cases hfirst : reply e.activeModel settings with
  | error x =>
    refine ⟨.error (.model x), [e.activeModel], by simp, fun log => fails_bind.mpr (.inl ?_)⟩
    have hlog := hattempt settings log
    rwa [hfirst] at hlog
  | ok first =>
    have hanswers (log : List (Model K)) := hattempt settings log
    rw [hfirst] at hanswers
    cases hretried : first.status.isRetried with
    | false =>
      refine ⟨.ok first, [e.activeModel], by simp, fun log => ?_⟩
      refine yields_bind.mpr ⟨first, _, hanswers log, ?_⟩
      rw [hretried]
      exact yields_pure.mpr ⟨rfl, rfl⟩
    | true =>
      refine ⟨(reply e.activeModel settings.numericallyFocused).mapError RunError.model,
        [e.activeModel, e.activeModel], by simp, fun log => ?_⟩
      rw [ExceptT.run_bind, answers_bind]
      refine ⟨.ok first, _, hanswers log, ?_⟩
      have hsecond := hattempt settings.numericallyFocused (log ++ [e.activeModel])
      rw [List.append_assoc] at hsecond
      simpa only [hretried, if_true, List.cons_append, List.nil_append] using hsecond

/-- Nothing is solved at values that are refused. -/
theorem evaluate_of_fault {m : Type → Type} [Monad m] {backend : Backend m K}
    {settings : SolverSettings K} {x : RunError K}
    (h : (e.fixAt values).2 = .error x) :
    e.evaluate backend values settings = pure ((e.fixAt values).1, .error x) := by
  unfold evaluate
  cases hfix : e.fixAt values with
  | mk fixed verdict =>
    rw [hfix] at h
    subst h
    rfl

/-- An evaluation leaves the evaluator as fixing did. It solves nothing but the fixed model. -/
theorem evaluate_recording (values : SortedMap String K) (settings : SolverSettings K)
    (e : Evaluator K) :
    ∃ (result : Except (RunError K) (OperationOutcome K)) (solved : List (Model K)),
      (∀ model ∈ solved, model = (e.fixAt values).1.activeModel) ∧ ∀ log,
        Answers (e.evaluate (.recording reply explain) values settings) log
          ((e.fixAt values).1, result) (log ++ solved) := by
  unfold evaluate
  cases hfix : e.fixAt values with
  | mk fixed verdict =>
    cases verdict with
    | error x => exact ⟨.error x, [], by simp, fun log => answers_pure.mpr ⟨rfl, by simp⟩⟩
    | ok u =>
      obtain ⟨s, solved, hsolved, hanswers⟩ :=
        solveActive_recording reply explain settings fixed
      exact ⟨s >>= fixed.outcome, solved, hsolved, fun log =>
        answers_bind.mpr ⟨s, _, hanswers log, answers_pure.mpr ⟨rfl, rfl⟩⟩⟩

/-- Whatever the calls were, they leave an evaluator that was fixed somehow. -/
theorem after_recording (h : fresh.IsAligned) (he : e.IsRefixed fresh)
    (calls : List (SortedMap String K × SolverSettings K)) (log : List (Model K)) :
    ∃ e' log', Answers (after (.recording reply explain) calls e) log e' log' ∧
      e'.IsRefixed fresh := by
  induction calls generalizing e log with
  | nil => exact ⟨e, log, answers_pure.mpr ⟨rfl, rfl⟩, he⟩
  | cons call calls ih =>
    obtain ⟨values, settings⟩ := call
    obtain ⟨result, solved, -, hanswers⟩ := evaluate_recording reply explain values settings e
    obtain ⟨e', log', hrest, he'⟩ := ih (he.fixAt_cases h values).1 (log ++ solved)
    exact ⟨e', log', answers_bind.mpr ⟨_, _, hanswers log, hrest⟩, he'⟩

end Evaluating

end Evaluator

section Preparing

/-- Slack columns leave names and right-hand sides of the rows alone. -/
theorem Model.addSlacks_rows (penalty : K) (plan : List (ℕ × String × K)) (m : Model K)
    (slacks : Array ℕ) :
    (addSlacks penalty plan m slacks).1.constraints.map (fun c => (c.name, c.rhs)) =
      m.constraints.map fun c => (c.name, c.rhs) := by
  induction plan generalizing m slacks with
  | nil => rfl
  | cons entry plan ih =>
    obtain ⟨row, name, sign⟩ := entry
    rw [addSlacks]
    split
    · rfl
    · rename_i m' slack hadd
      obtain ⟨⟨m₁, id⟩, hvariable, hresult⟩ := bind_eq_ok.mp hadd
      obtain ⟨rfl, rfl⟩ := Prod.mk.inj (Except.ok.inj hresult)
      obtain ⟨-, -, -, rfl, rfl⟩ := addVariable_eq_ok.mp hvariable
      refine (ih _ _).trans (Array.ext (by simp) fun i _ _ => ?_)
      simp only [Array.getElem_map, Array.getElem_modify]
      split_ifs <;> rfl

theorem Model.rows_of_relaxWithPenalty {m m' : Model K} {penalty : K} {slacks : Array ℕ}
    (h : m.relaxWithPenalty penalty = (m', .ok slacks)) :
    m'.constraints.map (fun c => (c.name, c.rhs)) = m.constraints.map fun c => (c.name, c.rhs) := by
  unfold relaxWithPenalty at h
  split_ifs at h
  · have hrows := addSlacks_rows penalty m.slackPlan m #[]
    rwa [h] at hrows
  · cases h

variable {s : Subproblem K} {automatic : Bool} {fresh : Evaluator K}

/-- The two models of a prepared subproblem agree on their rows, among them the fixing rows. -/
theorem Evaluator.isAligned_of_ofSubproblem (hs : s.model.WellFormed)
    (h : ofSubproblem s automatic = .ok fresh) :
    fresh.IsAligned ∧ ∀ entry ∈ fresh.fixingRows,
      (fresh.activeModel.constraints[entry.2]?).map (·.name) = some (fixingRowName entry.1) := by
  obtain ⟨hfixing, -, hactive⟩ := ofSubproblem_cases h
  have hrows : FixingRowsOf fresh.model fresh.fixingRows := .addFixingRows hs hfixing
  have hsame : fresh.activeModel.constraints.map (fun c => (c.name, c.rhs)) =
      fresh.model.constraints.map fun c => (c.name, c.rhs) := by
    obtain hmodel | ⟨penalty, slacks, hrelaxed⟩ := hactive
    · rw [hmodel]
    · exact Model.rows_of_relaxWithPenalty hrelaxed
  refine ⟨⟨fun copy hcopy => ?_, hrows.rows, fun _ hentry => hrows.lt hentry⟩,
    fun entry hentry => ?_⟩
  · have hcopy : fresh.activeModel = copy.1 := by
      rw [activeModel, Option.mem_def.mp hcopy]
      rfl
    have hrhs := congrArg (Array.map Prod.snd) hsame
    rwa [Array.map_map, Array.map_map, hcopy] at hrhs
  · have hnames := congrArg (fun rows : Array (String × K) => rows[entry.2]?.map Prod.fst) hsame
    simp only [Array.getElem?_map, Option.map_map, Function.comp_def] at hnames
    exact hnames.trans (hrows.named entry hentry)

end Preparing

/-- With a backend whose replies depend on the model and the settings only, an evaluator answers like
a new one, solving the same models, whatever was evaluated before and whatever came of it. In between
only right-hand sides of fixing rows have changed, to the same ones in both models, and every model
that is solved has all its fixing rows at the values of their variables. -/
theorem evaluations_keep_no_state [OrderedScalar K] {s : Subproblem K} {automatic : Bool}
    {fresh : Evaluator K} (hs : s.model.WellFormed)
    (hprepared : Evaluator.ofSubproblem s automatic = .ok fresh)
    (reply : Model K → SolverSettings K → Except (ModelError K) (Solution K))
    (explain : Model K → SolverSettings K → Except (ModelError K) (Option (List String)))
    (calls : List (SortedMap String K × SolverSettings K)) :
    fresh.fixingRows.map (·.1) = s.linking ∧
    ∃ e log, Answers (Evaluator.after (.recording reply explain) calls fresh) [] e log ∧
      e.IsRefixed fresh ∧
      ∀ values settings, ∃ last first result solved,
        Answers (e.evaluate (.recording reply explain) values settings) log (last, result)
          (log ++ solved) ∧
        Answers (fresh.evaluate (.recording reply explain) values settings) [] (first, result)
          solved ∧
        ∀ model ∈ solved, ∀ entry ∈ fresh.fixingRows, ∃ c, model.constraints[entry.2]? = some c ∧
          c.name = fixingRowName entry.1 ∧ values.find? entry.1 = some c.rhs := by
  obtain ⟨haligned, hnamed⟩ := Evaluator.isAligned_of_ofSubproblem hs hprepared
  obtain ⟨-, -, -, hnames⟩ :=
    Model.shape_of_addFixingRows (Evaluator.ofSubproblem_cases hprepared).1
  have hfresh : fresh.IsRefixed fresh := by
    have hsame := haligned.isRefixed_withRhs fresh.model.size_rightHandSides fun _ _ => rfl
    rwa [haligned.withRhs_rightHandSides] at hsame
  obtain ⟨e, log, hafter, he⟩ :=
    Evaluator.after_recording reply explain haligned hfresh calls []
  refine ⟨by simpa using hnames, e, log, hafter, he, fun values settings => ?_⟩
  obtain ⟨hrefixed, ⟨x, hfault, hfault₀⟩ | ⟨fixed, hfix, hfix₀, hset⟩⟩ :=
    he.fixAt_cases haligned values
  · refine ⟨(e.fixAt values).1, (fresh.fixAt values).1, .error x, [], ?_, ?_, by simp⟩
    · rw [Evaluator.evaluate_of_fault hfault, List.append_nil]
      exact answers_pure.mpr ⟨rfl, rfl⟩
    · rw [Evaluator.evaluate_of_fault hfault₀]
      exact answers_pure.mpr ⟨rfl, rfl⟩
  · obtain ⟨result, solved, hsolved, hanswers⟩ :=
      Evaluator.evaluate_recording reply explain values settings e
    have hsame : e.evaluate (.recording reply explain) values settings =
        fresh.evaluate (.recording reply explain) values settings := by
      rw [Evaluator.evaluate, Evaluator.evaluate, hfix, hfix₀]
    rw [hfix] at hsolved hanswers hrefixed
    refine ⟨fixed, fixed, result, solved, hanswers log, hsame ▸ hanswers [],
      fun model hmodel entry hentry => ?_⟩
    obtain rfl : model = fixed.activeModel := hsolved model hmodel
    obtain ⟨x, hx, hrhs⟩ := hset entry hentry
    obtain ⟨c, hc, hname⟩ := Option.map_eq_some_iff.mp (hnamed entry hentry)
    have hactive : fixed.activeModel =
        fresh.activeModel.withRhs fixed.model.rightHandSides :=
      (congrArg Evaluator.activeModel hrefixed.same).trans (Evaluator.activeModel_withRhs _ _)
    rw [hactive, Model.getElem?_withRhs, hc]
    exact ⟨_, rfl, hname, by simpa [Scalar.entry, hrhs] using hx⟩

/-- Two sites serve one demand, at a penalty for what is missing. -/
def twoSites : Subproblem Exact where
  index := 0
  model :=
    { vars := #[.continuous "north" none none, .continuous "south" none none]
      constraints := #[⟨"demand", ⟨#[(0, number 1), (1, number 1)], number 0⟩, .atLeast, number 5⟩]
      objective := ⟨#[], number 0⟩
      quadratic := #[]
      expressions := .empty }
  linking := ["north", "south"]
  slackPenalty := some (number 10)

/-- The first evaluation ends at its second row, for want of a value, and the second one for a value
that is not finite. The third one answers all the same, for a demand that is short by two. -/
theorem twoSites_keeps_no_state :
    let backend := Backend.recording
      (fun model settings => .ok (model.solve ConicProgram.solveByPivoting settings))
      (fun _ _ => .ok none)
    let settings : SolverSettings Exact := .default
    let calls := [(SortedMap.ofList [("north", number 4)], settings),
      (SortedMap.ofList [("north", number 1), ("south", .infinity)], settings)]
    let values := SortedMap.ofList [("north", number 2), ("south", number 1)]
    ∃ fresh e log outcome, Evaluator.ofSubproblem twoSites false = .ok fresh ∧
      Answers (Evaluator.after backend calls fresh) [] e log ∧
      e.model.rightHandSides = #[number 5, number 1, number 0] ∧ outcome.cost = number 20 ∧
      (∃ last solved, Answers (e.evaluate backend values settings) log (last, .ok outcome) solved) ∧
      ∃ last solved,
        Answers (fresh.evaluate backend values settings) [] (last, .ok outcome) solved := by
  intro backend settings calls values
  obtain ⟨fresh, hprepared, hends, hcost⟩ :=
    exists_ok_of_any (x := Evaluator.ofSubproblem twoSites false) (P := fun fresh =>
      ((Evaluator.after backend calls fresh).run []).run.1.model.rightHandSides =
          #[number 5, number 1, number 0] ∧
        ((fresh.evaluate backend values settings).run []).run.1.2.toOption.any
          (fun outcome => outcome.cost = number 20) = true) (by decide +kernel)
  obtain ⟨-, e, log, hafter, -, hsame⟩ := evaluations_keep_no_state (s := twoSites)
    (by decide +kernel) hprepared
    (fun model settings => .ok (model.solve ConicProgram.solveByPivoting settings))
    (fun _ _ => .ok none) calls
  obtain ⟨last, first, result, solved, hlast, hfirst, -⟩ := hsame values settings
  rw [hafter] at hends
  rw [hfirst] at hcost
  obtain ⟨outcome, rfl, hvalue⟩ := exists_ok_of_any hcost
  exact ⟨fresh, e, log, outcome, hprepared, hafter, hends, hvalue, ⟨_, _, hlast⟩, _, _, hfirst⟩

end BendersPlanning

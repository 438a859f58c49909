import BendersPlanning.Proofs.ElasticModels
import BendersPlanning.Proofs.IndexedModels

/-!
# Refused slack columns

Rows are made elastic one slack column at a time, and a column is refused when a variable has its
name. The columns before that one stay, each in its row and in the objective, so a refused call
changes nothing only when its penalty is unusable or the very first column is the refused one.
-/

namespace BendersPlanning

open Scalar (isFinite)

variable {K : Type} [Scalar K]

section Meaning

namespace Model

/-- The columns of a plan before the first whose name is taken. -/
def freeColumns (m : Model K) (plan : List (ℕ × String × K)) : List (ℕ × String × K) :=
  plan.takeWhile fun column => (m.variableNamed? column.2.1).isNone

/-- The first column of a plan whose name is taken. -/
def takenColumn? (m : Model K) (plan : List (ℕ × String × K)) : Option (ℕ × String × K) :=
  plan.find? fun column => (m.variableNamed? column.2.1).isSome

end Model

end Meaning

section Columns
variable {m m' : Model K} {penalty : K} {plan : List (ℕ × String × K)}
  {column : ℕ × String × K} {name : String}

namespace Model

omit [Scalar K] in
theorem freeColumns_cons_of_free (h : m.variableNamed? column.2.1 = none) :
    m.freeColumns (column :: plan) = column :: m.freeColumns plan := by
  simp [freeColumns, h]

omit [Scalar K] in
theorem takenColumn?_cons_of_free (h : m.variableNamed? column.2.1 = none) :
    m.takenColumn? (column :: plan) = m.takenColumn? plan := by
  simp [takenColumn?, h]

omit [Scalar K] in
theorem freeColumns_cons_of_taken (h : m.variableNamed? column.2.1 ≠ none) :
    m.freeColumns (column :: plan) = [] := by
  simp [freeColumns, h]

omit [Scalar K] in
theorem takenColumn?_cons_of_taken (h : m.variableNamed? column.2.1 ≠ none) :
    m.takenColumn? (column :: plan) = some column := by
  rw [takenColumn?, List.find?_cons_of_pos]
  exact Option.isSome_iff_ne_none.mpr h

omit [Scalar K] in
/-- Which columns are free and which is taken depends on their own names only. -/
theorem columns_congr
    (h : ∀ name ∈ plan.map (·.2.1), m'.variableNamed? name = m.variableNamed? name) :
    m'.freeColumns plan = m.freeColumns plan ∧ m'.takenColumn? plan = m.takenColumn? plan := by
  induction plan with
  | nil => exact ⟨rfl, rfl⟩
  | cons column plan ih =>
    rw [List.map_cons, List.forall_mem_cons] at h
    obtain ⟨hfirst, hrest⟩ := h
    obtain ⟨hfree, htaken⟩ := ih hrest
    by_cases hnone : m.variableNamed? column.2.1 = none
    · rw [freeColumns_cons_of_free hnone, freeColumns_cons_of_free (hfirst.trans hnone), hfree,
        takenColumn?_cons_of_free hnone, takenColumn?_cons_of_free (hfirst.trans hnone), htaken]
      exact ⟨rfl, rfl⟩
    · have hsome : m'.variableNamed? column.2.1 ≠ none := by rwa [hfirst]
      rw [freeColumns_cons_of_taken hnone, freeColumns_cons_of_taken hsome,
        takenColumn?_cons_of_taken hnone, takenColumn?_cons_of_taken hsome]
      exact ⟨rfl, rfl⟩

omit [Scalar K] in
theorem Keeps.refl (m : Model K) : m.Keeps m :=
  ⟨fun _ _ => id, fun _ _ => id, rfl, fun _ => rfl, rfl, rfl⟩

theorem addSlack_eq_error {row : ℕ} {sign : K} (hname : name.isEmpty = false)
    (htaken : m.variableNamed? name ≠ none) :
    m.addSlack penalty row name sign = .error (.invalid (.duplicateVariable name)) := by
  have hvariable : m.addVariable (.continuous name (some 0.0) none) =
      .error (.invalid (.duplicateVariable name)) := by
    rw [addVariable, if_neg (by simpa [Variable.continuous] using hname), if_pos]
    · rfl
    · exact Option.isSome_iff_ne_none.mpr htaken
  rw [addSlack, hvariable]
  rfl

variable [OrderedScalar K]

/-- A slack column takes its own name only. -/
theorem variableNamed?_addSlack {row slack : ℕ} {sign : K} {other : String} (hne : other ≠ name)
    (h : m.addSlack penalty row name sign = .ok (m', slack)) :
    m'.variableNamed? other = m.variableNamed? other := by
  obtain ⟨⟨-, hfree⟩, hadded⟩ := addSlack_eq_ok.mp h
  obtain ⟨rfl, -⟩ := Prod.mk.inj hadded
  rw [variableNamed?_push (v := .continuous name (some 0.0) none) hfree]
  exact if_neg hne

/-- Columns with different names are added up to the first whose name is taken, which is the one
that the refusal names. -/
theorem addSlacks_eq_widened {slacks : Array ℕ} (hnodup : (plan.map (·.2.1)).Nodup)
    (hempty : ∀ name ∈ plan.map (·.2.1), name.isEmpty = false) :
    addSlacks penalty plan m slacks = (m.widened penalty (m.freeColumns plan),
      match m.takenColumn? plan with
      | none => .ok (slacks ++ Array.range' m.vars.size plan.length)
      | some column => .error (.invalid (.duplicateVariable column.2.1))) := by
  induction plan generalizing m slacks with
  | nil => simp [addSlacks, freeColumns, takenColumn?]
  | cons column plan ih =>
    rw [List.map_cons, List.nodup_cons] at hnodup
    rw [List.map_cons, List.forall_mem_cons] at hempty
    rw [addSlacks]
    by_cases hfree : m.variableNamed? column.2.1 = none
    · cases hadd : m.addSlack penalty column.1 column.2.1 column.2.2 with
      | error e => cases (addSlack_eq_ok.mpr ⟨⟨hempty.1, hfree⟩, rfl⟩).symm.trans hadd
      | ok step =>
        -- No later column has the name that this one takes.
        have hnames : ∀ name ∈ plan.map (·.2.1),
            step.1.variableNamed? name = m.variableNamed? name := by
          intro name hname
          refine variableNamed?_addSlack ?_ hadd
          rintro rfl
          exact hnodup.1 hname
        obtain ⟨hlater, hrefused⟩ := columns_congr hnames
        simp only
        rw [ih hnodup.2 hempty.2, hlater, hrefused, freeColumns_cons_of_free hfree,
          takenColumn?_cons_of_free hfree]
        obtain ⟨-, rfl⟩ := addSlack_eq_ok.mp hadd
        rw [widened_cons]
        cases m.takenColumn? plan <;> simp [Array.range'_succ]
    · rw [addSlack_eq_error hempty.1 hfree, freeColumns_cons_of_taken hfree,
        takenColumn?_cons_of_taken hfree, widened_nil]

/-- What a refused call leaves and answers, by its two reasons. -/
theorem relaxWithPenalty_eq_error {e : ModelError K}
    (hnames : (m.constraints.toList.map (·.name)).Nodup)
    (h : m.relaxWithPenalty penalty = (m', .error e)) :
    (¬(isFinite penalty = true ∧ 0.0 < penalty) ∧ e = .invalid (.unusablePenalty penalty) ∧
        m' = m) ∨
      ((isFinite penalty = true ∧ 0.0 < penalty) ∧
        ∃ column, m.takenColumn? m.slackPlan = some column ∧
          e = .invalid (.duplicateVariable column.2.1) ∧
          m' = m.widened penalty (m.freeColumns m.slackPlan)) := by
  have hempty : ∀ name ∈ m.slackPlan.map (·.2.1), name.isEmpty = false := by
    rw [map_slackPlan]
    intro name hname
    obtain ⟨c, -, hname⟩ := List.mem_flatMap.mp hname
    exact Sense.isEmpty_of_mem_slackNames hname
  unfold relaxWithPenalty at h
  split_ifs at h with hpenalty <;> rw [Bool.and_eq_true, decide_eq_true_iff] at hpenalty
  · rw [addSlacks_eq_widened (map_slackPlan m ▸ nodup_slackNames hnames) hempty] at h
    cases htaken : m.takenColumn? m.slackPlan with
    | none => simp [htaken] at h
    | some column =>
      simp only [htaken, Prod.mk.injEq, Except.error.injEq] at h
      exact .inr ⟨hpenalty, column, rfl, h.2.symm, h.1.symm⟩
  · simp only [Prod.mk.injEq, Except.error.injEq] at h
    exact .inl ⟨hpenalty, h.2.symm, h.1.symm⟩

omit [OrderedScalar K] in
/-- Slack columns of any number show. -/
theorem widened_eq_self_iff : m.widened penalty plan = m ↔ plan = [] := by
  constructor
  · intro h
    have hsize := congrArg (fun m : Model K => m.vars.size) h
    simp only [widened, Array.size_append, List.size_toArray, List.length_map] at hsize
    exact List.length_eq_zero_iff.mp (by omega)
  · rintro rfl
    exact widened_nil m penalty

end Model

end Columns

section Main

/-- A refusal is that of the call on the data, and leaves the data that the call leaves. -/
theorem IndexedModel.relaxWithPenalty_of_tried {s : IndexedModel K} {penalty : K}
    {e : ModelError K} (hs : s.Indexes s.data)
    (h : (s.tried (.relaxWithPenalty penalty)).2 = .error e) :
    s.data.relaxWithPenalty penalty =
      ((s.tried (.relaxWithPenalty penalty)).1.data, .error e) := by
  obtain ⟨hanswer, hafter⟩ := IndexedModel.tried_indexes hs (.relaxWithPenalty penalty)
  have herror : (s.data.relaxWithPenalty penalty).2.map (fun _ => ()) = .error e :=
    hanswer.symm.trans h
  cases hslacks : (s.data.relaxWithPenalty penalty).2 with
  | ok slacks => simp [hslacks, Except.map] at herror
  | error other =>
    simp only [hslacks, Except.map, Except.error.injEq] at herror
    exact Prod.ext hafter.data.symm (hslacks.trans (congrArg Except.error herror))

variable [LinearScalar K]

/-- What is left of a model, made by any edits, when making it elastic is refused: its variables,
rows and their names are all still there, and look-ups fit the data. An unusable penalty changes
nothing. Otherwise the refusal names the first slack column whose name is taken, and the slack
columns before it are there, in their rows and in the objective. -/
theorem refused_relaxation_leaves_prefix (edits : List (Edit K)) (penalty : K) (e : ModelError K)
    (h : ((IndexedModel.afterEdits edits).tried (.relaxWithPenalty penalty)).2 = .error e) :
    let s := IndexedModel.afterEdits edits
    let s' := (s.tried (.relaxWithPenalty penalty)).1
    s'.data.Keeps s.data ∧ s'.Indexes s'.data ∧
      ((¬(isFinite penalty = true ∧ 0.0 < penalty) ∧
          e = .invalid (.unusablePenalty penalty) ∧ s' = s) ∨
        ((isFinite penalty = true ∧ 0.0 < penalty) ∧
          ∃ column, s.data.takenColumn? s.data.slackPlan = some column ∧
            e = .invalid (.duplicateVariable column.2.1) ∧
            s'.data = s.data.widened penalty (s.data.freeColumns s.data.slackPlan))) ∧
      (s' = s ↔ ¬(isFinite penalty = true ∧ 0.0 < penalty) ∨
        s.data.freeColumns s.data.slackPlan = []) := by
  intro s s'
  have hedits := IndexedModel.afterEdits_indexes edits
  have hm : s.data.WellFormed := hedits.data ▸ Model.WellFormed.afterEdits edits
  have hs : s.Indexes s.data := ⟨rfl, hedits.data ▸ hedits.variableIds,
    hedits.data ▸ hedits.constraintIds⟩
  have hafter := (IndexedModel.tried_indexes hs (.relaxWithPenalty penalty)).2
  have hs' : s'.Indexes s'.data := ⟨rfl, hafter.data ▸ hafter.variableIds,
    hafter.data ▸ hafter.constraintIds⟩
  have hw : s'.data.WellFormed := hafter.data ▸ hm.tried (.relaxWithPenalty penalty)
  have hrelax : s.data.relaxWithPenalty penalty = (s'.data, .error e) :=
    IndexedModel.relaxWithPenalty_of_tried hs h
  have hsame : s' = s ↔ s'.data = s.data := by
    constructor
    · exact congrArg IndexedModel.data
    · intro hdata
      exact hs'.unique (hdata ▸ hs)
  obtain ⟨hpenalty, he, hdata⟩ | ⟨hpenalty, column, htaken, he, hdata⟩ :=
    Model.relaxWithPenalty_eq_error hm.constraintNames hrelax
  · have hback : s' = s := hsame.mpr hdata
    exact ⟨hdata ▸ Model.Keeps.refl s.data, hs', .inl ⟨hpenalty, he, hback⟩,
      iff_of_true hback (.inl hpenalty)⟩
  · refine ⟨?_, hs', .inr ⟨hpenalty, column, htaken, he, hdata⟩, ?_⟩
    · have hkeeps := hm.widened_keeps (hdata ▸ hw)
      rwa [← hdata] at hkeeps
    · rw [hsame, hdata, Model.widened_eq_self_iff]
      simp [hpenalty]

end Main

open Exact (number)

/-- Rows `a` and `b`, and a variable with the name of the slack column of `b`. -/
def clashingEdits : List (Edit Exact) :=
  [.addVariable (.continuous "x" none none),
    .addVariable (.continuous "slack[b]" none none),
    .addConstraint ⟨"a", ⟨#[(0, number 1)], number 0⟩, .atMost, number 1⟩,
    .addConstraint ⟨"b", ⟨#[(0, number 1)], number 0⟩, .atLeast, number 0⟩]

theorem clashing_relaxation_leaves_prefix :
    let s := IndexedModel.afterEdits clashingEdits
    let s' := (s.tried (.relaxWithPenalty (number 10))).1
    (s.tried (.relaxWithPenalty (number 10))).2 =
        .error (.invalid (.duplicateVariable "slack[b]")) ∧
      s'.data.Keeps s.data ∧
      s'.data = s.data.widened (number 10) (s.data.freeColumns s.data.slackPlan) := by
  intro s s'
  have hrefused : (s.tried (.relaxWithPenalty (number 10))).2 =
      .error (.invalid (.duplicateVariable "slack[b]")) := by
    decide +kernel
  have hpenalty : isFinite (number 10) = true ∧ 0.0 < number 10 := by decide +kernel
  obtain ⟨hkeeps, -, ⟨hnot, -⟩ | ⟨-, column, -, -, hdata⟩, -⟩ :=
    refused_relaxation_leaves_prefix clashingEdits (number 10) _ hrefused
  · exact absurd hpenalty hnot
  · exact ⟨hrefused, hkeeps, hdata⟩

/-- The refused call has added the slack column of the row before. -/
theorem clashing_relaxation_changes_model :
    let s := IndexedModel.afterEdits clashingEdits
    let s' := (s.tried (.relaxWithPenalty (number 10))).1
    (s.tried (.relaxWithPenalty (number 10))).2 =
        .error (.invalid (.duplicateVariable "slack[b]")) ∧
      s' ≠ s ∧ s'.data.vars.map (·.name) = #["x", "slack[b]", "slack[a]"] ∧
      s'.data.constraints.map (·.expression.terms) =
        #[#[(0, number 1), (2, number (-1))], #[(0, number 1)]] ∧
      s'.data.objective.terms = #[(2, number 10)] := by
  decide +kernel

end BendersPlanning

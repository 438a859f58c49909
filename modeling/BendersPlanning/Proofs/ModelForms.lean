import BendersPlanning.Proofs.ExtendedScalars
import BendersPlanning.Proofs.IndexedModels
import BendersPlanning.Proofs.RecordForms

/-!
# Models read back from their JSON form

The JSON form of a model has no infinite numbers: an infinite bound is written as if there were none. So
a model is read back as it was except for such bounds (`Model.ofJson_toJson`), and they come back with
the value that a missing bound has. For all but two that is the value they had. A lower bound of plus
infinity and an upper bound of minus infinity, which adding a variable does not refuse, change sides.
-/

namespace BendersPlanning

open Fields (read_seq_eq_ok read_map_eq_ok reader_obj_eq_ok read_fieldOr_eq_ok read_written)
open Scalar (isFinite isUndefined)

variable {K ε : Type} [Scalar K]

section Meaning

/-- The variable without those of its bounds that are written as missing. -/
def Variable.withoutInfinite (v : Variable K) : Variable K :=
  { v with lower := v.lower.filter isFinite, upper := v.upper.filter isFinite }

def Model.withoutInfinite (m : Model K) : Model K :=
  { m with vars := m.vars.map Variable.withoutInfinite }

/-- Whether all parts of an expression can be read back. -/
def Expression.IsWritable (e : Expression K) : Prop :=
  (∀ t ∈ e.terms, t.1 < Json.wordLimit ∧ isFinite t.2 = true) ∧ isFinite e.constant = true

end Meaning

section Forms

theorem Variable.ofJson_toJson (v : Variable K) :
    (Variable.ofJson v.toJson : Except (LoadError ε) (Variable K)) = .ok v.withoutInfinite := by
  simp only [Variable.ofJson, Fields.required, Fields.optional, Fields.withDefault]
  refine reader_obj_eq_ok.mpr (read_seq_eq_ok.mpr ⟨_, v.integer, read_seq_eq_ok.mpr
    ⟨_, v.upper.filter isFinite, read_seq_eq_ok.mpr ⟨_, v.lower.filter isFinite,
      read_map_eq_ok.mpr ⟨v.name, ?_, rfl⟩, ?_, rfl⟩, ?_, rfl⟩, ?_, rfl⟩)
  all_goals refine (read_written (by simp) rfl).mpr ?_
  · rfl
  · cases v.lower with
    | none => rfl
    | some x => exact Json.readOption_number x
  · cases v.upper with
    | none => rfl
    | some x => exact Json.readOption_number x
  · cases v.integer <;> rfl

theorem Expression.ofJson_toJson {e : Expression K} (h : e.IsWritable) :
    (Expression.ofJson e.toJson : Except (LoadError ε) (Expression K)) = .ok e := by
  simp only [Expression.ofJson, Fields.withDefault]
  refine reader_obj_eq_ok.mpr (read_seq_eq_ok.mpr
    ⟨_, e.constant, read_map_eq_ok.mpr ⟨e.terms, ?_, rfl⟩, ?_, rfl⟩)
  all_goals refine (read_fieldOr_eq_ok (by simp) rfl).mpr ?_
  · exact Json.readTerms_eq_ok.mpr ⟨h.1, rfl⟩
  · exact Json.readNumber_number_eq_ok.mpr ⟨h.2, rfl⟩

omit [Scalar K] in
theorem Sense.readName_keyword (s : Sense) :
    (Json.readName Sense.names (.str s.keyword : Json K) : Except (LoadError ε) Sense) = .ok s := by
  cases s <;> rfl

theorem Constraint.ofJson_toJson {c : Constraint K} (h : c.expression.IsWritable)
    (hrhs : isFinite c.rhs = true) :
    (Constraint.ofJson c.toJson : Except (LoadError ε) (Constraint K)) = .ok c := by
  simp only [Constraint.ofJson, Fields.required]
  refine reader_obj_eq_ok.mpr (read_seq_eq_ok.mpr ⟨_, c.rhs, read_seq_eq_ok.mpr
    ⟨_, c.sense, read_seq_eq_ok.mpr ⟨_, c.expression,
      read_map_eq_ok.mpr ⟨c.name, ?_, rfl⟩, ?_, rfl⟩, ?_, rfl⟩, ?_, rfl⟩)
  all_goals refine (read_fieldOr_eq_ok (by simp) rfl).mpr ?_
  · rfl
  · exact Expression.ofJson_toJson h
  · exact c.sense.readName_keyword
  · exact Json.readNumber_number_eq_ok.mpr ⟨hrhs, rfl⟩

namespace Model

variable {m : Model K}

theorem readEntries_expressions (h : ∀ e ∈ m.expressions.entries, e.2.IsWritable) :
    (SortedMap.ofList <$> Json.readEntries Expression.ofJson
      (.obj (m.expressions.entries.map fun e => (e.1, e.2.toJson))) :
        Except (LoadError ε) (SortedMap String (Expression K))) = .ok m.expressions := by
  refine map_eq_ok.mpr ⟨m.expressions.entries, ?_, m.expressions.ofList_entries⟩
  have hread : ∀ e ∈ m.expressions.entries,
      (do return (e.1, ← Expression.ofJson e.2.toJson) :
        Except (LoadError ε) (String × Expression K)) = .ok (id e) := fun e he =>
    bind_eq_ok.mpr ⟨e.2, Expression.ofJson_toJson (h e he), rfl⟩
  exact (mapM_map hread).trans (by rw [List.map_id])

/-- The parts of a model are read back, up to its infinite bounds. -/
theorem partsOfJson_toJson (hm : m.WellFormed) (hsize : m.vars.size ≤ Json.wordLimit) :
    (partsOfJson m.toJson : Except (LoadError ε) _) =
      .ok (ofParts m.withoutInfinite.vars m.constraints m.objective m.quadratic m.expressions) := by
  have hwritable : ∀ e : Expression K, e.IsOver m.vars.size → e.IsWritable := fun e he =>
    ⟨fun t ht => ⟨(he.1 t ht).1.trans_le hsize, (he.1 t ht).2⟩, he.2⟩
  simp only [partsOfJson, Fields.withDefault]
  refine reader_obj_eq_ok.mpr (read_seq_eq_ok.mpr ⟨_, m.expressions, read_seq_eq_ok.mpr
    ⟨_, m.quadratic, read_seq_eq_ok.mpr ⟨_, m.objective, read_seq_eq_ok.mpr ⟨_, m.constraints,
      read_map_eq_ok.mpr ⟨m.withoutInfinite.vars, ?_, rfl⟩, ?_, rfl⟩, ?_, rfl⟩, ?_, rfl⟩, ?_, rfl⟩)
  all_goals refine (read_written (by simp) rfl).mpr ?_
  · exact Json.readArray_map fun v _ => v.ofJson_toJson
  · have hrows : ∀ c ∈ m.constraints,
        (Constraint.ofJson c.toJson : Except (LoadError ε) _) = .ok (id c) := fun c hc =>
      Constraint.ofJson_toJson (hwritable _ (hm.rows c hc).1) (hm.rows c hc).2
    exact (Json.readArray_map hrows).trans (by rw [Array.map_id])
  · exact Expression.ofJson_toJson (hwritable _ hm.objective)
  · split_ifs with hempty
    · rw [Array.isEmpty_iff.mp hempty]
      rfl
    · refine Json.readTerms_eq_ok.mpr ⟨fun t ht => ?_, rfl⟩
      obtain ⟨hlt, hfinite, -⟩ := hm.quadratic t ht
      exact ⟨hlt.trans_le hsize, hfinite⟩
  · split_ifs with hempty
    · exact congrArg some (SortedMap.ext (List.isEmpty_iff.mp hempty).symm)
    · exact readEntries_expressions fun e he => hwritable _ (hm.expressions e he)

end Model

end Forms

section Bounds

/-- A bound that was written and read is the one it was or missing. -/
theorem getD_filter_isFinite_cases (bound : Option K) (missing : K) :
    (bound.filter isFinite).getD missing = bound.getD missing ∨
      (bound.filter isFinite).getD missing = missing := by
  cases bound with
  | none => exact .inl rfl
  | some x =>
    rw [Option.filter_some]
    split_ifs
    · exact .inl rfl
    · exact .inr rfl

/-- Of the infinite bounds the one that a missing bound stands for comes back and the other one does
not. -/
theorem getD_filter_isFinite_eq_iff {bound : Option K} {missing other : K}
    (hdefined : isUndefined (bound.getD missing) = false) (hne : missing ≠ other)
    (hother : isFinite other = false)
    (hcases : ∀ {x : K}, isUndefined x = false → isFinite x = false → x = missing ∨ x = other) :
    (bound.filter isFinite).getD missing = bound.getD missing ↔ bound ≠ some other := by
  cases bound with
  | none => simp
  | some x =>
    rw [Option.filter_some, ne_eq, Option.some.injEq]
    by_cases hfinite : isFinite x = true
    · rw [if_pos hfinite]
      refine iff_of_true rfl fun hx => ?_
      rw [hx, hother] at hfinite
      cases hfinite
    · rw [if_neg hfinite]
      change missing = x ↔ ¬x = other
      have hx : isUndefined x = false := hdefined
      rcases hcases hx (Bool.eq_false_iff.mpr hfinite) with rfl | rfl
      · exact iff_of_true rfl hne
      · exact iff_of_false hne (not_not.mpr rfl)

variable [ExtendedScalar K] {v : Variable K} {m : Model K}

theorem Variable.lowerBound_withoutInfinite (hdefined : isUndefined v.lowerBound = false) :
    v.withoutInfinite.lowerBound = v.lowerBound ↔ v.lower ≠ some Scalar.infinity :=
  getD_filter_isFinite_eq_iff hdefined infinity_ne_neg.symm isFinite_infinity
    fun hx hinfinite => (ExtendedScalar.infinite_cases hx hinfinite).symm

theorem Variable.upperBound_withoutInfinite (hdefined : isUndefined v.upperBound = false) :
    v.withoutInfinite.upperBound = v.upperBound ↔ v.upper ≠ some (-Scalar.infinity) :=
  getD_filter_isFinite_eq_iff hdefined infinity_ne_neg ExtendedScalar.neg_infinity_infinite
    ExtendedScalar.infinite_cases

/-- Missing bounds are in order with all others, so nothing that is read back is refused. -/
theorem Model.WellFormed.withoutInfinite (hm : m.WellFormed) : m.withoutInfinite.WellFormed := by
  have hsize : m.withoutInfinite.vars.size = m.vars.size := Array.size_map
  have hnames : m.withoutInfinite.vars.toList.map (·.name) = m.vars.toList.map (·.name) := by
    rw [Model.withoutInfinite, Array.toList_map, List.map_map]
    rfl
  refine ⟨hnames ▸ hm.variableNames, fun w hw => ?_, fun w hw => ?_, hm.constraintNames,
    hm.constraintNamed, hsize ▸ hm.rows, hsize ▸ hm.objective, hsize ▸ hm.quadratic,
    hsize ▸ hm.expressions⟩
  · obtain ⟨v, hv, rfl⟩ := Array.mem_map.mp hw
    exact hm.variableNamed v hv
  · obtain ⟨v, hv, rfl⟩ := Array.mem_map.mp hw
    obtain ⟨hlower, hupper, hordered⟩ := hm.bounds v hv
    unfold Variable.lowerBound Variable.upperBound Variable.withoutInfinite
    rcases getD_filter_isFinite_cases v.lower (-Scalar.infinity) with hl | hl <;>
      rcases getD_filter_isFinite_cases v.upper Scalar.infinity with hu | hu <;> rw [hl, hu]
    · exact ⟨hlower, hupper, hordered⟩
    · exact ⟨hlower, isUndefined_infinity, ExtendedScalar.not_infinity_lt _⟩
    · exact ⟨ExtendedScalar.neg_infinity_defined, hupper, ExtendedScalar.not_lt_neg_infinity _⟩
    · exact ⟨ExtendedScalar.neg_infinity_defined, isUndefined_infinity,
        ExtendedScalar.not_infinity_lt _⟩

/-- A well-formed model is read back without its infinite bounds. -/
theorem Model.ofJson_toJson (hm : m.WellFormed) (hsize : m.vars.size ≤ Json.wordLimit) :
    Model.ofJson m.toJson = .ok m.withoutInfinite := by
  have hparts : ofParts m.withoutInfinite.vars m.constraints m.objective m.quadratic
      m.expressions = .ok m.withoutInfinite := hm.withoutInfinite.ofParts_eq
  rw [Model.ofJson, Json.checked, partsOfJson_toJson hm hsize, hparts]
  rfl

end Bounds

section Main

theorem IndexedModel.Indexes.withoutInfinite {s : IndexedModel K} {m : Model K} (h : s.Indexes m) :
    (⟨m.withoutInfinite, s.variableIds, s.constraintIds⟩ : IndexedModel K).Indexes
      m.withoutInfinite := by
  refine ⟨rfl, fun name => (h.variableIds name).trans ?_, h.constraintIds⟩
  rw [Model.variableNamed?, Model.variableNamed?, Model.withoutInfinite, Array.findIdx?_map]
  rfl

/-- Whatever edits have made a model, its JSON form is read back, and the result has the same names,
look-ups, integrality, rows, objective, squares and named expressions. Its bounds are the same but for
lower bounds of plus infinity and upper bounds of minus infinity. -/
theorem edited_models_reload [ExtendedScalar K] (edits : List (Edit K))
    (hsize : (Model.afterEdits edits).vars.size ≤ Json.wordLimit) :
    let s := IndexedModel.afterEdits edits
    ∃ m, Model.ofJson s.data.toJson = .ok m ∧
      IndexedModel.ofData m = .ok ⟨m, s.variableIds, s.constraintIds⟩ ∧
      m.constraints = s.data.constraints ∧ m.objective = s.data.objective ∧
      m.quadratic = s.data.quadratic ∧ m.expressions = s.data.expressions ∧
      m.vars.size = s.data.vars.size ∧
      ∀ (i : ℕ) (v : Variable K), s.data.vars[i]? = some v → ∃ w, m.vars[i]? = some w ∧ w.name = v.name ∧
        w.integer = v.integer ∧
        (w.lowerBound = v.lowerBound ↔ v.lower ≠ some Scalar.infinity) ∧
        (w.upperBound = v.upperBound ↔ v.upper ≠ some (-Scalar.infinity)) := by
  intro s
  have hindexes := IndexedModel.afterEdits_indexes edits
  have hm : s.data.WellFormed := hindexes.data ▸ Model.WellFormed.afterEdits edits
  have hs : s.Indexes s.data := ⟨rfl, hindexes.data ▸ hindexes.variableIds,
    hindexes.data ▸ hindexes.constraintIds⟩
  refine ⟨s.data.withoutInfinite, Model.ofJson_toJson hm (hindexes.data ▸ hsize),
    IndexedModel.ofData_eq hm.withoutInfinite hs.withoutInfinite, rfl, rfl, rfl, rfl,
    Array.size_map, fun i v hv => ⟨v.withoutInfinite, ?_, rfl, rfl, ?_, ?_⟩⟩
  · rw [Model.withoutInfinite, Array.getElem?_map, hv]
    rfl
  · exact Variable.lowerBound_withoutInfinite (hm.bounds v (Array.mem_of_getElem? hv)).1
  · exact Variable.upperBound_withoutInfinite (hm.bounds v (Array.mem_of_getElem? hv)).2.1

open Exact (number)

/-- A level without a limit, said in so many words, and whole lots. -/
def openEdits : List (Edit Exact) :=
  [.addVariable (.continuous "level" (some (number 0)) (some .infinity)),
    .addVariable ⟨"lots", some (number 1), none, true⟩,
    .addConstraint ⟨"balance", ⟨#[(0, number 1), (1, number 2)], number 1⟩, .equal, number 9⟩,
    .setObjective ⟨#[(1, number 3)], number 0⟩,
    .setQuadratic #[(0, number (1 / 2))],
    .addExpression "stock" (.ofVariable 0)]

theorem openEdits_reload :
    let s := IndexedModel.afterEdits openEdits
    s.data.vars.map (·.upper) = #[some .infinity, none] ∧
    ∃ m, Model.ofJson s.data.toJson = .ok m ∧
      IndexedModel.ofData m = .ok ⟨m, s.variableIds, s.constraintIds⟩ ∧
      m.quadratic = #[(0, number (1 / 2))] ∧ ∃ w, m.vars[0]? = some w ∧ w.upperBound = .infinity := by
  intro s
  have hsize : (Model.afterEdits openEdits).vars.size = 2 := by decide +kernel
  obtain ⟨m, hload, hindexed, -, -, hquadratic, -, -, hvars⟩ :=
    edited_models_reload openEdits (by rw [hsize]; decide)
  obtain ⟨w, hw, -, -, -, hupper⟩ :=
    hvars 0 (.continuous "level" (some (number 0)) (some .infinity)) (by decide +kernel)
  exact ⟨by decide +kernel, m, hload, hindexed, hquadratic.trans (by decide +kernel), w, hw,
    hupper.mpr (by decide)⟩

/-- A variable that has to be infinite is taken, and comes back as one without bounds. -/
theorem infinite_lower_bound_reloads_free :
    let v : Variable Exact := .continuous "x" (some .infinity) none
    ((.empty : Model Exact).tried (.addVariable v)).2 = .ok () ∧ v.lowerBound = .infinity ∧
    ∃ m w, Model.ofJson (Model.afterEdits [.addVariable v]).toJson = .ok m ∧
      (Model.afterEdits [.addVariable v]).vars[0]? = some v ∧ m.vars[0]? = some w ∧
      w.lowerBound = .negInfinity := by
  intro v
  obtain ⟨m, hload, hvars⟩ := exists_ok_of_any
    (x := Model.ofJson (Model.afterEdits [.addVariable v]).toJson)
    (P := fun m => m.vars[0]? = some (.continuous "x" none none)) (by decide +kernel)
  exact ⟨by decide +kernel, rfl, m, _, hload, by decide +kernel, hvars, rfl⟩

end Main

end BendersPlanning

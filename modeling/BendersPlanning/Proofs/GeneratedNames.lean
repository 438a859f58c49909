import BendersPlanning.Operation.Subproblem
import BendersPlanning.Proofs.WellFormedModels

/-!
# Rows and columns with generated names

Fixing rows and slack columns are named after a linking variable or a row, in brackets behind a mark.
Such names differ where marks or bracketed names do, so generated names only ever clash with names
that the model had before. The edits that add them succeed exactly when none does.
-/

namespace BendersPlanning

open Scalar (isFinite isUndefined)

section Names

/-- A list is determined on both sides of the first occurrence of a separator. -/
theorem append_cons_inj {α : Type} [BEq α] [LawfulBEq α] {a : α} {x x' z z' : List α}
    (hx : a ∉ x) (hx' : a ∉ x') : x ++ a :: z = x' ++ a :: z' ↔ x = x' ∧ z = z' := by
  refine ⟨fun h => ?_, by rintro ⟨rfl, rfl⟩; rfl⟩
  have hlength : x.length = x'.length := by
    have := congrArg (List.idxOf a) h
    simpa [List.idxOf_append, hx, hx'] using this
  obtain ⟨rfl, hrest⟩ := List.append_inj h hlength
  exact ⟨rfl, List.tail_eq_of_cons_eq hrest⟩

theorem bracketed_inj {mark other name word : String} (h : '[' ∉ mark.toList)
    (h' : '[' ∉ other.toList) :
    s!"{mark}[{name}]" = s!"{other}[{word}]" ↔ mark = other ∧ name = word := by
  have hlist (s t : String) :
      s!"{s}[{t}]".toList = s.toList ++ '[' :: (t.toList ++ [']']) := by
    simp [toString, String.toList_append]
  rw [← String.toList_inj, hlist, hlist, append_cons_inj h h', List.append_left_inj,
    String.toList_inj, String.toList_inj]

theorem fixingRowName_inj {name name' : String} :
    fixingRowName name = fixingRowName name' ↔ name = name' := by
  simp [fixingRowName, toString]

/-- The names of the slack columns of a row. -/
def Sense.slackNames (sense : Sense) (row : String) : List String :=
  match sense with
  | .atMost | .atLeast => [s!"slack[{row}]"]
  | .equal => [s!"slack_pos[{row}]", s!"slack_neg[{row}]"]

theorem Sense.exists_mark_of_mem_slackNames {sense : Sense} {row name : String}
    (h : name ∈ sense.slackNames row) :
    ∃ mark : String, '[' ∉ mark.toList ∧ name = s!"{mark}[{row}]" := by
  cases sense <;> simp only [slackNames, List.mem_cons, List.not_mem_nil, or_false] at h
  case equal =>
    rcases h with rfl | rfl
    · exact ⟨"slack_pos", by decide, rfl⟩
    · exact ⟨"slack_neg", by decide, rfl⟩
  all_goals exact ⟨"slack", by decide, h⟩

theorem Sense.isEmpty_of_mem_slackNames {sense : Sense} {row name : String}
    (h : name ∈ sense.slackNames row) : name.isEmpty = false := by
  obtain ⟨mark, -, rfl⟩ := exists_mark_of_mem_slackNames h
  simp [toString]

theorem Sense.nodup_slackNames (sense : Sense) (row : String) : (sense.slackNames row).Nodup := by
  cases sense <;> simp [slackNames, toString]

/-- Slack columns of different rows have different names. -/
theorem Sense.eq_of_mem_slackNames {sense sense' : Sense} {row row' name : String}
    (h : name ∈ sense.slackNames row) (h' : name ∈ sense'.slackNames row') : row = row' := by
  obtain ⟨mark, hmark, rfl⟩ := exists_mark_of_mem_slackNames h
  obtain ⟨mark', hmark', hsame⟩ := exists_mark_of_mem_slackNames h'
  exact ((bracketed_inj hmark hmark').mp hsame).2

end Names

variable {K : Type} [Scalar K] {m : Model K}

namespace Model

section Slacks

/-- The names of all slack columns that elastic rows need. -/
def slackNames (m : Model K) : List String :=
  m.constraints.toList.flatMap fun c => c.sense.slackNames c.name

omit [Scalar K] in
theorem nodup_slackNames (h : (m.constraints.toList.map (·.name)).Nodup) : m.slackNames.Nodup := by
  refine List.nodup_flatMap.mpr ⟨fun c _ => c.sense.nodup_slackNames c.name, ?_⟩
  refine (List.pairwise_map.mp h).imp fun hne name hname hname' => ?_
  exact hne (Sense.eq_of_mem_slackNames hname hname')

theorem map_slackPlan (m : Model K) : m.slackPlan.map (·.2.1) = m.slackNames := by
  have hcolumns (c : Constraint K) (row : ℕ) :
      (c.sense.slackColumns.map fun column : String × K =>
        (row, s!"{column.1}[{c.name}]", column.2)).map (·.2.1) = c.sense.slackNames c.name := by
    cases c.sense <;> rfl
  change (m.constraints.toList.zipIdx.flatMap fun entry =>
    entry.1.sense.slackColumns.map fun column : String × K =>
      (entry.2, s!"{column.1}[{entry.1.name}]", column.2)).map (·.2.1) = _
  simp only [List.map_flatMap, hcolumns]
  conv_rhs => rw [slackNames, ← List.zipIdx_map_fst 0 m.constraints.toList, List.flatMap_map]

variable [OrderedScalar K] {penalty : K} {name : String} {sign : K} {row : ℕ}

/-- A slack column is refused for its name only. -/
theorem addSlack_eq_ok {added : Model K × ℕ} : m.addSlack penalty row name sign = .ok added ↔
    (name.isEmpty = false ∧ m.variableNamed? name = none) ∧
      added = ({ m with
        vars := m.vars.push (.continuous name (some 0.0) none)
        constraints := m.constraints.modify row fun c =>
          { c with expression := c.expression.addTerm m.vars.size sign }
        objective := m.objective.addTerm m.vars.size penalty }, m.vars.size) := by
  have hbounds : isUndefined (0.0 : K) = false ∧ isUndefined (Scalar.infinity : K) = false ∧
      ¬(Scalar.infinity : K) < 0.0 :=
    have h := OrderedScalar.defined_of_lt (OrderedScalar.zero_lt_infinity (K := K))
    ⟨h.1, h.2, OrderedScalar.lt_asymm OrderedScalar.zero_lt_infinity⟩
  unfold addSlack
  constructor
  · intro h
    obtain ⟨⟨m₁, slack⟩, hvariable, hadded⟩ := bind_eq_ok.mp h
    obtain ⟨hname, hnew, -, rfl, rfl⟩ := addVariable_eq_ok.mp hvariable
    exact ⟨⟨hname, hnew⟩, (Except.ok.inj hadded).symm⟩
  · rintro ⟨⟨hname, hnew⟩, rfl⟩
    exact bind_eq_ok.mpr ⟨_, addVariable_eq_ok.mpr ⟨hname, hnew, hbounds, rfl, rfl⟩, rfl⟩

omit [Scalar K] [OrderedScalar K] in
/-- A new variable is found under its name, whatever becomes of rows and objective. -/
theorem variableNamed?_push {v : Variable K} {constraints : Array (Constraint K)}
    {objective : Expression K} (hnew : m.variableNamed? v.name = none) (name : String) :
    variableNamed? { m with
      vars := m.vars.push v, constraints := constraints, objective := objective } name =
      if name = v.name then some m.vars.size else m.variableNamed? name := by
  unfold variableNamed? at hnew ⊢
  rw [Array.findIdx?_push]
  by_cases hname : name = v.name
  · simp [hname, hnew]
  · simp [hname, Ne.symm hname]

/-- Different slack columns are all added exactly when no variable has the name of one. -/
theorem addSlacks_eq_ok {plan : List (ℕ × String × K)} {slacks : Array ℕ}
    (hnodup : (plan.map (·.2.1)).Nodup) (hempty : ∀ name ∈ plan.map (·.2.1), name.isEmpty = false) :
    (∃ added, (addSlacks penalty plan m slacks).2 = .ok added) ↔
      ∀ name ∈ plan.map (·.2.1), m.variableNamed? name = none := by
  induction plan generalizing m slacks with
  | nil => simp [addSlacks]
  | cons entry plan ih =>
    obtain ⟨row, name, sign⟩ := entry
    rw [List.map_cons, List.nodup_cons] at hnodup
    rw [List.map_cons, List.forall_mem_cons] at hempty ⊢
    rw [addSlacks]
    by_cases hnew : m.variableNamed? name = none
    · rw [addSlack_eq_ok.mpr ⟨⟨hempty.1, hnew⟩, rfl⟩]
      simp only [ih hnodup.2 hempty.2, hnew, true_and]
      refine forall₂_congr fun other hother => ?_
      rw [variableNamed?_push (v := .continuous name (some 0.0) none) hnew, if_neg]
      rintro rfl
      exact hnodup.1 hother
    · cases hadd : m.addSlack penalty row name sign with
      | error e => simp [hnew]
      | ok added => exact absurd (addSlack_eq_ok.mp hadd).1.2 hnew

/-- Rows can be made elastic exactly when the penalty is usable and no variable has the name of a
slack column: the columns never clash with each other. -/
theorem relaxWithPenalty_eq_ok (h : (m.constraints.toList.map (·.name)).Nodup) :
    (∃ slacks, (m.relaxWithPenalty penalty).2 = .ok slacks) ↔
      (isFinite penalty = true ∧ 0.0 < penalty) ∧
        ∀ name ∈ m.slackNames, m.variableNamed? name = none := by
  have hempty : ∀ name ∈ m.slackPlan.map (·.2.1), name.isEmpty = false := by
    rw [map_slackPlan]
    intro name hname
    obtain ⟨c, -, hname⟩ := List.mem_flatMap.mp hname
    exact Sense.isEmpty_of_mem_slackNames hname
  unfold relaxWithPenalty
  split_ifs with hpenalty <;> rw [Bool.and_eq_true, decide_eq_true_iff] at hpenalty
  · rw [addSlacks_eq_ok (map_slackPlan m ▸ nodup_slackNames h) hempty, map_slackPlan]
    exact (and_iff_right hpenalty).symm
  · exact iff_of_false nofun fun h => hpenalty h.1

end Slacks

section FixingRows
variable [OrderedScalar K] {name : String} {index : ℕ} {rows : List (String × ℕ)}
  {added : Model K × List (String × ℕ)} {linking : List String}

/-- A variable that exists gets its fixing row unless the name of the row is taken. -/
theorem addFixingRow_eq_ok : Evaluator.addFixingRow index (m, rows) name = .ok added ↔
    ∃ v, m.variableNamed? name = some v ∧ m.constraintNamed? (fixingRowName name) = none ∧
      added = ({ m with constraints :=
          m.constraints.push ⟨fixingRowName name, .ofVariable v, .equal, 0.0⟩ },
        rows ++ [(name, m.constraints.size)]) := by
  cases hv : m.variableNamed? name with
  | none => simp [Evaluator.addFixingRow, hv]
  | some v =>
    simp only [Evaluator.addFixingRow, hv, Option.some.injEq, exists_eq_left']
    constructor
    · intro h
      obtain ⟨⟨m₁, id⟩, hrow, hadded⟩ := bind_eq_ok.mp h
      obtain ⟨-, hnew, -, -, rfl, rfl⟩ := addConstraint_eq_ok.mp (mapError_eq_ok.mp hrow)
      exact ⟨hnew, (Except.ok.inj hadded).symm⟩
    · rintro ⟨hnew, rfl⟩
      have hlt : v < m.vars.size := (Array.findIdx?_eq_some_iff_getElem.mp hv).choose
      have hover : (Expression.ofVariable v : Expression K).IsOver m.vars.size :=
        Expression.IsOver.addTerm ⟨by simp [Expression.zero, Expression.ofConstant],
          Scalar.isFinite_zero⟩ hlt OrderedScalar.one_finite
      refine bind_eq_ok.mpr ⟨(_, _), mapError_eq_ok.mpr (addConstraint_eq_ok.mpr ?_), rfl⟩
      exact ⟨by simp [fixingRowName, toString], hnew, Scalar.isFinite_zero, hover, rfl, rfl⟩

/-- Fixing rows are all added exactly when they are for different variables and no row has the name
of one. -/
theorem addFixingRows_eq_ok (hnamed : ∀ name ∈ linking, (m.variableNamed? name).isSome) :
    (∃ added, linking.foldlM (Evaluator.addFixingRow index) (m, rows) = .ok added) ↔
      linking.Nodup ∧ ∀ name ∈ linking, m.constraintNamed? (fixingRowName name) = none := by
  induction linking generalizing m rows with
  | nil => simp [pure, Except.pure]
  | cons name linking ih =>
    rw [List.forall_mem_cons] at hnamed
    rw [List.foldlM_cons, List.nodup_cons, List.forall_mem_cons]
    obtain ⟨v, hv⟩ := Option.isSome_iff_exists.mp hnamed.1
    by_cases hnew : m.constraintNamed? (fixingRowName name) = none
    · have hadd : Evaluator.addFixingRow index (m, rows) name = .ok (_, _) :=
        addFixingRow_eq_ok.mpr ⟨v, hv, hnew, rfl⟩
      simp only [bind_eq_ok, hadd, Except.ok.injEq, exists_eq_left']
      refine (ih ?_).trans ?_
      · exact hnamed.2
      -- Among the rows is now that of `name`, which a second one would clash with.
      simp only [constraintNamed?_eq_none_iff, Array.toList_push, List.map_append, List.map_cons,
        List.map_nil, List.mem_append, List.mem_singleton, fixingRowName_inj, not_or] at hnew ⊢
      grind
    · refine iff_of_false (fun ⟨_, h⟩ => ?_) fun h => hnew h.2.1
      obtain ⟨_, hadd, -⟩ := bind_eq_ok.mp h
      obtain ⟨-, -, hnone, -⟩ := addFixingRow_eq_ok.mp hadd
      exact hnew hnone

/-- Fixing rows are equations that come after the other rows; all else stays. They are listed under
the names that they are for. -/
theorem shape_of_addFixingRows
    (h : linking.foldlM (Evaluator.addFixingRow index) (m, rows) = .ok added) :
    added.1.vars = m.vars ∧ added.1.objective = m.objective ∧
      added.1.constraints.toList.map (fun c => (c.sense, c.name)) =
        m.constraints.toList.map (fun c => (c.sense, c.name)) ++
          linking.map (fun name => (.equal, fixingRowName name)) ∧
      added.2.map (·.1) = rows.map (·.1) ++ linking := by
  induction linking generalizing m rows with
  | nil =>
    obtain rfl := Except.ok.inj h
    simp
  | cons name linking ih =>
    rw [List.foldlM_cons] at h
    obtain ⟨_, hadd, h⟩ := bind_eq_ok.mp h
    obtain ⟨v, -, -, rfl⟩ := addFixingRow_eq_ok.mp hadd
    obtain ⟨hvars, hobjective, hrows, hnames⟩ := ih h
    exact ⟨hvars, hobjective, by simpa using hrows, by simpa using hnames⟩

end FixingRows

end Model

end BendersPlanning

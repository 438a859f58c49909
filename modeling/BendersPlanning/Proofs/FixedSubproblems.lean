import BendersPlanning.Operation.Subproblem
import BendersPlanning.Proofs.FeasiblePoints

/-!
# Subproblems at fixed linking values

`Evaluator.modelAt` is the model that an evaluator solves at given values of its linking variables,
whatever it was fixed at before. Fixing an evaluator makes this its active model and changes
`modelAt` nowhere, so an evaluator means the same after any number of iterations.
-/

namespace BendersPlanning

variable {K : Type} [Scalar K]

open Scalar (isFinite entry)

/-- The value at a key, no number without one. -/
def SortedMap.valueAt {κ : Type} [LT κ] [DecidableEq κ] (m : SortedMap κ K) (key : κ) : K :=
  (m.find? key).getD Scalar.undefined

/-- The right-hand sides of a model when some rows are fixed at the values of names. -/
def Model.rhsFixing (m : Model K) (rows : List (String × ℕ)) (values : String → K) : Array K :=
  m.constraints.mapIdx fun i c =>
    match rows.find? (·.2 = i) with
    | some (name, _) => values name
    | none => c.rhs

namespace Evaluator

def modelAt (e : Evaluator K) (values : String → K) : Model K :=
  e.activeModel.withRhs (e.activeModel.rhsFixing e.fixingRows values)

/-- A continuous well-formed active model with one fixing row of its own for every name. -/
structure IsReady (e : Evaluator K) : Prop where
  model : e.activeModel.WellFormed
  continuous : e.activeModel.hasInteger = false
  names : (e.fixingRows.map (·.1)).Nodup
  rows : (e.fixingRows.map (·.2)).Nodup
  bound : ∀ entry ∈ e.fixingRows, entry.2 < e.activeModel.constraints.size

/-- Two evaluators of one subproblem, fixed at whatever values. -/
structure Matches (e e₀ : Evaluator K) : Prop where
  index : e.index = e₀.index
  fixingRows : e.fixingRows = e₀.fixingRows
  modelAt : e.modelAt = e₀.modelAt

end Evaluator

section Fixing
variable {m m' : Model K} {rows : List (String × ℕ)} {values : SortedMap String K}
  {e e' e₀ : Evaluator K} {row : ℕ} {value : K}

theorem Model.getElem?_withRhs (m : Model K) (rhs : Array K) (i : ℕ) :
    (m.withRhs rhs).constraints[i]? =
      m.constraints[i]?.map fun c => { c with rhs := entry rhs i } := by
  simp [withRhs]

theorem Model.entry_rhsFixing {c : Constraint K} {i : ℕ} (hc : m.constraints[i]? = some c)
    (values : String → K) :
    entry (m.rhsFixing rows values) i =
      match rows.find? (·.2 = i) with
      | some (name, _) => values name
      | none => c.rhs := by
  simp [entry, rhsFixing, hc]

/-- Other right-hand sides are read at the rows only. -/
theorem Model.withRhs_congr {old new : Array K} (h : ∀ (i : ℕ) (c : Constraint K),
    m.constraints[i]? = some c → entry old i = entry new i) : m.withRhs old = m.withRhs new := by
  unfold withRhs
  congr 1
  refine Array.ext (by simp) fun i hi _ => ?_
  have hlt : i < m.constraints.size := by simpa using hi
  rw [Array.getElem_mapIdx, Array.getElem_mapIdx, h i _ (Array.getElem?_eq_getElem hlt)]

theorem Model.withRhs_withRhs (m : Model K) (old new : Array K) :
    (m.withRhs old).withRhs new = m.withRhs new := by
  unfold withRhs
  rw [Array.mapIdx_mapIdx]
  rfl

theorem Model.withRhs_modify (m : Model K) (row : ℕ) (value : K) (rhs : Array K) :
    Model.withRhs { m with
      constraints := m.constraints.modify row ({ · with rhs := value }) } rhs = m.withRhs rhs := by
  unfold withRhs
  congr 1
  refine Array.ext (by simp) fun i hi _ => ?_
  rw [Array.getElem_mapIdx, Array.getElem_mapIdx, Array.getElem_modify]
  split_ifs <;> rfl

/-- Fixing the same rows a second time forgets the first values. -/
theorem Model.rhsFixing_withRhs (m : Model K) (rows : List (String × ℕ)) (old new : String → K) :
    (m.withRhs (m.rhsFixing rows old)).rhsFixing rows new = m.rhsFixing rows new := by
  refine Array.ext_getElem? fun i => ?_
  simp only [rhsFixing, Array.getElem?_mapIdx, getElem?_withRhs, Option.map_map]
  cases hc : m.constraints[i]? with
  | none => rfl
  | some c =>
    have hold : entry (m.rhsFixing rows old) i = _ := entry_rhsFixing hc old
    simp only [Option.map_some, Function.comp_apply, rhsFixing] at hold ⊢
    cases hfound : rows.find? (·.2 = i) with
    | some found => rfl
    | none =>
      rw [hfound] at hold
      exact congrArg some hold

namespace Evaluator

theorem Matches.refl (e : Evaluator K) : e.Matches e := ⟨rfl, rfl, rfl⟩

theorem Matches.trans (h : e.Matches e') (h' : e'.Matches e₀) : e.Matches e₀ :=
  ⟨h.index.trans h'.index, h.fixingRows.trans h'.fixingRows, h.modelAt.trans h'.modelAt⟩

theorem fixRow_eq_ok (h : e.fixRow row value = (e', .ok ())) :
    e'.index = e.index ∧ e'.fixingRows = e.fixingRows ∧
      e.activeModel.setRhs row value = .ok e'.activeModel := by
  unfold fixRow at h
  cases hmodel : e.model.setRhs row value with
  | error x => simp [hmodel] at h
  | ok model =>
    cases helastic : e.elastic with
    | none =>
      simp only [hmodel, helastic, Prod.mk.injEq, and_true] at h
      subst h
      exact ⟨rfl, rfl, by simpa [activeModel, helastic] using hmodel⟩
    | some elastic =>
      obtain ⟨elastic, slacks⟩ := elastic
      cases hset : elastic.setRhs row value with
      | error x => simp [hmodel, helastic, hset] at h
      | ok elastic' =>
        simp only [hmodel, helastic, hset, Prod.mk.injEq, and_true] at h
        subst h
        exact ⟨rfl, rfl, by simpa [activeModel, helastic] using hset⟩

/-- Setting one right-hand side first and fixing other rows then fixes all of them. -/
theorem withRhs_rhsFixing_cons {name : String} (hrow : row ∉ rows.map (·.2))
    (hset : m.setRhs row (values.valueAt name) = .ok m') :
    m'.withRhs (m'.rhsFixing rows values.valueAt) =
      m.withRhs (m.rhsFixing ((name, row) :: rows) values.valueAt) := by
  obtain ⟨-, -, rfl⟩ := Model.setRhs_eq_ok.mp hset
  have hfresh : rows.find? (·.2 = row) = none := by
    refine List.find?_eq_none.mpr fun entry hentry hsame => hrow ?_
    exact List.mem_map.mpr ⟨entry, hentry, of_decide_eq_true hsame⟩
  rw [Model.withRhs_modify]
  refine Model.withRhs_congr fun i c hc => ?_
  rw [Model.entry_rhsFixing hc]
  by_cases hi : row = i
  · subst hi
    rw [List.find?_cons_of_pos (by simp),
      Model.entry_rhsFixing (c := { c with rhs := values.valueAt name })
        (by simp [Array.getElem?_modify, hc]), hfresh]
  · rw [List.find?_cons_of_neg (by simpa using hi),
      Model.entry_rhsFixing (c := c) (by simp [Array.getElem?_modify, hc, hi])]

/-- What fixing rows in order does to the active model. -/
theorem fixRows_eq_ok (hrows : (rows.map (·.2)).Nodup) (hm : e.activeModel.WellFormed)
    (h : fixRows values rows e = (e', .ok ())) :
    e'.index = e.index ∧ e'.fixingRows = e.fixingRows ∧ e'.activeModel.WellFormed ∧
      e'.activeModel = e.activeModel.withRhs (e.activeModel.rhsFixing rows values.valueAt) ∧
      ∀ entry ∈ rows, ∃ x, values.find? entry.1 = some x ∧ isFinite x = true := by
  induction rows generalizing e with
  | nil =>
    simp only [fixRows, Prod.mk.injEq, and_true] at h
    subst h
    refine ⟨rfl, rfl, hm, ?_, by simp⟩
    conv_lhs => rw [← e.activeModel.withRhs_rightHandSides]
    refine Model.withRhs_congr fun i c hc => ?_
    rw [Model.entry_rhsFixing hc]
    simp [entry, Model.rightHandSides, hc]
  | cons entry rows ih =>
    obtain ⟨name, row⟩ := entry
    obtain ⟨hfresh, hrest⟩ := List.nodup_cons.mp hrows
    rw [fixRows] at h
    cases hvalue : values.find? name with
    | none => simp [hvalue] at h
    | some value =>
      cases hfix : e.fixRow row value with
      | mk e₁ result =>
        cases result with
        | error x => simp [hvalue, hfix] at h
        | ok u =>
          simp only [hvalue, hfix] at h
          obtain ⟨hindex, hfixing, hset⟩ := fixRow_eq_ok hfix
          have hfinite := (Model.setRhs_eq_ok.mp hset).1
          obtain ⟨hindex', hfixing', hwellFormed, hmodel, hnamed⟩ :=
            ih hrest (hm.setRhs hset) h
          have hat : values.valueAt name = value := by simp [SortedMap.valueAt, hvalue]
          refine ⟨hindex'.trans hindex, hfixing'.trans hfixing, hwellFormed, ?_,
            List.forall_mem_cons.mpr ⟨⟨value, hvalue, hfinite⟩, hnamed⟩⟩
          rw [hmodel, withRhs_rhsFixing_cons hfresh (hat ▸ hset)]

/-- Fixing a row changes neither the list of fixing rows nor the number of rows, of the model and of
the one that is solved. -/
theorem fixRow_sizes (e : Evaluator K) (row : ℕ) (value : K) :
    (e.fixRow row value).1.fixingRows = e.fixingRows ∧
      (e.fixRow row value).1.model.constraints.size = e.model.constraints.size ∧
      (e.fixRow row value).1.activeModel.constraints.size = e.activeModel.constraints.size := by
  unfold fixRow
  cases hmodel : e.model.setRhs row value with
  | error x => exact ⟨rfl, rfl, rfl⟩
  | ok model =>
    obtain ⟨-, -, rfl⟩ := Model.setRhs_eq_ok.mp hmodel
    cases helastic : e.elastic with
    | none => simp [activeModel, helastic]
    | some elastic =>
      cases hset : elastic.1.setRhs row value with
      | error x => simp [hset, activeModel, helastic]
      | ok elastic' =>
        obtain ⟨-, -, rfl⟩ := Model.setRhs_eq_ok.mp hset
        simp [hset, activeModel, helastic]

/-- What fixing one row leaves as it is, fixing all of them does. -/
theorem fixRows_keeps {α : Type} {f : Evaluator K → α}
    (h : ∀ e row value, f (e.fixRow row value).1 = f e) (values : SortedMap String K)
    (rows : List (String × ℕ)) (e : Evaluator K) : f (fixRows values rows e).1 = f e := by
  induction rows generalizing e with
  | nil => rfl
  | cons entry rows ih =>
    obtain ⟨name, row⟩ := entry
    rw [fixRows]
    cases values.find? name with
    | none => rfl
    | some value =>
      have hfirst := h e row value
      dsimp only
      cases hfix : e.fixRow row value with
      | mk e₁ result =>
        rw [hfix] at hfirst
        cases result with
        | error x => exact hfirst
        | ok u => exact (ih e₁).trans hfirst

theorem fixRows_sizes (e : Evaluator K) (values : SortedMap String K) (rows : List (String × ℕ)) :
    (fixRows values rows e).1.fixingRows = e.fixingRows ∧
      (fixRows values rows e).1.model.constraints.size = e.model.constraints.size :=
  ⟨fixRows_keeps (fun e row value => (e.fixRow_sizes row value).1) values rows e,
    fixRows_keeps (f := (·.model.constraints.size))
      (fun e row value => (e.fixRow_sizes row value).2.1) values rows e⟩

/-- A row that the model and its elastic copy have can be fixed at any finite value. -/
theorem exists_fixRow (hmodel : row < e.model.constraints.size)
    (hactive : row < e.activeModel.constraints.size) (hvalue : isFinite value = true) :
    ∃ e', e.fixRow row value = (e', .ok ()) := by
  have hset : e.model.setRhs row value = .ok _ :=
    Model.setRhs_eq_ok.mpr ⟨hvalue, hmodel, rfl⟩
  unfold fixRow
  cases helastic : e.elastic with
  | none => exact ⟨_, by simp only [hset]; rfl⟩
  | some elastic =>
    have hset' : elastic.1.setRhs row value = .ok _ := Model.setRhs_eq_ok.mpr
      ⟨hvalue, by simpa [activeModel, helastic] using hactive, rfl⟩
    exact ⟨_, by simp only [hset, hset']; rfl⟩

theorem exists_fixRows (hrows : ∀ entry ∈ rows,
      entry.2 < e.model.constraints.size ∧ entry.2 < e.activeModel.constraints.size)
    (hvalues : ∀ entry ∈ rows, ∃ x, values.find? entry.1 = some x ∧ isFinite x = true) :
    ∃ e', fixRows values rows e = (e', .ok ()) := by
  induction rows generalizing e with
  | nil => exact ⟨e, rfl⟩
  | cons entry rows ih =>
    obtain ⟨name, row⟩ := entry
    obtain ⟨⟨hmodel, hactive⟩, hrows⟩ := List.forall_mem_cons.mp hrows
    obtain ⟨⟨x, hx, hfinite⟩, hvalues⟩ := List.forall_mem_cons.mp hvalues
    obtain ⟨e₁, hfix⟩ := exists_fixRow hmodel hactive hfinite
    obtain ⟨-, hsize, hsizeActive⟩ := e.fixRow_sizes row x
    rw [hfix] at hsize hsizeActive
    obtain ⟨e', hrest⟩ := ih (e := e₁) (by rwa [hsize, hsizeActive]) hvalues
    exact ⟨e', by simp only [fixRows, hx, hfix, hrest]⟩

/-- A fixed evaluator solves its model at the given values and still means the same. -/
theorem fixAt_eq_ok (he : e.IsReady) (h : e.fixAt values = (e', .ok ())) :
    e'.Matches e ∧ e'.IsReady ∧ e'.activeModel = e.modelAt values.valueAt ∧
      ∀ entry ∈ e.fixingRows, ∃ x, values.find? entry.1 = some x ∧ isFinite x = true := by
  obtain ⟨hindex, hfixing, hwellFormed, hmodel, hnamed⟩ := fixRows_eq_ok he.rows he.model h
  refine ⟨⟨hindex, hfixing, ?_⟩, ⟨hwellFormed, ?_, ?_, ?_, ?_⟩, hmodel, hnamed⟩
  · funext new
    unfold modelAt
    rw [hmodel, hfixing, Model.rhsFixing_withRhs, Model.withRhs_withRhs]
  · rw [hmodel]
    exact he.continuous
  · rw [hfixing]
    exact he.names
  · rw [hfixing]
    exact he.rows
  · rw [hfixing, hmodel]
    simpa [Model.withRhs] using he.bound

end Evaluator

end Fixing

section Preparing

omit [Scalar K] in
theorem Model.hasInteger_relaxIntegrality (m : Model K) :
    m.relaxIntegrality.hasInteger = false := by
  simp [hasInteger, relaxIntegrality]

omit [Scalar K] in
@[simp] theorem Model.variableNamed?_relaxIntegrality (m : Model K) (name : String) :
    m.relaxIntegrality.variableNamed? name = m.variableNamed? name := by
  simp [variableNamed?, relaxIntegrality, Array.findIdx?_map, Function.comp_def]

/-- Slack columns are continuous and leave the number of rows alone. -/
theorem Model.addSlacks_shape (penalty : K) (plan : List (ℕ × String × K)) (m : Model K)
    (slacks : Array ℕ) :
    (Model.addSlacks penalty plan m slacks).1.hasInteger = m.hasInteger ∧
      (Model.addSlacks penalty plan m slacks).1.constraints.size = m.constraints.size := by
  induction plan generalizing m slacks with
  | nil => exact ⟨rfl, rfl⟩
  | cons entry plan ih =>
    obtain ⟨row, name, sign⟩ := entry
    rw [Model.addSlacks]
    split
    · exact ⟨rfl, rfl⟩
    · rename_i m' slack hadd
      obtain ⟨⟨m₁, id⟩, hvariable, hresult⟩ := bind_eq_ok.mp hadd
      obtain ⟨rfl, rfl⟩ := Prod.mk.inj (Except.ok.inj hresult)
      obtain ⟨-, -, -, rfl, rfl⟩ := addVariable_eq_ok.mp hvariable
      obtain ⟨hinteger, hsize⟩ := ih _ (slacks.push m.vars.size)
      refine ⟨hinteger.trans ?_, hsize.trans ?_⟩
      · simp [hasInteger, Variable.continuous]
      · simp

/-- What adding fixing rows keeps: every listed name has a row of its own. -/
structure FixingRowsOf (m : Model K) (rows : List (String × ℕ)) : Prop where
  model : m.WellFormed
  continuous : m.hasInteger = false
  named : ∀ entry ∈ rows, (m.constraints[entry.2]?).map (·.name) = some (fixingRowName entry.1)
  names : (rows.map (·.1)).Nodup
  rows : (rows.map (·.2)).Nodup

theorem FixingRowsOf.lt {m : Model K} {rows : List (String × ℕ)} (h : FixingRowsOf m rows)
    {entry : String × ℕ} (hentry : entry ∈ rows) : entry.2 < m.constraints.size := by
  obtain ⟨c, hc, -⟩ := Option.map_eq_some_iff.mp (h.named entry hentry)
  exact (Array.getElem?_eq_some_iff.mp hc).choose

theorem FixingRowsOf.addFixingRow {m m' : Model K} {rows rows' : List (String × ℕ)} {index : ℕ}
    {name : String} (h : FixingRowsOf m rows)
    (hadd : Evaluator.addFixingRow index (m, rows) name = .ok (m', rows')) :
    FixingRowsOf m' rows' := by
  unfold Evaluator.addFixingRow at hadd
  cases hv : m.variableNamed? name with
  | none => simp [hv] at hadd
  | some v =>
    simp only [hv] at hadd
    obtain ⟨⟨m₁, id⟩, hrow, hresult⟩ := bind_eq_ok.mp hadd
    rw [mapError_eq_ok] at hrow
    obtain ⟨rfl, rfl⟩ := Prod.mk.inj (Except.ok.inj hresult)
    have hwellFormed := h.model.addConstraint hrow
    obtain ⟨-, hnew, -, -, rfl, rfl⟩ := Model.addConstraint_eq_ok.mp hrow
    refine ⟨hwellFormed, h.continuous, fun entry hentry => ?_, ?_, ?_⟩
    · rcases List.mem_append.mp hentry with hentry | hentry
      · have hold := h.lt hentry
        simpa [Array.getElem?_push, hold.ne] using h.named entry hentry
      · obtain rfl := List.mem_singleton.mp hentry
        simp
    · rw [List.map_append, List.map_singleton]
      refine List.nodup_append.mpr ⟨h.names, List.pairwise_singleton _ _, ?_⟩
      rintro _ hmem _ hname rfl
      -- A repeated name would need a second row of the same name.
      obtain ⟨entry, hentry, hsame⟩ := List.mem_map.mp hmem
      obtain ⟨c, hc, hcname⟩ := Option.map_eq_some_iff.mp (h.named entry hentry)
      refine Model.constraintNamed?_eq_none_iff.mp hnew (List.mem_map.mpr ⟨c, ?_, ?_⟩)
      · exact Array.mem_toList_iff.mpr (Array.mem_of_getElem? hc)
      · rw [hcname, hsame, List.mem_singleton.mp hname]
    · rw [List.map_append, List.map_singleton]
      refine List.nodup_append.mpr ⟨h.rows, List.pairwise_singleton _ _, ?_⟩
      rintro id hmem _ hid rfl
      obtain ⟨entry, hentry, rfl⟩ := List.mem_map.mp hmem
      have hold := h.lt hentry
      rw [List.mem_singleton.mp hid] at hold
      exact lt_irrefl _ hold

theorem FixingRowsOf.addFixingRows {m : Model K} {index : ℕ} {linking : List String}
    {prepared : Model K × List (String × ℕ)} (hm : m.WellFormed)
    (h : linking.foldlM (Evaluator.addFixingRow index) (m.relaxIntegrality, []) = .ok prepared) :
    FixingRowsOf prepared.1 prepared.2 := by
  refine foldlM_eq_ok (P := fun state => FixingRowsOf state.1 state.2)
    (fun state name state' _ hstate hadd => hstate.addFixingRow hadd) ?_ h
  exact ⟨hm.relaxIntegrality, m.hasInteger_relaxIntegrality, nofun, .nil, .nil⟩

/-- A prepared subproblem: fixing rows were added to its model, and slacks to the copy that is
solved if there is a penalty. -/
theorem Evaluator.ofSubproblem_cases {s : Subproblem K} {automatic : Bool} {e : Evaluator K}
    (h : ofSubproblem s automatic = .ok e) :
    s.linking.foldlM (addFixingRow s.index) (s.model.relaxIntegrality, []) =
        .ok (e.model, e.fixingRows) ∧ e.index = s.index ∧
      (e.activeModel = e.model ∨ ∃ penalty slacks,
        e.model.relaxWithPenalty penalty = (e.activeModel, .ok slacks)) := by
  obtain ⟨⟨model, rows⟩, hfixing, h⟩ := bind_eq_ok.mp h
  simp only at h
  split at h
  · obtain rfl := Except.ok.inj h
    exact ⟨hfixing, rfl, .inl rfl⟩
  · rename_i penalty hpenalty
    cases helastic : model.relaxWithPenalty penalty with
    | mk elastic result =>
      cases result with
      | error x => simp [helastic] at h
      | ok slacks =>
        simp only [helastic] at h
        obtain rfl := Except.ok.inj h
        exact ⟨hfixing, rfl, .inr ⟨penalty, slacks, helastic⟩⟩

/-- Slacks leave the kind of the variables and the number of rows alone. -/
theorem Model.shape_of_relaxWithPenalty {m m' : Model K} {penalty : K} {slacks : Array ℕ}
    (h : m.relaxWithPenalty penalty = (m', .ok slacks)) :
    m'.hasInteger = m.hasInteger ∧ m'.constraints.size = m.constraints.size := by
  unfold relaxWithPenalty at h
  split_ifs at h
  · have hshape := addSlacks_shape penalty m.slackPlan m #[]
    rwa [h] at hshape
  · cases h

end Preparing

theorem Evaluator.isReady_of_ofSubproblem {s : Subproblem Exact} {automatic : Bool}
    {e : Evaluator Exact} (hs : s.model.WellFormed) (h : ofSubproblem s automatic = .ok e) :
    e.IsReady ∧ e.index = s.index := by
  obtain ⟨hfixing, hindex, hactive⟩ := ofSubproblem_cases h
  have hrows : FixingRowsOf e.model e.fixingRows := .addFixingRows hs hfixing
  refine ⟨?_, hindex⟩
  obtain hsame | ⟨penalty, slacks, helastic⟩ := hactive
  · exact ⟨hsame ▸ hrows.model, hsame ▸ hrows.continuous, hrows.names, hrows.rows,
      fun _ hentry => hsame ▸ hrows.lt hentry⟩
  · obtain ⟨hinteger, hsize⟩ := Model.shape_of_relaxWithPenalty helastic
    have hwellFormed := hrows.model.relaxWithPenalty penalty
    rw [helastic] at hwellFormed
    exact ⟨hwellFormed, hinteger.trans hrows.continuous, hrows.names, hrows.rows,
      fun _ hentry => hsize ▸ hrows.lt hentry⟩

/-- Only numbers can be fixed: a row with a right-hand side that is no number holds nowhere. -/
theorem Evaluator.value_ne_undefined {e : Evaluator Exact} {values : String → Exact}
    {operation : Array Exact} (he : e.IsReady) (h : (e.modelAt values).Feasible operation)
    {fixed : String × ℕ} (hfixed : fixed ∈ e.fixingRows) : values fixed.1 ≠ .undefined := by
  intro hvalue
  obtain ⟨found, hfound⟩ : ∃ found, e.fixingRows.find? (·.2 = fixed.2) = some found := by
    rw [← Option.isSome_iff_exists, List.find?_isSome]
    exact ⟨fixed, hfixed, by simp⟩
  have hsame : found = fixed := by
    have hmem := List.mem_of_find?_eq_some hfound
    have hrow : found.2 = fixed.2 := by simpa using List.find?_some hfound
    exact List.inj_on_of_nodup_map he.rows hmem hfixed hrow
  have hc := Array.getElem?_eq_getElem (he.bound fixed hfixed)
  have hrhs : Scalar.entry (e.activeModel.rhsFixing e.fixingRows values) fixed.2 = .undefined := by
    rw [Model.entry_rhsFixing hc, hfound, hsame]
    exact hvalue
  have hholds := h.rows _ (Array.mem_of_getElem? ((Model.getElem?_withRhs _ _ fixed.2).trans
    (by rw [hc, Option.map_some])))
  rw [hrhs] at hholds
  have hnever : ∀ x : Exact, ¬x ≤ .undefined ∧ ¬Exact.undefined ≤ x := by
    intro x
    cases x <;> constructor <;> rintro (h | h) <;> cases h
  unfold Constraint.Holds at hholds
  split at hholds
  · exact (hnever _).1 hholds
  · exact (hnever _).2 hholds
  · exact (hnever _).1 hholds.1

/-- The active model depends on the values of the fixed names only. -/
theorem Evaluator.modelAt_congr {e : Evaluator Exact} {old new : String → Exact}
    (h : ∀ fixed ∈ e.fixingRows, old fixed.1 = new fixed.1) : e.modelAt old = e.modelAt new := by
  apply Model.withRhs_congr
  intro i c hc
  rw [Model.entry_rhsFixing hc, Model.entry_rhsFixing hc]
  cases hfound : e.fixingRows.find? (·.2 = i) with
  | none => rfl
  | some fixed => exact h fixed (List.mem_of_find?_eq_some hfound)

end BendersPlanning

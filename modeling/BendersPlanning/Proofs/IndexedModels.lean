import BendersPlanning.Proofs.EditedModels
import BendersPlanning.Proofs.RunBounds
import BendersPlanning.Proofs.ExactBackends

/-!
# Models with stored names

A program that edits a model in place keeps the positions of all names beside the data, looks names up
there, and writes data and names separately. Such edits are written out here over a state that stays
when an edit fails. What they leave and answer is what the edits of `Model` say, and the stored names
are the look-ups in the data (`IndexedModel.Indexes`), so nothing is lost when a model is written out
without its names and built anew.
-/

namespace BendersPlanning

open Scalar (isFinite isUndefined)

variable {K : Type} [Scalar K]

section Meaning

/-- A model with the positions of its names. -/
structure IndexedModel (K : Type) where
  data : Model K
  variableIds : SortedMap String ℕ
  constraintIds : SortedMap String ℕ
  deriving DecidableEq

/-- A call that changes an indexed model in place; changes stay where it fails later on. -/
abbrev InPlace (K α : Type) := ExceptT (ModelError K) (StateM (IndexedModel K)) α

namespace InPlace

/-- An edit of the data alone. -/
def onData (edit : Model K → Except (ModelError K) (Model K)) : InPlace K Unit := do
  let s ← get
  match edit s.data with
  | .error e => throw e
  | .ok data => set { s with data := data }

def addVariable (v : Variable K) : InPlace K ℕ := do
  let s ← get
  if v.name.isEmpty then throw (.invalid .unnamedVariable)
  else if (s.variableIds.find? v.name).isSome then throw (.invalid (.duplicateVariable v.name))
  else if isUndefined v.lowerBound || isUndefined v.upperBound || v.upperBound < v.lowerBound then
    throw (.invalid (.inconsistentBounds v.name v.lowerBound v.upperBound))
  else do
    modify fun s => { s with variableIds := s.variableIds.insert v.name s.data.vars.size }
    modify fun s => { s with data := { s.data with vars := s.data.vars.push v } }
    return s.data.vars.size

def addConstraint (c : Constraint K) : InPlace K ℕ := do
  let s ← get
  if c.name.isEmpty then throw (.invalid .unnamedConstraint)
  else if (s.constraintIds.find? c.name).isSome then throw (.invalid (.duplicateConstraint c.name))
  else if !isFinite c.rhs then throw (.invalid (.nonFiniteRhs c.name))
  else match s.data.checkExpression c.expression c.name with
    | .error e => throw e
    | .ok () => do
      modify fun s =>
        { s with constraintIds := s.constraintIds.insert c.name s.data.constraints.size }
      modify fun s => { s with data := { s.data with constraints := s.data.constraints.push c } }
      return s.data.constraints.size

def addSlack (penalty : K) (row : ℕ) (name : String) (sign : K) : InPlace K ℕ := do
  let slack ← addVariable (.continuous name (some 0.0) none)
  modify fun s =>
    { s with data := { s.data with
      constraints := s.data.constraints.modify row fun c =>
        { c with expression := c.expression.addTerm slack sign }
      objective := s.data.objective.addTerm slack penalty } }
  return slack

def addSlacks (penalty : K) : List (ℕ × String × K) → Array ℕ → InPlace K (Array ℕ)
  | [], slacks => return slacks
  | (row, name, sign) :: rest, slacks => do
    let slack ← addSlack penalty row name sign
    addSlacks penalty rest (slacks.push slack)

def relaxWithPenalty (penalty : K) : InPlace K (Array ℕ) := do
  if isFinite penalty && 0.0 < penalty then addSlacks penalty (← get).data.slackPlan #[]
  else throw (.invalid (.unusablePenalty penalty))

/-- A call without what it answers. -/
def forget {α : Type} (call : InPlace K α) : InPlace K Unit := do
  let _ ← call
  return ()

def edit : Edit K → InPlace K Unit
  | .addVariable v => forget (addVariable v)
  | .addConstraint c => forget (addConstraint c)
  | .setObjective e => forget (onData (·.setObjective e))
  | .setQuadratic weights => forget (onData (·.setQuadratic weights))
  | .addExpression name e => forget (onData (·.addExpression name e))
  | .setRhs row rhs => forget (onData (·.setRhs row rhs))
  | .relaxIntegrality => forget (onData fun m => .ok m.relaxIntegrality)
  | .relaxWithPenalty penalty => forget (relaxWithPenalty penalty)

end InPlace

namespace IndexedModel

def empty : IndexedModel K := ⟨.empty, .empty, .empty⟩

/-- The model after an edit, and whether the edit was refused. -/
def tried (s : IndexedModel K) (e : Edit K) : IndexedModel K × Except (ModelError K) Unit :=
  ((InPlace.edit e).run.run s).run.swap

def afterEdits (edits : List (Edit K)) : IndexedModel K :=
  edits.foldl (fun s e => (s.tried e).1) .empty

/-- The edits that build a model from its parts. -/
def parts (m : Model K) : List (Edit K) :=
  m.vars.toList.map .addVariable ++ (m.constraints.toList.map .addConstraint ++
    (.setObjective m.objective :: .setQuadratic m.quadratic ::
      m.expressions.entries.map fun e => .addExpression e.1 e.2))

/-- The indexed model with the given data, built part by part up to the first that is refused. -/
def ofData (m : Model K) : Except (ModelError K) (IndexedModel K) :=
  match ((forM (parts m) InPlace.edit).run.run .empty).run with
  | (.ok (), s) => .ok s
  | (.error e, _) => .error e

/-- The stored names are the look-ups in the data. -/
structure Indexes (s : IndexedModel K) (m : Model K) : Prop where
  data : s.data = m
  variableIds : ∀ name, s.variableIds.find? name = m.variableNamed? name
  constraintIds : ∀ name, s.constraintIds.find? name = m.constraintNamed? name

/-- A call answers what an edit of the data does, and leaves its model or, refused, nothing new. -/
def Follows {α : Type} (s : IndexedModel K) (call : InPlace K α) :
    Except (ModelError K) (Model K × α) → Prop
  | .ok (m, a) => ∃ s', Yields call s a s' ∧ s'.Indexes m
  | .error e => Fails call s e s

end IndexedModel

end Meaning

namespace IndexedModel

section Following
variable {s s' : IndexedModel K} {m m' : Model K} {α : Type}

omit [Scalar K] in
/-- A model has one index only. -/
theorem Indexes.unique (h : s.Indexes m) (h' : s'.Indexes m) : s = s' := by
  obtain ⟨data, variableIds, constraintIds⟩ := s
  obtain ⟨data', variableIds', constraintIds'⟩ := s'
  obtain rfl : data = data' := h.data.trans h'.data.symm
  obtain rfl : variableIds = variableIds' :=
    SortedMap.ext_find? fun name => (h.variableIds name).trans (h'.variableIds name).symm
  obtain rfl : constraintIds = constraintIds' :=
    SortedMap.ext_find? fun name => (h.constraintIds name).trans (h'.constraintIds name).symm
  rfl

omit [Scalar K] in
theorem follows_get {f : IndexedModel K → InPlace K α} {outcome} (h : s.Follows (f s) outcome) :
    s.Follows (get >>= f) outcome := by
  cases outcome <;> exact h

theorem addVariable_follows (h : s.Indexes m) (v : Variable K) :
    s.Follows (InPlace.addVariable v) (m.addVariable v) := by
  obtain ⟨rfl, hvars, hrows⟩ := h
  refine follows_get ?_
  unfold Model.addVariable
  rw [hvars]
  split_ifs with hempty hknown hbounds
  · rfl
  · rfl
  · rfl
  · have hnew : s.data.variableNamed? v.name = none := by simpa using hknown
    refine ⟨_, rfl, rfl, fun name => ?_, hrows⟩
    rw [Model.variableNamed?_push hnew, ← hvars]
    exact SortedMap.find?_alter _ _ _ _

theorem addConstraint_follows (h : s.Indexes m) (c : Constraint K) :
    s.Follows (InPlace.addConstraint c) (m.addConstraint c) := by
  obtain ⟨rfl, hvars, hrows⟩ := h
  refine follows_get ?_
  unfold Model.addConstraint
  rw [hrows]
  split_ifs with hempty hknown hrhs
  · rfl
  · rfl
  · rfl
  · cases s.data.checkExpression c.expression c.name with
    | error e => rfl
    | ok u =>
      have hnew : s.data.constraintNamed? c.name = none := by simpa using hknown
      refine ⟨_, rfl, rfl, hvars, fun name => ?_⟩
      rw [Model.constraintNamed?_push hnew, ← hrows]
      exact SortedMap.find?_alter _ _ _ _

omit [Scalar K] in
/-- An edit of the data alone leaves the names in place if it keeps them. -/
theorem onData_follows {edit : Model K → Except (ModelError K) (Model K)} (h : s.Indexes m)
    (hkeeps : ∀ m', edit m = .ok m' → ∀ name, m'.variableNamed? name = m.variableNamed? name ∧
      m'.constraintNamed? name = m.constraintNamed? name) :
    s.Follows (InPlace.onData edit) ((·, ()) <$> edit m) := by
  obtain ⟨rfl, hvars, hrows⟩ := h
  refine follows_get ?_
  cases hedit : edit s.data with
  | error e => rfl
  | ok m' =>
    have hnames := hkeeps m' hedit
    exact ⟨_, rfl, rfl, fun name => (hvars name).trans (hnames name).1.symm,
      fun name => (hrows name).trans (hnames name).2.symm⟩

theorem addSlack_follows (h : s.Indexes m) (penalty : K) (row : ℕ) (name : String) (sign : K) :
    s.Follows (InPlace.addSlack penalty row name sign) (m.addSlack penalty row name sign) := by
  have hvariable := addVariable_follows h (.continuous name (some 0.0) none)
  unfold Model.addSlack
  cases hadd : m.addVariable (.continuous name (some 0.0) none) with
  | error e =>
    rw [hadd] at hvariable
    exact fails_bind.mpr (.inl hvariable)
  | ok added =>
    obtain ⟨m₁, slack⟩ := added
    rw [hadd] at hvariable
    obtain ⟨s₁, hyields, rfl, hvars, hrows⟩ := hvariable
    refine ⟨_, yields_bind.mpr ⟨slack, s₁, hyields, rfl⟩, rfl, hvars, fun name => ?_⟩
    rw [hrows]
    symm
    exact Model.constraintNamed?_modify row
      (fun c => { c with expression := c.expression.addTerm slack sign }) (fun _ => rfl) name

/-- What a call leaves and answers is what an edit of the data does. -/
def Leaves (s : IndexedModel K) (call : InPlace K α)
    (outcome : Model K × Except (ModelError K) α) : Prop :=
  ∃ s', Answers call.run s outcome.2 s' ∧ s'.Indexes outcome.1

omit [Scalar K] in
theorem Leaves.bind {β : Type} {call : InPlace K α} {f : α → InPlace K β} {a : α}
    {outcome : Model K × Except (ModelError K) β} (h : s.Leaves call (m', .ok a))
    (hf : ∀ s' : IndexedModel K, s'.Indexes m' → s'.Leaves (f a) outcome) :
    s.Leaves (call >>= f) outcome := by
  obtain ⟨s', hcall, h'⟩ := h
  obtain ⟨s'', hrest, h''⟩ := hf s' h'
  refine ⟨s'', ?_, h''⟩
  rw [ExceptT.run_bind, answers_bind]
  exact ⟨_, _, hcall, hrest⟩

theorem addSlacks_leaves (penalty : K) (plan : List (ℕ × String × K)) (slacks : Array ℕ)
    (h : s.Indexes m) :
    s.Leaves (InPlace.addSlacks penalty plan slacks) (m.addSlacks penalty plan slacks) := by
  induction plan generalizing s m slacks with
  | nil => exact ⟨s, rfl, h⟩
  | cons entry plan ih =>
    obtain ⟨row, name, sign⟩ := entry
    have hslack := addSlack_follows h penalty row name sign
    rw [InPlace.addSlacks, Model.addSlacks]
    cases hadd : m.addSlack penalty row name sign with
    | error e =>
      rw [hadd] at hslack
      exact ⟨s, fails_bind.mpr (.inl hslack), h⟩
    | ok added =>
      obtain ⟨m₁, slack⟩ := added
      rw [hadd] at hslack
      exact Leaves.bind hslack fun s₁ h₁ => ih (slacks.push slack) h₁

theorem relaxWithPenalty_leaves (penalty : K) (h : s.Indexes m) :
    s.Leaves (InPlace.relaxWithPenalty penalty) (m.relaxWithPenalty penalty) := by
  unfold InPlace.relaxWithPenalty Model.relaxWithPenalty
  split_ifs
  · obtain ⟨s', hadds, h'⟩ := addSlacks_leaves penalty m.slackPlan #[] h
    exact ⟨s', h.data ▸ hadds, h'⟩
  · exact ⟨s, rfl, h⟩

omit [Scalar K] in
theorem Leaves.forget {call : InPlace K α} {result : Except (ModelError K) α}
    (h : s.Leaves call (m', result)) :
    s.Leaves (InPlace.forget call) (m', result.map fun _ => ()) := by
  obtain ⟨s', hanswers, h'⟩ := h
  refine ⟨s', ?_, h'⟩
  cases result with
  | error e => exact fails_bind.mpr (.inl hanswers)
  | ok a => exact yields_bind.mpr ⟨a, s', hanswers, rfl⟩

omit [Scalar K] in
theorem Follows.leaves {call : InPlace K α} {outcome : Except (ModelError K) (Model K × α)}
    (h : s.Indexes m) (hfollows : s.Follows call outcome) :
    s.Leaves (InPlace.forget call) (m.settled ((·.1) <$> outcome)) := by
  cases outcome with
  | error e =>
    have hleaves : s.Leaves call (m, .error e) := ⟨s, hfollows, h⟩
    exact hleaves.forget
  | ok result =>
    obtain ⟨s', hyields, h'⟩ := hfollows
    have hleaves : s.Leaves call (result.1, .ok result.2) := ⟨s', hyields, h'⟩
    exact hleaves.forget

omit [Scalar K] in
/-- An edit of the data alone that keeps the names. -/
theorem onData_leaves {edit : Model K → Except (ModelError K) (Model K)} (h : s.Indexes m)
    (hkeeps : ∀ m', edit m = .ok m' → ∀ name, m'.variableNamed? name = m.variableNamed? name ∧
      m'.constraintNamed? name = m.constraintNamed? name) :
    s.Leaves (InPlace.forget (.onData edit)) (m.settled (edit m)) := by
  have hleaves := (onData_follows h hkeeps).leaves h
  rwa [Functor.map_map, show (fun a : Model K => (a, ()).1) = id from rfl, id_map] at hleaves

/-- An edit in place leaves and answers what the edit of the data does. -/
theorem edit_leaves (h : s.Indexes m) (e : Edit K) : s.Leaves (InPlace.edit e) (m.tried e) := by
  cases e with
  | addVariable v => exact (addVariable_follows h v).leaves h
  | addConstraint c => exact (addConstraint_follows h c).leaves h
  | setObjective objective =>
    refine onData_leaves h fun m' hset name => ?_
    obtain ⟨-, rfl⟩ := Model.setObjective_eq_ok.mp hset
    exact ⟨rfl, rfl⟩
  | setQuadratic weights =>
    refine onData_leaves h fun m' hset name => ?_
    obtain ⟨-, rfl⟩ := Model.setQuadratic_eq_ok.mp hset
    exact ⟨rfl, rfl⟩
  | addExpression key expression =>
    refine onData_leaves h fun m' hadd name => ?_
    obtain ⟨-, rfl⟩ := Model.addExpression_eq_ok.mp hadd
    exact ⟨rfl, rfl⟩
  | setRhs row rhs =>
    refine onData_leaves h fun m' hset name => ?_
    obtain ⟨-, -, rfl⟩ := Model.setRhs_eq_ok.mp hset
    exact ⟨rfl, Model.constraintNamed?_modify row ({ · with rhs := rhs }) (fun _ => rfl) name⟩
  | relaxIntegrality =>
    refine onData_leaves h fun m' hrelax name => ?_
    cases hrelax
    exact ⟨m.variableNamed?_relaxIntegrality name, rfl⟩
  | relaxWithPenalty penalty => exact (relaxWithPenalty_leaves penalty h).forget

theorem tried_indexes (h : s.Indexes m) (e : Edit K) :
    (s.tried e).2 = (m.tried e).2 ∧ (s.tried e).1.Indexes (m.tried e).1 := by
  obtain ⟨s', hanswers, h'⟩ := edit_leaves h e
  unfold IndexedModel.tried
  rw [hanswers]
  exact ⟨rfl, h'⟩

/-- Any edits leave a model with the names of the model that the same edits of the data leave. -/
theorem afterEdits_indexes (edits : List (Edit K)) :
    (afterEdits edits).Indexes (Model.afterEdits edits) := by
  induction edits using List.reverseRecOn with
  | nil =>
    refine ⟨rfl, fun _ => ?_, fun _ => ?_⟩
    · exact (Model.variableNamed?_eq_none_iff.mpr List.not_mem_nil).symm
    · exact (Model.constraintNamed?_eq_none_iff.mpr List.not_mem_nil).symm
  | append_singleton edits e ih =>
    rw [afterEdits, Model.afterEdits, List.foldl_append, List.foldl_append]
    exact (tried_indexes ih e).2

end Following

section Rebuilding
variable {s : IndexedModel K} {m m' : Model K}

theorem edit_leaves_of_ok (e : Edit K) {outcome : Except (ModelError K) (Model K)}
    (h : s.Indexes m) (he : m.tried e = m.settled outcome) (hok : outcome = .ok m') :
    s.Leaves (InPlace.edit e) (m', .ok ()) := by
  have hedit := edit_leaves h e
  rwa [he, hok] at hedit

/-- Edits that all succeed on the data succeed in place. -/
theorem forM_edit_leaves {α : Type} {part : α → Edit K}
    {step : Model K → α → Except (ModelError K) (Model K)}
    (hpart : ∀ (m : Model K) a, m.tried (part a) = m.settled (step m a)) {xs : List α}
    (h : s.Indexes m) (hfold : xs.foldlM step m = .ok m') :
    s.Leaves (forM (xs.map part) InPlace.edit) (m', .ok ()) := by
  induction xs generalizing s m with
  | nil =>
    cases hfold
    exact ⟨s, rfl, h⟩
  | cons x xs ih =>
    rw [List.foldlM_cons, bind_eq_ok] at hfold
    obtain ⟨m₁, hstep, hrest⟩ := hfold
    exact (edit_leaves_of_ok (part x) h (hpart m x) hstep).bind fun s₁ h₁ => ih h₁ hrest

/-- A well-formed model is rebuilt from its data, names included. -/
theorem ofData_eq (hm : m.WellFormed) (h : s.Indexes m) : ofData m = .ok s := by
  have hvars := hm.foldlM_addVariable .empty rfl
  have hrows := hm.foldlM_addConstraint { Model.empty with vars := m.vars } rfl rfl
  have hobjective : ({ Model.empty with vars := m.vars, constraints := m.constraints } :
      Model K).setObjective m.objective = .ok { m with quadratic := #[], expressions := .empty } :=
    Model.setObjective_eq_ok.mpr ⟨hm.objective, rfl⟩
  have hquadratic : ({ m with quadratic := #[], expressions := .empty } : Model K).setQuadratic
      m.quadratic = .ok { m with expressions := .empty } :=
    Model.setQuadratic_eq_ok.mpr ⟨hm.quadratic, rfl⟩
  have hexpressions := hm.foldlM_addExpression { m with expressions := .empty } rfl rfl
  rw [← Array.foldlM_toList] at hvars hrows
  have hparts : IndexedModel.empty.Leaves (forM (parts m) InPlace.edit) (m, .ok ()) := by
    rw [parts, List.forM_append]
    refine (forM_edit_leaves (fun _ _ => rfl) (afterEdits_indexes []) hvars).bind fun s₁ h₁ => ?_
    rw [List.forM_append]
    refine (forM_edit_leaves (fun _ _ => rfl) h₁ hrows).bind fun s₂ h₂ => ?_
    refine (edit_leaves_of_ok (.setObjective m.objective) h₂ rfl hobjective).bind fun s₃ h₃ => ?_
    refine (edit_leaves_of_ok (.setQuadratic m.quadratic) h₃ rfl hquadratic).bind fun s₄ h₄ => ?_
    exact forM_edit_leaves (fun _ _ => rfl) h₄ hexpressions
  obtain ⟨s', hanswers, h'⟩ := hparts
  rw [ofData, hanswers, h'.unique h]

end Rebuilding

end IndexedModel

section Main
variable [LinearScalar K]

/-- Whatever edits are tried on a model, refused or not, what they leave is well-formed, its stored
names are those of its variables and rows, and a refused edit other than making rows elastic changes
nothing. So the model is rebuilt from its own data, stored names included, and a planning problem
from its own parts, whichever cuts were added or refused meanwhile. -/
theorem edited_models_rebuild (edits : List (Edit K)) :
    let s := IndexedModel.afterEdits edits
    s.data = .afterEdits edits ∧ s.data.WellFormed ∧
      (∀ v ∈ s.data.vars, v.lowerBound ≤ v.upperBound) ∧ (∀ t ∈ s.data.quadratic, 0.0 ≤ t.2) ∧
      (∀ name id, s.variableIds.find? name = some id ↔
        s.data.vars[id]?.map (·.name) = some name) ∧
      (∀ name id, s.constraintIds.find? name = some id ↔
        s.data.constraints[id]?.map (·.name) = some name) ∧
      (∀ e : Edit K, (s.tried e).2 = (s.data.tried e).2 ∧ (s.tried e).1.data = (s.data.tried e).1 ∧
        ((∀ penalty, e ≠ .relaxWithPenalty penalty) →
          ∀ error, (s.tried e).2 = .error error → (s.tried e).1 = s)) ∧
      Model.ofParts s.data.vars s.data.constraints s.data.objective s.data.quadratic
        s.data.expressions = .ok s.data ∧
      IndexedModel.ofData s.data = .ok s ∧
      ∀ (m : Model K) fixedCost theta p, PlanningProblem.ofModel m fixedCost theta = .ok p →
        ∀ batches, PlanningProblem.ofModel (p.afterCuts batches).model
          (p.afterCuts batches).fixedCost (p.afterCuts batches).theta =
            .ok (p.afterCuts batches) := by
  intro s
  have hindexes := IndexedModel.afterEdits_indexes edits
  have hm : s.data.WellFormed := hindexes.data ▸ Model.WellFormed.afterEdits edits
  have hs : s.Indexes s.data := ⟨rfl, hindexes.data ▸ hindexes.variableIds,
    hindexes.data ▸ hindexes.constraintIds⟩
  refine ⟨hindexes.data, hm, fun v hv => hm.lowerBound_le_upperBound hv,
    fun t ht => hm.weight_nonneg ht, fun name id => ?_, fun name id => ?_,
    fun e => ?_, hm.ofParts_eq, IndexedModel.ofData_eq hm hs,
    fun m fixedCost theta p hp batches => PlanningProblem.ofModel_afterCuts hp batches⟩
  · rw [hs.variableIds, hm.variableNamed?_eq_some_iff]
  · rw [hs.constraintIds, hm.constraintNamed?_eq_some_iff]
  · obtain ⟨hanswer, hafter⟩ := IndexedModel.tried_indexes hs e
    refine ⟨hanswer, hafter.data, fun he error herror => ?_⟩
    rw [Model.tried_of_error he (hanswer ▸ herror)] at hafter
    exact hafter.unique hs

open Exact (number)

/-- Edits of which three are refused: a second variable of one name, a right-hand side of no row, and
a slack column whose name is taken, after the one before it was added. -/
def elasticEdits : List (Edit Exact) :=
  [.addVariable (.continuous "level" (some (number 0)) (some (number 4))),
    .addVariable (.continuous "level" none none),
    .addVariable (.continuous "slack_neg[balance]" none none),
    .addConstraint ⟨"balance", ⟨#[(0, number 1)], number 0⟩, .equal, number 3⟩,
    .setRhs 1 (number 2),
    .relaxWithPenalty (number 5)]

/-- A cut that is added to a planning problem once and refused the second time, with the cut after
it. -/
def levelCuts : List (Cut Exact) :=
  let cut : Cut Exact :=
    ⟨"feas_cut[1,0]", .feasibility, some 0, none, .ofList [("level", number 1)], number 3⟩
  [cut, cut, { cut with name := "feas_cut[1,1]" }]

theorem elastic_model_rebuilds :
    let s := IndexedModel.afterEdits elasticEdits
    (s.data.vars.map (·.name) = #["level", "slack_neg[balance]", "slack_pos[balance]"] ∧
      (s.tried (.setRhs 1 (number 2))).2 = .error (.unknownConstraint "c1") ∧
      (s.tried (.setRhs 1 (number 2))).1 = s ∧ IndexedModel.ofData s.data = .ok s) ∧
    ∃ p, PlanningProblem.ofModel s.data (.ofVariable 2) #[0] = .ok p ∧
      (p.afterCuts [levelCuts]).cutCount = 1 ∧
      PlanningProblem.ofModel (p.afterCuts [levelCuts]).model (p.afterCuts [levelCuts]).fixedCost
        (p.afterCuts [levelCuts]).theta = .ok (p.afterCuts [levelCuts]) := by
  intro s
  obtain ⟨-, -, -, -, -, -, htried, -, hrebuilt, hplanning⟩ :=
    edited_models_rebuild elasticEdits
  obtain ⟨-, -, hrefused⟩ := htried (.setRhs 1 (number 2))
  have herror : (s.tried (.setRhs 1 (number 2))).2 = .error (.unknownConstraint "c1") := by
    decide +kernel
  obtain ⟨p, hp, hcount⟩ := exists_ok_of_any
    (x := PlanningProblem.ofModel s.data (.ofVariable 2) #[0])
    (P := fun p => (p.afterCuts [levelCuts]).cutCount = 1) (by decide +kernel)
  exact ⟨⟨by decide +kernel, herror, hrefused (fun _ => nofun) _ herror, hrebuilt⟩,
    p, hp, hcount, hplanning _ _ _ p hp [levelCuts]⟩

end Main

end BendersPlanning

import BendersPlanning.Model.Elastic
import BendersPlanning.Proofs.LinearExpressions
import BendersPlanning.Proofs.OrderedScalars

/-!
# Well-formed models

Models are only made by edits that check their arguments, so all of them meet `Model.WellFormed`:
names are unique and not empty, rows, objective and named expressions speak of existing variables
with finite numbers, weights of squares are finite and not negative, bounds are numbers in order.

For every edit one lemma says when it succeeds and what it does then, and a second one that the
conditions still hold.
-/

namespace BendersPlanning

variable {K : Type} [Scalar K]

open Scalar (isFinite isUndefined)

theorem bind_eq_ok {ε α β : Type} {x : Except ε α} {f : α → Except ε β} {b : β} :
    (x >>= f) = .ok b ↔ ∃ a, x = .ok a ∧ f a = .ok b := by
  cases x with
  | error e => exact iff_of_false nofun nofun
  | ok a => exact ⟨fun h => ⟨a, rfl, h⟩, fun ⟨_, ha, h⟩ => Except.ok.inj ha ▸ h⟩

theorem map_eq_ok {ε α β : Type} {x : Except ε α} {f : α → β} {b : β} :
    f <$> x = .ok b ↔ ∃ a, x = .ok a ∧ f a = b := by
  cases x with
  | error e => exact iff_of_false nofun nofun
  | ok a =>
    exact ⟨fun h => ⟨a, rfl, Except.ok.inj h⟩, fun ⟨_, ha, h⟩ => Except.ok.inj ha ▸ congrArg _ h⟩

theorem mapError_eq_ok {ε δ α : Type} {x : Except ε α} {f : ε → δ} {a : α} :
    x.mapError f = .ok a ↔ x = .ok a := by
  cases x with
  | error e => exact iff_of_false nofun nofun
  | ok b => exact ⟨fun h => congrArg _ (Except.ok.inj h), fun h => congrArg _ (Except.ok.inj h)⟩

theorem foldlM_eq_ok {ε α β : Type} {f : β → α → Except ε β} {P : β → Prop} {xs : List α}
    {b b' : β} (hstep : ∀ b a b', a ∈ xs → P b → f b a = .ok b' → P b') (hb : P b)
    (h : xs.foldlM f b = .ok b') : P b' := by
  induction xs generalizing b with
  | nil => exact Except.ok.inj h ▸ hb
  | cons a xs ih =>
    rw [List.foldlM_cons] at h
    obtain ⟨b₁, hfirst, hrest⟩ := bind_eq_ok.mp h
    refine ih (fun b a b' ha => hstep b a b' (List.mem_cons_of_mem _ ha)) ?_ hrest
    exact hstep b a b₁ List.mem_cons_self hb hfirst

/-- A fold whose steps all succeed and keep a property. -/
theorem exists_foldlM_eq_ok {ε α β : Type} {f : β → α → Except ε β} {P : β → Prop} {xs : List α}
    {b : β} (hstep : ∀ b a, a ∈ xs → P b → ∃ b', f b a = .ok b' ∧ P b') (hb : P b) :
    ∃ b', xs.foldlM f b = .ok b' ∧ P b' := by
  induction xs generalizing b with
  | nil => exact ⟨b, rfl, hb⟩
  | cons a xs ih =>
    obtain ⟨b₁, hfirst, hb₁⟩ := hstep b a List.mem_cons_self hb
    obtain ⟨b', hrest, hb'⟩ := ih (fun b a ha => hstep b a (List.mem_cons_of_mem _ ha)) hb₁
    exact ⟨b', by rw [List.foldlM_cons, bind_eq_ok]; exact ⟨b₁, hfirst, hrest⟩, hb'⟩

theorem exists_mapM_eq_ok {ε α β : Type} {f : α → Except ε β} {xs : List α} :
    (∃ ys, xs.mapM f = .ok ys) ↔ ∀ x ∈ xs, ∃ y, f x = .ok y := by
  induction xs with
  | nil => simp [pure, Except.pure]
  | cons x xs ih =>
    rw [List.forall_mem_cons, ← ih, List.mapM_cons]
    cases hx : f x with
    | error e => simp [bind, Except.bind]
    | ok y => cases hxs : xs.mapM f <;> simp [bind, Except.bind, pure, Except.pure]

/-- A fold whose successful steps are those of a plain fold. -/
theorem eq_foldl_of_foldlM_eq_ok {ε α β : Type} {f : β → α → Except ε β} {g : β → α → β}
    (hstep : ∀ b a b', f b a = .ok b' → b' = g b a) {xs : List α} {b b' : β}
    (h : xs.foldlM f b = .ok b') : b' = xs.foldl g b := by
  induction xs generalizing b with
  | nil => exact (Except.ok.inj h).symm
  | cons a xs ih =>
    rw [List.foldlM_cons] at h
    obtain ⟨b₁, hfirst, hrest⟩ := bind_eq_ok.mp h
    rw [List.foldl_cons, ← hstep b a b₁ hfirst]
    exact ih hrest

theorem SortedMap.mem_insert {κ ν : Type} [LT κ] [DecidableLT κ] [LE κ] [Std.IsLinearOrder κ]
    [Std.LawfulOrderLT κ] {m : SortedMap κ ν} {key : κ} {value : ν} {entry : κ × ν}
    (h : entry ∈ (m.insert key value).entries) : entry = (key, value) ∨ entry ∈ m.entries := by
  suffices hentries : ∀ es : List (κ × ν), entry ∈ alterEntries key (fun _ => value) es →
      entry = (key, value) ∨ entry ∈ es from hentries m.entries h
  intro es
  induction es with
  | nil => exact fun h => .inl (List.mem_singleton.mp h)
  | cons first rest ih =>
    intro h
    rw [alterEntries] at h
    split_ifs at h
    · exact List.mem_cons.mp h
    · rcases List.mem_cons.mp h with rfl | h
      · exact .inr List.mem_cons_self
      · exact (ih h).imp_right (List.mem_cons_of_mem _)
    · grind

/-- What every edit of a model ensures. -/
structure Model.WellFormed (m : Model K) : Prop where
  variableNames : (m.vars.toList.map (·.name)).Nodup
  variableNamed : ∀ v ∈ m.vars, v.name.isEmpty = false
  bounds : ∀ v ∈ m.vars, isUndefined v.lowerBound = false ∧ isUndefined v.upperBound = false ∧
    ¬v.upperBound < v.lowerBound
  constraintNames : (m.constraints.toList.map (·.name)).Nodup
  constraintNamed : ∀ c ∈ m.constraints, c.name.isEmpty = false
  rows : ∀ c ∈ m.constraints, c.expression.IsOver m.vars.size ∧ isFinite c.rhs = true
  objective : m.objective.IsOver m.vars.size
  quadratic : ∀ t ∈ m.quadratic, t.1 < m.vars.size ∧ isFinite t.2 = true ∧ ¬t.2 < 0.0
  expressions : ∀ e ∈ m.expressions.entries, e.2.IsOver m.vars.size

instance (m : Model K) : Decidable m.WellFormed :=
  decidable_of_iff
    (((m.vars.toList.map (·.name)).Nodup ∧ (∀ v ∈ m.vars, v.name.isEmpty = false) ∧
        ∀ v ∈ m.vars, isUndefined v.lowerBound = false ∧ isUndefined v.upperBound = false ∧
          ¬v.upperBound < v.lowerBound) ∧
      ((m.constraints.toList.map (·.name)).Nodup ∧ (∀ c ∈ m.constraints, c.name.isEmpty = false) ∧
        ∀ c ∈ m.constraints, c.expression.IsOver m.vars.size ∧ isFinite c.rhs = true) ∧
      m.objective.IsOver m.vars.size ∧
      (∀ t ∈ m.quadratic, t.1 < m.vars.size ∧ isFinite t.2 = true ∧ ¬t.2 < 0.0) ∧
      ∀ e ∈ m.expressions.entries, e.2.IsOver m.vars.size)
    ⟨fun ⟨⟨hv, hn, hb⟩, ⟨hc, hd, hr⟩, ho, hq, he⟩ => ⟨hv, hn, hb, hc, hd, hr, ho, hq, he⟩,
      fun h => ⟨⟨h.variableNames, h.variableNamed, h.bounds⟩,
        ⟨h.constraintNames, h.constraintNamed, h.rows⟩, h.objective, h.quadratic, h.expressions⟩⟩

theorem Expression.fault?_eq_none_iff {e : Expression K} {count : ℕ} {context : String} :
    e.fault? count context = none ↔ e.IsOver count := by
  constructor
  · intro h
    obtain ⟨hterms, hconstant⟩ := Option.or_eq_none_iff.mp h
    refine ⟨fun ⟨v, c⟩ ht => ?_, by simpa using hconstant⟩
    have hfault := Array.findSome?_eq_none_iff.mp hterms (v, c) ht
    simp only at hfault
    split_ifs at hfault with hlt hfinite
    exact ⟨not_le.mp hlt, hfinite⟩
  · intro h
    refine Option.or_eq_none_iff.mpr ⟨Array.findSome?_eq_none_iff.mpr fun t ht => ?_, ?_⟩
    · obtain ⟨hlt, hfinite⟩ := h.terms t ht
      simp [hlt.not_ge, hfinite]
    · simp [h.constant]

namespace Model

variable {m m' : Model K} {e : Expression K} {c : Constraint K} {v : Variable K} {context : String}

theorem checkExpression_eq_ok :
    m.checkExpression e context = .ok () ↔ e.IsOver m.vars.size := by
  have hfault : e.fault? m.vars.size context = none ↔ _ := Expression.fault?_eq_none_iff
  rw [← hfault, checkExpression]
  cases e.fault? m.vars.size context <;> simp

theorem addConstraint_eq_ok {id : ℕ} : m.addConstraint c = .ok (m', id) ↔
    c.name.isEmpty = false ∧ m.constraintNamed? c.name = none ∧ isFinite c.rhs = true ∧
      c.expression.IsOver m.vars.size ∧ id = m.constraints.size ∧
      m' = { m with constraints := m.constraints.push c } := by
  constructor
  · intro h
    unfold addConstraint at h
    split_ifs at h with hempty hnamed hrhs
    obtain ⟨⟨⟩, hcheck, hadded⟩ := bind_eq_ok.mp h
    obtain ⟨rfl, rfl⟩ := Prod.mk.inj (Except.ok.inj hadded)
    exact ⟨by simpa using hempty, by simpa using hnamed, by simpa using hrhs,
      checkExpression_eq_ok.mp hcheck, rfl, rfl⟩
  · rintro ⟨hname, hnew, hrhs, hover, rfl, rfl⟩
    have hcheck : m.checkExpression c.expression c.name = .ok () := checkExpression_eq_ok.mpr hover
    simp only [addConstraint, hname, hnew, hrhs, hcheck]
    rfl

theorem setObjective_eq_ok : m.setObjective e = .ok m' ↔
    e.IsOver m.vars.size ∧ m' = { m with objective := e } := by
  constructor
  · intro h
    obtain ⟨⟨⟩, hcheck, hset⟩ := bind_eq_ok.mp h
    exact ⟨checkExpression_eq_ok.mp hcheck, (Except.ok.inj hset).symm⟩
  · rintro ⟨hover, rfl⟩
    exact bind_eq_ok.mpr ⟨(), checkExpression_eq_ok.mpr hover, rfl⟩

theorem addExpression_eq_ok {name : String} : m.addExpression name e = .ok m' ↔
    e.IsOver m.vars.size ∧ m' = { m with expressions := m.expressions.insert name e } := by
  constructor
  · intro h
    obtain ⟨⟨⟩, hcheck, hadded⟩ := bind_eq_ok.mp h
    exact ⟨checkExpression_eq_ok.mp hcheck, (Except.ok.inj hadded).symm⟩
  · rintro ⟨hover, rfl⟩
    exact bind_eq_ok.mpr ⟨(), checkExpression_eq_ok.mpr hover, rfl⟩

theorem setQuadratic_eq_ok {weights : Array (ℕ × K)} : m.setQuadratic weights = .ok m' ↔
    (∀ t ∈ weights, t.1 < m.vars.size ∧ isFinite t.2 = true ∧ ¬t.2 < 0.0) ∧
      m' = { m with quadratic := weights } := by
  unfold setQuadratic
  constructor
  · intro h
    simp only at h
    split at h
    · cases h
    rename_i hnone
    refine ⟨fun ⟨v, w⟩ ht => ?_, (Except.ok.inj h).symm⟩
    have hfault := Array.findSome?_eq_none_iff.mp hnone (v, w) ht
    simp only at hfault
    split_ifs at hfault with hlt hweight
    simp only [Bool.or_eq_true, Bool.not_eq_true', decide_eq_true_eq, not_or,
      Bool.not_eq_false] at hweight
    exact ⟨not_le.mp hlt, hweight⟩
  · rintro ⟨hweights, rfl⟩
    have hnone : (weights.findSome? fun t => if m.vars.size ≤ t.1 then
        some (ModelError.unknownVariable (variableLabel t.1))
      else if (!isFinite t.2 || decide (t.2 < 0.0)) = true then
        some (.invalid (.nonConvexWeight t.1 t.2)) else none) = none := by
      refine Array.findSome?_eq_none_iff.mpr fun t ht => ?_
      obtain ⟨hlt, hfinite, hnonneg⟩ := hweights t ht
      simp [hlt.not_ge, hfinite, hnonneg]
    simp only [hnone]

theorem setRhs_eq_ok {id : ℕ} {rhs : K} : m.setRhs id rhs = .ok m' ↔
    isFinite rhs = true ∧ id < m.constraints.size ∧
      m' = { m with constraints := m.constraints.modify id ({ · with rhs := rhs }) } := by
  constructor
  · intro h
    unfold setRhs at h
    split_ifs at h with hfinite
    split at h
    · cases h
    rename_i hsome
    exact ⟨by simpa using hfinite, (Array.getElem?_eq_some_iff.mp hsome).choose,
      (Except.ok.inj h).symm⟩
  · rintro ⟨hfinite, hid, rfl⟩
    simp [setRhs, hfinite, hid]

theorem addVariable_eq_ok {id : ℕ} : m.addVariable v = .ok (m', id) ↔
    v.name.isEmpty = false ∧ m.variableNamed? v.name = none ∧
      (isUndefined v.lowerBound = false ∧ isUndefined v.upperBound = false ∧
        ¬v.upperBound < v.lowerBound) ∧
      id = m.vars.size ∧ m' = { m with vars := m.vars.push v } := by
  constructor
  · intro h
    unfold addVariable at h
    split_ifs at h with hempty hnamed hbounds
    simp only [Except.ok.injEq, Prod.mk.injEq] at h
    simp only [Bool.or_eq_true, decide_eq_true_eq, not_or, Bool.not_eq_true] at hbounds
    exact ⟨by simpa using hempty, by simpa using hnamed, ⟨hbounds.1.1, hbounds.1.2, hbounds.2⟩,
      h.2.symm, h.1.symm⟩
  · rintro ⟨hname, hnew, ⟨hlower, hupper, hordered⟩, rfl, rfl⟩
    simp [addVariable, hname, hnew, hlower, hupper, hordered]

omit [Scalar K] in
theorem constraintNamed?_eq_none_iff {name : String} :
    m.constraintNamed? name = none ↔ name ∉ m.constraints.toList.map (·.name) := by
  simp [constraintNamed?, Array.findIdx?_eq_none_iff]

omit [Scalar K] in
theorem lt_of_variableNamed? {name : String} {v : ℕ} (h : m.variableNamed? name = some v) :
    v < m.vars.size :=
  (Array.findIdx?_eq_some_iff_getElem.mp h).choose

omit [Scalar K] in
theorem variableNamed?_eq_none_iff {name : String} :
    m.variableNamed? name = none ↔ name ∉ m.vars.toList.map (·.name) := by
  simp [variableNamed?, Array.findIdx?_eq_none_iff]

theorem nodup_map_push {α : Type} {xs : Array α} {a : α} {f : α → String}
    (h : (xs.toList.map f).Nodup) (ha : f a ∉ xs.toList.map f) :
    ((xs.push a).toList.map f).Nodup := by
  rw [Array.toList_push, List.map_append, List.map_singleton]
  exact List.nodup_append.mpr ⟨h, List.pairwise_singleton _ _, fun x hx y hy hxy =>
    ha (List.mem_singleton.mp hy ▸ hxy ▸ hx)⟩

omit [Scalar K] in
theorem map_name_modify (rows : Array (Constraint K)) (i : ℕ) {f : Constraint K → Constraint K}
    (hname : ∀ c, (f c).name = c.name) :
    (rows.modify i f).map (·.name) = rows.map (·.name) := by
  ext j hj hj'
  · simp
  · rw [Array.getElem_map, Array.getElem_map, Array.getElem_modify]
    split_ifs
    · rw [hname]
    · rfl

namespace WellFormed

theorem addConstraint (hm : m.WellFormed) {id : ℕ} (h : m.addConstraint c = .ok (m', id)) :
    m'.WellFormed := by
  obtain ⟨hempty, hnew, hrhs, hover, -, rfl⟩ := addConstraint_eq_ok.mp h
  refine { hm with constraintNames := ?_, constraintNamed := ?_, rows := ?_ }
  · exact nodup_map_push hm.constraintNames (constraintNamed?_eq_none_iff.mp hnew)
  · intro c' hc'
    rcases Array.mem_push.mp hc' with hc' | rfl
    · exact hm.constraintNamed c' hc'
    · exact hempty
  · intro c' hc'
    rcases Array.mem_push.mp hc' with hc' | rfl
    · exact hm.rows c' hc'
    · exact ⟨hover, hrhs⟩

theorem setObjective (hm : m.WellFormed) (h : m.setObjective e = .ok m') : m'.WellFormed := by
  obtain ⟨hover, rfl⟩ := setObjective_eq_ok.mp h
  exact { hm with objective := hover }

theorem addExpression (hm : m.WellFormed) {name : String}
    (h : m.addExpression name e = .ok m') : m'.WellFormed := by
  obtain ⟨hover, rfl⟩ := addExpression_eq_ok.mp h
  refine { hm with expressions := fun entry hentry => ?_ }
  rcases SortedMap.mem_insert hentry with rfl | hold
  · exact hover
  · exact hm.expressions entry hold

theorem setQuadratic (hm : m.WellFormed) {weights : Array (ℕ × K)}
    (h : m.setQuadratic weights = .ok m') : m'.WellFormed := by
  obtain ⟨hweights, rfl⟩ := setQuadratic_eq_ok.mp h
  exact { hm with quadratic := hweights }

theorem relaxIntegrality (hm : m.WellFormed) : m.relaxIntegrality.WellFormed := by
  have hmem : ∀ v ∈ m.relaxIntegrality.vars, ∃ u ∈ m.vars, { u with integer := false } = v := by
    intro v hv
    exact Array.mem_map.mp hv
  have hsize : m.relaxIntegrality.vars.size = m.vars.size := by simp [Model.relaxIntegrality]
  constructor
  case variableNames => simpa [Model.relaxIntegrality, Function.comp_def] using hm.variableNames
  case variableNamed =>
    intro v hv
    obtain ⟨u, hu, rfl⟩ := hmem v hv
    exact hm.variableNamed u hu
  case bounds =>
    intro v hv
    obtain ⟨u, hu, rfl⟩ := hmem v hv
    exact hm.bounds u hu
  case rows => exact fun c hc => by rw [hsize]; exact hm.rows c hc
  case objective => rw [hsize]; exact hm.objective
  case quadratic => exact fun t ht => by rw [hsize]; exact hm.quadratic t ht
  case expressions => exact fun e he => by rw [hsize]; exact hm.expressions e he
  all_goals simp only [Model.relaxIntegrality]
  · exact hm.constraintNames
  · exact hm.constraintNamed

theorem addVariable (hm : m.WellFormed) {id : ℕ} (h : m.addVariable v = .ok (m', id)) :
    m'.WellFormed := by
  obtain ⟨hempty, hnew, hbounds, -, rfl⟩ := addVariable_eq_ok.mp h
  have hle : m.vars.size ≤ (m.vars.push v).size := by simp
  constructor
  case variableNames =>
    exact nodup_map_push hm.variableNames (variableNamed?_eq_none_iff.mp hnew)
  case variableNamed =>
    intro u hu
    rcases Array.mem_push.mp hu with hu | rfl
    · exact hm.variableNamed u hu
    · exact hempty
  case bounds =>
    intro u hu
    rcases Array.mem_push.mp hu with hu | rfl
    · exact hm.bounds u hu
    · exact hbounds
  case rows => exact fun c hc => ⟨(hm.rows c hc).1.mono hle, (hm.rows c hc).2⟩
  case objective => exact hm.objective.mono hle
  case quadratic =>
    exact fun t ht => ⟨(hm.quadratic t ht).1.trans_le hle, (hm.quadratic t ht).2⟩
  case expressions => exact fun e he => (hm.expressions e he).mono hle
  · exact hm.constraintNames
  · exact hm.constraintNamed

/-- Rows may be changed in place as long as they keep their names and stay over the variables. -/
theorem modifyRow (hm : m.WellFormed) (i : ℕ) {f : Constraint K → Constraint K}
    (hname : ∀ c, (f c).name = c.name)
    (hrow : ∀ c ∈ m.constraints, (f c).expression.IsOver m.vars.size ∧ isFinite (f c).rhs = true) :
    ({ m with constraints := m.constraints.modify i f } : Model K).WellFormed := by
  have hmem : ∀ c' ∈ m.constraints.modify i f, ∃ c ∈ m.constraints, c' = c ∨ c' = f c := by
    intro c' hc'
    obtain ⟨j, hj, rfl⟩ := Array.getElem_of_mem hc'
    rw [Array.size_modify] at hj
    refine ⟨m.constraints[j], Array.getElem_mem hj, ?_⟩
    rw [Array.getElem_modify]
    split_ifs
    · exact .inr rfl
    · exact .inl rfl
  refine { hm with constraintNames := ?_, constraintNamed := ?_, rows := ?_ }
  · have hlist := congrArg Array.toList (map_name_modify m.constraints i hname)
    simp only [Array.toList_map] at hlist
    rw [hlist]
    exact hm.constraintNames
  · intro c' hc'
    obtain ⟨c, hc, rfl | rfl⟩ := hmem c' hc'
    · exact hm.constraintNamed c' hc
    · rw [hname]
      exact hm.constraintNamed c hc
  · intro c' hc'
    obtain ⟨c, hc, rfl | rfl⟩ := hmem c' hc'
    · exact hm.rows c' hc
    · exact hrow c hc

theorem setRhs (hm : m.WellFormed) {id : ℕ} {rhs : K} (h : m.setRhs id rhs = .ok m') :
    m'.WellFormed := by
  obtain ⟨hfinite, -, rfl⟩ := setRhs_eq_ok.mp h
  exact hm.modifyRow id (fun _ => rfl) fun c hc => ⟨(hm.rows c hc).1, hfinite⟩

end WellFormed

end Model

namespace Expression

theorem IsOver.addTerm {e : Expression K} {count v : ℕ} {coefficient : K} (he : e.IsOver count)
    (hv : v < count) (hc : isFinite coefficient = true) :
    (e.addTerm v coefficient).IsOver count := by
  refine ⟨fun t ht => ?_, he.constant⟩
  rcases Array.mem_push.mp ht with ht | rfl
  · exact he.terms t ht
  · exact ⟨hv, hc⟩

end Expression

namespace Model.WellFormed

variable {m m' : Model K} {penalty : K}

theorem addSlack (hm : m.WellFormed) (hp : isFinite penalty = true) {row : ℕ} {name : String}
    {sign : K} (hs : isFinite sign = true) {slack : ℕ}
    (h : m.addSlack penalty row name sign = .ok (m', slack)) : m'.WellFormed := by
  unfold Model.addSlack at h
  obtain ⟨⟨m₁, id⟩, hadd, hresult⟩ := bind_eq_ok.mp h
  obtain ⟨rfl, rfl⟩ := Prod.mk.inj (Except.ok.inj hresult)
  have h₁ := hm.addVariable hadd
  have hid : id < m₁.vars.size := by
    obtain ⟨-, -, -, rfl, rfl⟩ := addVariable_eq_ok.mp hadd
    simp
  have h₂ := h₁.modifyRow row (f := fun c => { c with expression := c.expression.addTerm id sign })
    (fun _ => rfl) fun c hc => ⟨(h₁.rows c hc).1.addTerm hid hs, (h₁.rows c hc).2⟩
  exact { h₂ with objective := h₁.objective.addTerm hid hp }

theorem addSlacks (hp : isFinite penalty = true) {plan : List (ℕ × String × K)}
    (hplan : ∀ entry ∈ plan, isFinite entry.2.2 = true) (hm : m.WellFormed) (slacks : Array ℕ) :
    (Model.addSlacks penalty plan m slacks).1.WellFormed := by
  induction plan generalizing m slacks with
  | nil => exact hm
  | cons entry plan ih =>
    obtain ⟨row, name, sign⟩ := entry
    obtain ⟨hsign, hrest⟩ := List.forall_mem_cons.mp hplan
    simp only [Model.addSlacks]
    split
    · exact hm
    · rename_i m' slack hadd
      exact ih hrest (hm.addSlack hp hsign hadd) _

theorem relaxWithPenalty [LinearScalar K] (hm : m.WellFormed) (penalty : K) :
    (m.relaxWithPenalty penalty).1.WellFormed := by
  unfold Model.relaxWithPenalty
  split_ifs with hp
  · rw [Bool.and_eq_true] at hp
    refine addSlacks hp.1 (fun entry he => ?_) hm #[]
    obtain ⟨⟨c, row⟩, -, he⟩ := List.mem_flatMap.mp he
    obtain ⟨⟨kind, sign⟩, hcolumn, rfl⟩ := List.mem_map.mp he
    cases hs : c.sense <;> simp [Sense.slackColumns, hs] at hcolumn <;>
      grind [OrderedScalar.one_finite, LinearScalar.neg_one_finite]
  · exact hm

end Model.WellFormed

namespace Model.WellFormed

variable [OrderedScalar K]

theorem empty : (Model.empty : Model K).WellFormed := by
  have hzero : (Expression.zero : Expression K).IsOver 0 := ⟨nofun, Scalar.isFinite_zero⟩
  exact ⟨.nil, nofun, nofun, .nil, nofun, nofun, hzero, nofun, nofun⟩

/-- Models that are built from parts are well-formed, wherever the parts come from. -/
theorem ofParts {m : Model K} {vars : Array (Variable K)} {constraints : Array (Constraint K)}
    {objective : Expression K} {quadratic : Array (ℕ × K)}
    {expressions : SortedMap String (Expression K)}
    (h : Model.ofParts vars constraints objective quadratic expressions = .ok m) :
    m.WellFormed := by
  obtain ⟨m₁, hvars, h⟩ := bind_eq_ok.mp h
  obtain ⟨m₂, hconstraints, h⟩ := bind_eq_ok.mp h
  obtain ⟨m₃, hobjective, h⟩ := bind_eq_ok.mp h
  obtain ⟨m₄, hquadratic, h⟩ := bind_eq_ok.mp h
  have h₁ : m₁.WellFormed := by
    rw [← Array.foldlM_toList] at hvars
    refine foldlM_eq_ok (fun m v m' _ hm hadd => ?_) empty hvars
    obtain ⟨⟨added, id⟩, hadded, rfl⟩ := map_eq_ok.mp hadd
    exact hm.addVariable hadded
  have h₂ : m₂.WellFormed := by
    rw [← Array.foldlM_toList] at hconstraints
    refine foldlM_eq_ok (fun m c m' _ hm hadd => ?_) h₁ hconstraints
    obtain ⟨⟨added, id⟩, hadded, rfl⟩ := map_eq_ok.mp hadd
    exact hm.addConstraint hadded
  exact foldlM_eq_ok (fun m e m' _ hm hadd => hm.addExpression hadd)
    ((h₂.setObjective hobjective).setQuadratic hquadratic) h

end Model.WellFormed

end BendersPlanning

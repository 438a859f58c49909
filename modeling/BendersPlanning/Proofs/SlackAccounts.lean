import BendersPlanning.Proofs.ElasticModels
import BendersPlanning.Proofs.RetriedSolves
import BendersPlanning.Proofs.RepeatedEvaluations

/-!
# Accounts of slack

Preparing a subproblem drops integrality, adds an equation for every linking variable and makes a
copy with slack columns. At given values the copy is the subproblem with its equations at these
values, widened by the columns of all its rows, whatever was evaluated before. So an outcome charges
for what the subproblem itself costs and for every unit of slack, and the slack that it reports
covers what the rows of the subproblem are violated by. Both hold of all entries that a reply may
have, the infinities included.
-/

namespace BendersPlanning

open Exact (number)
open Scalar (entry isFinite)

section Meaning
variable {K : Type} [Scalar K]

namespace Subproblem

/-- The equation for a linking variable. -/
def fixingRow (s : Subproblem K) (name : String) (value : K) : Constraint K :=
  ⟨fixingRowName name, .ofVariable ((s.model.variableNamed? name).getD 0), .equal, value⟩

/-- The subproblem without integrality, its linking variables held at values by equations. -/
def fixedAt (s : Subproblem K) (values : String → K) : Model K :=
  { s.model.relaxIntegrality with constraints := s.model.constraints ++
      (s.linking.map fun name => s.fixingRow name (values name)).toArray }

end Subproblem

namespace Evaluator

/-- An evaluator with a penalty at given values: the subproblem at these values, and a copy of it
with the slack columns of all its rows. -/
structure IsElasticAt (e : Evaluator K) (s : Subproblem K) (penalty : K) (values : String → K) :
    Prop where
  model : e.model = s.fixedAt values
  elastic : e.elastic = some ((s.fixedAt values).widened penalty (s.fixedAt values).slackPlan,
    Array.range' s.model.vars.size (s.fixedAt values).slackPlan.length)
  fixingRows : e.fixingRows = s.linking.zipIdx s.model.constraints.size

/-- An optimal reply about a model with slack columns: it has a price for every fixing row, a value
for every variable, first those of the subproblem, then slacks, none of them negative, and the
objective of the model at these values. -/
structure IsAnsweredBy (e : Evaluator K) (s : Subproblem K) (reply : Solution K)
    (point slacks : Array K) : Prop where
  status : reply.status = .optimal
  prices : ∀ row ∈ e.fixingRows, (reply.dual? row.2).isSome = true
  primal : reply.primal = point ++ slacks
  point_size : point.size = s.model.vars.size
  size : reply.primal.size = e.activeModel.vars.size
  nonnegative : ∀ x ∈ slacks, (0.0 : K) ≤ x
  objective : reply.objective = e.activeModel.objectiveValue reply.primal

end Evaluator

end Meaning

section Preparing
variable {K : Type} [Scalar K] {s : Subproblem K} {automatic : Bool} {fresh e : Evaluator K}
  {p : K} {rhs : Array K}

namespace Model

variable {m : Model K} {penalty : K} {plan : List (ℕ × String × K)}

/-- Slack columns and right-hand sides do not touch each other. -/
theorem withRhs_widened : (m.widened penalty plan).withRhs rhs =
    (m.withRhs rhs).widened penalty plan := by
  simp only [widened, withRhs, Array.mapIdx_mapIdx]
  rfl

/-- Which slack columns there are does not depend on right-hand sides. -/
theorem slackPlan_withRhs : (m.withRhs rhs).slackPlan = m.slackPlan := by
  have hplan (m : Model K) : m.slackPlan =
      (m.constraints.toList.map fun c => (c.sense, c.name)).zipIdx.flatMap fun row =>
        row.1.1.slackColumns.map fun column => (row.2, s!"{column.1}[{row.1.2}]", column.2) := by
    rw [List.zipIdx_map, List.flatMap_map]
    rfl
  have hrows : (m.withRhs rhs).constraints.toList.map (fun c => (c.sense, c.name)) =
      m.constraints.toList.map fun c => (c.sense, c.name) := by
    rw [← Array.toList_map, ← Array.toList_map]
    exact congrArg Array.toList (Array.ext (by simp [withRhs]) fun i _ _ => by simp [withRhs])
  rw [hplan, hplan, hrows]

end Model

namespace Evaluator

/-- Every evaluator of a subproblem is a prepared one with other right-hand sides of fixing rows. -/
theorem Serves.exists_isRefixed (hs : s.model.WellFormed) (he : Serves s automatic e) :
    ∃ fresh, ofSubproblem s automatic = .ok fresh ∧ e.IsRefixed fresh := by
  induction he with
  | @fresh fresh h =>
    have haligned := (isAligned_of_ofSubproblem hs h).1
    have hsame := haligned.isRefixed_withRhs fresh.model.size_rightHandSides fun _ _ => rfl
    rw [haligned.withRhs_rightHandSides] at hsame
    exact ⟨fresh, h, hsame⟩
  | refixed values _ ih =>
    obtain ⟨fresh, hfresh, hrefixed⟩ := ih
    have haligned := (isAligned_of_ofSubproblem hs hfresh).1
    exact ⟨fresh, hfresh, (hrefixed.fixAt_cases haligned values).1⟩

variable [OrderedScalar K]

/-- Fixing rows come after the other rows, in the order of the variables that they are for. -/
theorem addFixingRows_eq {m : Model K} {rows : List (String × ℕ)} {index : ℕ}
    {linking : List String} {prepared : Model K × List (String × ℕ)}
    (h : linking.foldlM (addFixingRow index) (m, rows) = .ok prepared) :
    prepared = ({ m with constraints := m.constraints ++ (linking.map fun name =>
        (⟨fixingRowName name, .ofVariable ((m.variableNamed? name).getD 0), .equal, 0.0⟩ :
          Constraint K)).toArray },
      rows ++ linking.zipIdx m.constraints.size) := by
  induction linking generalizing m rows with
  | nil =>
    obtain rfl := Except.ok.inj h
    simp
  | cons name linking ih =>
    rw [List.foldlM_cons] at h
    obtain ⟨_, hadd, h⟩ := bind_eq_ok.mp h
    obtain ⟨v, hv, -, rfl⟩ := Model.addFixingRow_eq_ok.mp hadd
    have hfirst : (m.variableNamed? name).getD 0 = v := by rw [hv, Option.getD_some]
    have hlookup (rows : Array (Constraint K)) (name : String) :
        ({ m with constraints := rows } : Model K).variableNamed? name =
          m.variableNamed? name := rfl
    rw [ih h]
    simp only [hlookup, List.map_cons, List.zipIdx_cons, hfirst]
    simp

/-- A prepared subproblem with a penalty. -/
theorem ofSubproblem_eq (h : ofSubproblem s automatic = .ok fresh)
    (hp : fresh.slackPenalty = some p) :
    (isFinite p = true ∧ 0.0 < p) ∧ fresh.model = s.fixedAt (fun _ => 0.0) ∧
      fresh.fixingRows = s.linking.zipIdx s.model.constraints.size ∧
      fresh.elastic = some (fresh.model.widened p fresh.model.slackPlan,
        Array.range' s.model.vars.size fresh.model.slackPlan.length) := by
  obtain ⟨⟨model, rows⟩, hfixing, h⟩ := bind_eq_ok.mp h
  have hrows := addFixingRows_eq hfixing
  simp only [Prod.mk.injEq] at hrows
  obtain ⟨hmodel, hrows⟩ := hrows
  simp only at h
  split at h
  · obtain rfl := Except.ok.inj h
    cases hp
  · rename_i penalty hpenalty
    cases helastic : model.relaxWithPenalty penalty with
    | mk elastic result =>
      cases result with
      | error x => simp [helastic] at h
      | ok slacks =>
        simp only [helastic] at h
        obtain rfl := Except.ok.inj h
        obtain rfl := Option.some.inj hp
        obtain ⟨husable, rfl, rfl⟩ := Model.relaxWithPenalty_eq helastic
        have hsize : model.vars.size = s.model.vars.size := by
          simp [hmodel, Model.relaxIntegrality]
        refine ⟨husable, ?_, ?_, by simp only [hsize]⟩
        · simp only [hmodel, Subproblem.fixedAt, Subproblem.fixingRow,
            Model.variableNamed?_relaxIntegrality]
          rfl
        · simp only [hrows, List.nil_append]
          rfl

end Evaluator

@[simp] theorem Subproblem.size_vars_fixedAt (s : Subproblem K) (values : String → K) :
    (s.fixedAt values).vars.size = s.model.vars.size := by
  simp [fixedAt, Model.relaxIntegrality]

/-- Only the values of its fixing rows tell the subproblem at some values from that at others. -/
theorem Subproblem.withRhs_fixedAt {old values : String → K}
    (hfixing : ∀ row ∈ s.linking.zipIdx s.model.constraints.size,
      rhs[row.2]? = some (values row.1))
    (hothers : ∀ row < s.model.constraints.size,
      rhs[row]? = (s.fixedAt old).rightHandSides[row]?) :
    (s.fixedAt old).withRhs rhs = s.fixedAt values := by
  suffices hrows : ((s.fixedAt old).withRhs rhs).constraints = (s.fixedAt values).constraints by
    calc (s.fixedAt old).withRhs rhs = { s.fixedAt old with
          constraints := ((s.fixedAt old).withRhs rhs).constraints } := rfl
      _ = s.fixedAt values := by
          rw [hrows]
          rfl
  refine Array.ext_getElem? fun row => ?_
  rw [Model.getElem?_withRhs]
  by_cases hrow : row < s.model.constraints.size
  · have hrhs := hothers row hrow
    simp only [Model.rightHandSides, fixedAt, Array.getElem?_map,
      Array.getElem?_append_left hrow] at hrhs ⊢
    simp [entry, hrhs, hrow]
  · obtain ⟨k, rfl⟩ := Nat.exists_eq_add_of_le (not_lt.mp hrow)
    simp only [fixedAt, Array.getElem?_append_right (Nat.le_add_right _ k), Nat.add_sub_cancel_left,
      List.getElem?_toArray, List.getElem?_map, Option.map_map]
    cases hname : s.linking[k]? with
    | none => rfl
    | some name =>
      have hmem : (name, s.model.constraints.size + k) ∈
          s.linking.zipIdx s.model.constraints.size := by
        rw [List.mem_zipIdx_iff_le_and_getElem?_sub]
        exact ⟨Nat.le_add_right _ _, by simpa using hname⟩
      simp [entry, hfixing _ hmem, fixingRow]

/-- Finite values keep a subproblem well-formed. -/
theorem Subproblem.wellFormed_fixedAt {old values : String → K} (h : (s.fixedAt old).WellFormed)
    (hvalues : ∀ name ∈ s.linking, isFinite (values name) = true) :
    (s.fixedAt values).WellFormed := by
  have hrows : ∀ c ∈ (s.fixedAt values).constraints, ∃ c' ∈ (s.fixedAt old).constraints,
      c.name = c'.name ∧ c.expression = c'.expression ∧
        (isFinite c'.rhs = true → isFinite c.rhs = true) := by
    intro c hc
    rcases Array.mem_append.mp hc with hc | hc
    · exact ⟨c, Array.mem_append_left _ hc, rfl, rfl, id⟩
    · obtain ⟨name, hname, rfl⟩ := List.mem_map.mp (List.mem_toArray.mp hc)
      refine ⟨s.fixingRow name (old name), Array.mem_append_right _ ?_, rfl, rfl, ?_⟩
      · exact List.mem_toArray.mpr (List.mem_map_of_mem hname)
      · exact fun _ => hvalues name hname
  refine { h with constraintNames := ?_, constraintNamed := ?_, rows := ?_ }
  · have hnames : (s.fixedAt values).constraints.toList.map (·.name) =
        (s.fixedAt old).constraints.toList.map (·.name) := by
      simp [fixedAt, fixingRow]
    rw [hnames]
    exact h.constraintNames
  · intro c hc
    obtain ⟨c', hc', hname, -⟩ := hrows c hc
    rw [hname]
    exact h.constraintNamed c' hc'
  · intro c hc
    obtain ⟨c', hc', -, hexpression, hfinite⟩ := hrows c hc
    obtain ⟨hover, hrhs⟩ := h.rows c' hc'
    rw [hexpression]
    exact ⟨hover, hfinite hrhs⟩

namespace Evaluator

theorem IsElasticAt.activeModel_eq {values : String → K} (h : e.IsElasticAt s p values) :
    e.activeModel = (s.fixedAt values).widened p (s.fixedAt values).slackPlan := by
  rw [activeModel, h.elastic]
  rfl

/-- Other right-hand sides of the fixing rows are other values of the linking variables. -/
theorem IsElasticAt.withRhs {old values : String → K} (h : fresh.IsElasticAt s p old)
    (hfixing : ∀ row ∈ s.linking.zipIdx s.model.constraints.size,
      rhs[row.2]? = some (values row.1))
    (hothers : ∀ row < s.model.constraints.size,
      rhs[row]? = (s.fixedAt old).rightHandSides[row]?) :
    (fresh.withRhs rhs).IsElasticAt s p values := by
  have hmodel : (s.fixedAt old).withRhs rhs = s.fixedAt values :=
    Subproblem.withRhs_fixedAt hfixing hothers
  have hplan : (s.fixedAt values).slackPlan = (s.fixedAt old).slackPlan := by
    rw [← hmodel, Model.slackPlan_withRhs]
  constructor
  · rw [← hmodel, ← h.model]
    rfl
  · rw [hplan, ← hmodel, ← Model.withRhs_widened]
    simp only [Evaluator.withRhs, h.elastic, Option.map_some]
  · exact h.fixingRows

/-- So is an evaluator whose fixing rows were given these values. -/
theorem IsElasticAt.refixed {old : String → K} {values : SortedMap String K}
    (h : fresh.IsElasticAt s p old) (he : e.IsRefixed fresh)
    (hset : ∀ row ∈ fresh.fixingRows, ∃ x, values.find? row.1 = some x ∧
      e.model.rightHandSides[row.2]? = some x) : e.IsElasticAt s p values.valueAt := by
  rw [h.fixingRows] at hset
  rw [he.same]
  apply h.withRhs
  · intro row hrow
    obtain ⟨x, hx, hrhs⟩ := hset row hrow
    rw [hrhs, SortedMap.valueAt, hx, Option.getD_some]
  · intro row hrow
    rw [← h.model]
    apply he.others
    rw [h.fixingRows]
    intro hmem
    obtain ⟨linked, hlinked, rfl⟩ := List.mem_map.mp hmem
    have hle := (List.mem_zipIdx_iff_le_and_getElem?_sub.mp hlinked).1
    omega

/-- Nothing is amiss in finite values. -/
theorem IsElasticAt.exists_fixAt {old : String → K} {values : SortedMap String K}
    (h : fresh.IsElasticAt s p old) (haligned : fresh.IsAligned)
    (hvalues : ∀ name ∈ s.linking, ∃ x, values.find? name = some x ∧ isFinite x = true) :
    ∃ fixed, fresh.fixAt values = (fixed, .ok ()) := by
  apply exists_fixRows
  · intro row hrow
    have hlt := haligned.bound row hrow
    refine ⟨hlt, ?_⟩
    rw [h.model] at hlt
    rw [h.activeModel_eq]
    simpa [Model.widened] using hlt
  · intro row hrow
    rw [h.fixingRows] at hrow
    exact hvalues row.1 (List.fst_mem_of_mem_zipIdx hrow)

variable [OrderedScalar K]

theorem isElasticAt_of_ofSubproblem (h : ofSubproblem s automatic = .ok fresh)
    (hp : fresh.slackPenalty = some p) : fresh.IsElasticAt s p fun _ => 0.0 := by
  obtain ⟨-, hmodel, hrows, helastic⟩ := ofSubproblem_eq h hp
  exact ⟨hmodel, hmodel ▸ helastic, hrows⟩

/-- At finite values an evaluator with a penalty can be fixed, and becomes what these values make of
the subproblem, whatever was evaluated before. -/
theorem Serves.exists_fixAt {values : SortedMap String K} (hs : s.model.WellFormed)
    (he : Serves s automatic e) (hp : e.slackPenalty = some p)
    (hvalues : ∀ name ∈ s.linking, ∃ x, values.find? name = some x ∧ isFinite x = true) :
    ∃ fresh fixed, ofSubproblem s automatic = .ok fresh ∧ fresh.slackPenalty = some p ∧
      e.fixAt values = (fixed, .ok ()) ∧ fixed.IsElasticAt s p values.valueAt := by
  obtain ⟨fresh, hfresh, hrefixed⟩ := he.exists_isRefixed hs
  have hpenalty : fresh.slackPenalty = some p := by
    rw [← hp, hrefixed.same]
    rfl
  have haligned := (isAligned_of_ofSubproblem hs hfresh).1
  have hprepared := isElasticAt_of_ofSubproblem hfresh hpenalty
  have hcases := hrefixed.fixAt_cases haligned values
  obtain ⟨hkept, ⟨x, -, hfault⟩ | ⟨fixed, hfix, -, hset⟩⟩ := hcases
  · obtain ⟨fixed, hfix⟩ := hprepared.exists_fixAt haligned hvalues
    rw [hfix] at hfault
    cases hfault
  · rw [hfix] at hkept
    exact ⟨fresh, fixed, hfresh, hpenalty, hfix, hprepared.refixed hkept hset⟩

end Evaluator

end Preparing

section Amounts

namespace Exact

variable {x y z : Exact} {b : ℚ}

theorem larger_zero (hx : (0.0 : Exact) ≤ x) : Scalar.larger x 0.0 = x := by
  rw [zero_eq] at hx ⊢
  cases x with
  | number q =>
    rw [number_le] at hx
    rw [larger_number, max_eq_left hx]
  | infinity => rfl
  | negInfinity | undefined => rcases hx with hx | hx <;> cases hx

theorem zero_le_larger (x : Exact) : (0.0 : Exact) ≤ Scalar.larger x 0.0 := by
  rw [zero_eq]
  cases x with
  | number q =>
    rw [larger_number, number_le]
    exact le_max_right _ _
  | infinity => exact .inl rfl
  | negInfinity | undefined => exact .inr rfl

protected theorem le_antisymm (hxy : x ≤ y) (hyx : y ≤ x) : x = y := by
  cases x <;> cases y <;> simp_all [le_iff_cases, isBelow, isSame, ← le_iff_lt_or_eq]
  exact le_antisymm hxy hyx

theorem add_eq_number (h : x + y = number b) :
    ∃ p q, x = number p ∧ y = number q ∧ p + q = b := by
  change add x y = number b at h
  cases x <;> cases y <;> simp_all [add]

/-- What is taken away to get down to a number is no less than the excess over it. -/
theorem sub_number_le (hx : (0.0 : Exact) ≤ x) (h : y - x ≤ number b) : y - number b ≤ x := by
  rw [zero_eq] at hx
  change add y (neg x) ≤ number b at h
  change add y (neg (number b)) ≤ x
  cases x <;> cases y <;> simp_all [le_iff_cases, isBelow, isSame, add, neg]
  grind

/-- What is added to get up to a number is no less than what was missing. -/
theorem number_sub_le (hx : (0.0 : Exact) ≤ x) (h : number b ≤ y + x) : number b - y ≤ x := by
  rw [zero_eq] at hx
  change number b ≤ add y x at h
  change add (number b) (neg y) ≤ x
  cases x <;> cases y <;> simp_all [le_iff_cases, isBelow, isSame, add, neg]
  grind

/-- What is added and taken away to get to a number is no less than the distance from it. -/
theorem abs_sub_number_le (hx : (0.0 : Exact) ≤ x) (hy : (0.0 : Exact) ≤ y)
    (h : z + x - y = number b) : (0.0 : Exact) ≤ Scalar.abs (z - number b) ∧
      Scalar.abs (z - number b) ≤ x + y := by
  obtain ⟨_, s, hadd, hneg, hs⟩ := add_eq_number h
  obtain ⟨q, r, rfl, rfl, rfl⟩ := add_eq_number hadd
  cases y with
  | number t =>
    obtain rfl : -t = s := number.inj hneg
    simp only [zero_eq, number_le, number_sub, abs_number, number_add] at hx hy ⊢
    exact ⟨abs_nonneg _, abs_le.mpr ⟨by linarith, by linarith⟩⟩
  | _ => cases hneg

theorem add_le_add_left_of_nonneg (hz : (0.0 : Exact) ≤ z) (hx : (0.0 : Exact) ≤ x)
    (hxy : x ≤ y) : z + x ≤ z + y := by
  rw [zero_eq] at hx hz
  change add z x ≤ add z y
  cases x <;> cases y <;> cases z <;> simp_all [le_iff_cases, isBelow, isSame, add]

protected theorem add_nonneg (hx : (0.0 : Exact) ≤ x) (hy : (0.0 : Exact) ≤ y) :
    (0.0 : Exact) ≤ x + y := by
  have hzero : (0.0 : Exact) ≤ 0.0 := by rw [zero_eq, number_le]
  have hle := add_le_add_left_of_nonneg hx hzero hy
  rw [zero_eq, add_number_zero] at hle
  exact Exact.le_trans hx hle

theorem sum_nil : Scalar.sum ([] : List Exact) = number 0 := zero_eq

end Exact

/-- Terms that are added to an expression are evaluated after the others. -/
theorem Expression.evaluate_append {K : Type} [Scalar K] (e : Expression K) (terms : List (ℕ × K))
    (point : Array K) :
    Expression.evaluate { e with terms := e.terms ++ terms.toArray } point =
      terms.foldl (fun acc t => acc + t.2 * entry point t.1) (e.evaluate point) := by
  simp [evaluate]

variable {c : Constraint Exact} {terms : List (ℕ × Exact)} {all point : Array Exact}

/-- A row that holds with its slack columns is violated by no more than these hold. -/
theorem Constraint.violation_le_slack (hrhs : isFinite c.rhs = true)
    (hsigns : terms.map (·.2) = c.sense.slackColumns.map (·.2))
    (hsame : c.expression.evaluate all = c.expression.evaluate point)
    (hnonneg : ∀ t ∈ terms, (0.0 : Exact) ≤ entry all t.1)
    (hholds : ({ c with expression := { c.expression with
      terms := c.expression.terms ++ terms.toArray } } : Constraint Exact).Holds all) :
    (0.0 : Exact) ≤ c.violation point ∧
      c.violation point ≤ Scalar.sum (terms.map fun t => entry all t.1) := by
  obtain ⟨b, hb⟩ := Exact.isFinite_iff.mp hrhs
  unfold Holds at hholds
  unfold violation
  simp only [Expression.evaluate_append, hsame, hb] at hholds ⊢
  cases hsense : c.sense with
  | atMost =>
    simp only [hsense, Sense.slackColumns, List.map_cons, List.map_nil,
      List.map_eq_singleton_iff] at hholds hsigns ⊢
    obtain ⟨⟨j, sign⟩, rfl, rfl⟩ := hsigns
    simp only [List.foldl_cons, List.foldl_nil, Exact.one_eq, Exact.neg_number,
      Exact.neg_one_mul, List.forall_mem_singleton] at hholds hnonneg
    have hexcess := Exact.sub_number_le hnonneg hholds
    rw [List.map_singleton, Exact.sum_cons, Exact.sum_nil, Exact.add_number_zero]
    exact ⟨Exact.zero_le_larger _, Exact.larger_le hexcess hnonneg⟩
  | atLeast =>
    simp only [hsense, Sense.slackColumns, List.map_cons, List.map_nil,
      List.map_eq_singleton_iff] at hholds hsigns ⊢
    obtain ⟨⟨j, sign⟩, rfl, rfl⟩ := hsigns
    simp only [List.foldl_cons, List.foldl_nil, Exact.one_eq, Exact.one_mul,
      List.forall_mem_singleton] at hholds hnonneg
    have hshortfall := Exact.number_sub_le hnonneg hholds
    rw [List.map_singleton, Exact.sum_cons, Exact.sum_nil, Exact.add_number_zero]
    exact ⟨Exact.zero_le_larger _, Exact.larger_le hshortfall hnonneg⟩
  | equal =>
    simp only [hsense, Sense.slackColumns, List.map_cons, List.map_nil, List.map_eq_cons_iff,
      List.map_eq_nil_iff] at hholds hsigns ⊢
    obtain ⟨⟨j, sign⟩, _, rfl, rfl, ⟨k, sign'⟩, _, rfl, rfl, rfl⟩ := hsigns
    simp only [List.foldl_cons, List.foldl_nil, Exact.one_eq, Exact.one_mul, Exact.neg_number,
      Exact.neg_one_mul, List.forall_mem_cons] at hholds hnonneg
    have hreached := Exact.le_antisymm hholds.1 hholds.2
    rw [List.map_cons, List.map_singleton, Exact.sum_cons, Exact.sum_cons, Exact.sum_nil,
      Exact.add_number_zero]
    exact Exact.abs_sub_number_le hnonneg.1 hnonneg.2.1 hreached

end Amounts

section Charging
variable {m : Model Exact} {p : Exact} {plan : List (ℕ × String × Exact)}
  {point slacks : Array Exact}

/-- The entries that come after those of a point. -/
theorem map_entry_append (point slacks : Array Exact) :
    (List.range' point.size slacks.size).map (entry (point ++ slacks)) = slacks.toList := by
  apply List.ext_getElem
  · simp
  · intro k hk hslack
    have hlt : k < slacks.size := by simpa using hslack
    rw [List.getElem_map, List.getElem_range', Nat.one_mul, entry_append_right, entry,
      Array.getElem?_eq_getElem hlt]
    rfl

namespace Model

theorem quadraticValue_widened (hm : m.WellFormed) (hpoint : point.size = m.vars.size) :
    (m.widened p plan).quadraticValue (point ++ slacks) = m.quadraticValue point := by
  unfold quadraticValue
  rw [← Array.foldl_toList, ← Array.foldl_toList]
  apply List.foldl_ext
  intro acc t ht
  have hlt : t.1 < point.size :=
    (hm.quadratic t (Array.mem_toList_iff.mp ht)).1.trans_eq hpoint.symm
  simp only [entry_append_left hlt]

/-- The objective charges for all that the slack columns hold, be it finite or not. -/
theorem objectiveValue_widened (hm : m.WellFormed) (hp : isFinite p = true)
    (hpoint : point.size = m.vars.size) (hslacks : slacks.size = plan.length) :
    (m.widened p plan).objectiveValue (point ++ slacks) =
      m.objectiveValue point + p * Scalar.sum slacks.toList := by
  obtain ⟨q, rfl⟩ := Exact.isFinite_iff.mp hp
  have hbefore : m.objective.evaluate (point ++ slacks) = m.objective.evaluate point :=
    Expression.evaluate_congr fun t ht =>
      entry_append_left ((hm.objective.terms t ht).1.trans_eq hpoint.symm)
  have hcharged : (m.widened (number q) plan).objective.evaluate (point ++ slacks) =
      m.objective.evaluate point + number q * Scalar.sum slacks.toList := by
    rw [← hbefore, ← map_entry_append point, ← Exact.foldl_add_number_mul q,
      List.foldl_map, hpoint, hslacks]
    unfold Expression.evaluate widened
    rw [Array.foldl_append, Array.foldl_map, ← Array.toList_range', Array.foldl_toList]
  rw [objectiveValue, objectiveValue, hcharged, quadraticValue_widened hm hpoint, Exact.add_assoc,
    Exact.add_assoc, Exact.add_comm (number q * _)]

end Model

end Charging

section Covering
variable {m : Model Exact} {p : Exact} {point slacks : Array Exact}

-- The monoid is for sums over rows. It has the addition of scalars, and statements find that first.
local instance : Zero Exact := ⟨number 0⟩

local instance : Add Exact := ⟨Exact.add⟩

/-- Sums with the infinities, and with no number where opposite ones meet. -/
local instance : AddCommMonoid Exact where
  add_assoc := Exact.add_assoc
  zero_add := Exact.zero_add
  add_zero := Exact.add_number_zero
  add_comm := Exact.add_comm
  nsmul := nsmulRec

namespace Exact

theorem sum_eq (xs : List Exact) : Scalar.sum xs = xs.sum := by
  induction xs with
  | nil => exact zero_eq
  | cons x xs ih => rw [sum_cons, ih, List.sum_cons]

/-- Sums of values that are not below zero can be compared value by value. -/
theorem sum_le_sum {ι : Type} {s : Finset ι} {f g : ι → Exact}
    (h : ∀ i ∈ s, (0.0 : Exact) ≤ f i ∧ f i ≤ g i) : ∑ i ∈ s, f i ≤ ∑ i ∈ s, g i := by
  have hzero : (0.0 : Exact) ≤ 0 := by
    rw [zero_eq]
    exact .inr rfl
  induction s using Finset.cons_induction with
  | empty => exact .inr rfl
  | cons i s hi ih =>
    obtain ⟨⟨hf, hle⟩, hrest⟩ := (Finset.forall_mem_cons hi _).mp h
    have hfs : (0.0 : Exact) ≤ ∑ j ∈ s, f j :=
      Finset.sum_induction f _ (fun _ _ => Exact.add_nonneg) hzero fun j hj => (hrest j hj).1
    have hgs : (0.0 : Exact) ≤ ∑ j ∈ s, g j := Exact.le_trans hfs (ih hrest)
    have hlater : f i + ∑ j ∈ s, f j ≤ f i + ∑ j ∈ s, g j :=
      add_le_add_left_of_nonneg hf hfs (ih hrest)
    have hfirst : f i + ∑ j ∈ s, g j ≤ g i + ∑ j ∈ s, g j := by
      rw [Exact.add_comm (f i), Exact.add_comm (g i)]
      exact add_le_add_left_of_nonneg hgs hf hle
    rw [Finset.sum_cons, Finset.sum_cons]
    exact Exact.le_trans hlater hfirst

end Exact

namespace Model

/-- What the slack columns hold, put side by side with the rows that they are columns of. -/
theorem sum_slacks (hpoint : point.size = m.vars.size)
    (hslacks : slacks.size = m.slackPlan.length) :
    Scalar.sum slacks.toList = ∑ row : Fin m.constraints.toList.length,
      ((columnsOf row m.slackPlan m.vars.size).map fun t => entry (point ++ slacks) t.1).sum := by
  rw [← map_entry_append point, Exact.sum_eq, hpoint, hslacks,
    ← sum_columnsOf (fun _ => lt_of_mem_slackPlan), Finset.sum_range]
  rfl

/-- Slack that meets all rows covers what they are violated by. -/
theorem totalViolation_le_slack (hm : m.WellFormed) (hpoint : point.size = m.vars.size)
    (hslacks : slacks.size = m.slackPlan.length) (hnonneg : ∀ x ∈ slacks, (0.0 : Exact) ≤ x)
    (hmeets : ∀ c ∈ (m.widened p m.slackPlan).constraints, c.Holds (point ++ slacks)) :
    m.totalViolation point ≤ Scalar.sum slacks.toList := by
  rw [sum_slacks hpoint hslacks, totalViolation, Exact.sum_eq, ← Fin.sum_univ_fun_getElem]
  refine Exact.sum_le_sum fun row _ => ?_
  have hc : m.constraints[row.val]? = some m.constraints.toList[row] := by
    simp
  obtain ⟨hover, hrhs⟩ := hm.rows _ (Array.mem_of_getElem? hc)
  rw [← Exact.sum_eq]
  apply Constraint.violation_le_slack hrhs
  · rw [map_sign_columnsOf, filter_slackPlan hc]
  · exact Expression.evaluate_congr fun t ht =>
      entry_append_left ((hover.terms t ht).1.trans_eq hpoint.symm)
  · intro t ht
    obtain ⟨k, column, hcolumn, rfl, -⟩ := exists_of_mem_columnsOf ht
    have hk : k < slacks.size := by
      rw [hslacks]
      exact (List.getElem?_eq_some_iff.mp hcolumn).choose
    rw [← hpoint, entry_append_right, entry_eq_getElem hk]
    exact hnonneg _ (Array.getElem_mem hk)
  · apply hmeets
    apply Array.mem_of_getElem? (i := row.val)
    simp [widened]

end Model

end Covering

section Answering
variable {p : Exact} {point slacks : Array Exact}

namespace Evaluator

variable {s : Subproblem Exact} {automatic : Bool} {e fixed : Evaluator Exact}
  {reply : Solution Exact}

/-- The subproblem is well-formed at the values, and the penalty is a number above zero. -/
theorem Serves.exists_wellFormed_fixAt {values : SortedMap String Exact} (hs : s.model.WellFormed)
    (he : Serves s automatic e) (hp : e.slackPenalty = some p)
    (hvalues : ∀ name ∈ s.linking, ∃ x, values.find? name = some x ∧ isFinite x = true) :
    ∃ fixed, e.fixAt values = (fixed, .ok ()) ∧ fixed.IsElasticAt s p values.valueAt ∧
      (isFinite p = true ∧ 0.0 < p) ∧ (s.fixedAt values.valueAt).WellFormed := by
  obtain ⟨fresh, fixed, hfresh, hpenalty, hfix, hfixed⟩ := he.exists_fixAt hs hp hvalues
  obtain ⟨husable, hmodel, -, -⟩ := ofSubproblem_eq hfresh hpenalty
  have hprepared : (s.fixedAt fun _ => (0.0 : Exact)).WellFormed := by
    rw [← hmodel]
    exact (FixingRowsOf.addFixingRows hs (ofSubproblem_cases hfresh).1).model
  refine ⟨fixed, hfix, hfixed, husable, Subproblem.wellFormed_fixedAt hprepared ?_⟩
  intro name hname
  obtain ⟨x, hx, hfinite⟩ := hvalues name hname
  rw [SortedMap.valueAt, hx]
  exact hfinite

variable {values : String → Exact}

theorem IsAnsweredBy.size_slacks (h : e.IsElasticAt s p values)
    (hreply : e.IsAnsweredBy s reply point slacks) :
    slacks.size = (s.fixedAt values).slackPlan.length := by
  have hsize := hreply.size
  have hpoint := hreply.point_size
  rw [hreply.primal, h.activeModel_eq, Array.size_append, Model.size_widened_vars,
    Subproblem.size_vars_fixedAt] at hsize
  omega

/-- The slack that is reported is the total of all columns that were added. -/
theorem IsAnsweredBy.usedSlack_eq (h : e.IsElasticAt s p values)
    (hreply : e.IsAnsweredBy s reply point slacks) :
    e.usedSlack reply = Scalar.sum slacks.toList := by
  have hread : (List.range' point.size slacks.size).filterMap reply.value? = slacks.toList := by
    rw [← map_entry_append point, List.filterMap_eq_map_iff_forall_eq_some]
    intro j hj
    have hlt : j < (point ++ slacks).size := by
      have hrange := (List.mem_range'_1.mp hj).2
      simpa using hrange
    rw [Solution.value?, hreply.primal, entry, Array.getElem?_eq_getElem hlt]
    rfl
  have hkept : slacks.toList.map (fun x => Scalar.larger x 0.0) = slacks.toList := by
    rw [List.map_congr_left fun x hx =>
      Exact.larger_zero (hreply.nonnegative x (Array.mem_toList_iff.mp hx))]
    exact List.map_id' _
  rw [usedSlack, h.elastic]
  simp only [Array.toList_range']
  rw [← hreply.point_size, ← hreply.size_slacks h, hread, hkept]

/-- The cost is that of the subproblem at the point, and the penalty for the slack. -/
theorem IsAnsweredBy.objective_eq (h : e.IsElasticAt s p values)
    (hm : (s.fixedAt values).WellFormed) (hp : isFinite p = true ∧ 0.0 < p)
    (hreply : e.IsAnsweredBy s reply point slacks) :
    reply.objective = s.model.objectiveValue point + p * Scalar.sum slacks.toList := by
  have hpoint : point.size = (s.fixedAt values).vars.size := by
    rw [hreply.point_size, Subproblem.size_vars_fixedAt]
  rw [hreply.objective, hreply.primal, h.activeModel_eq,
    Model.objectiveValue_widened hm hp.1 hpoint (hreply.size_slacks h)]
  rfl

end Evaluator

end Answering

/-- An evaluator with a slack penalty accounts for all slack, whatever it evaluated before and
whatever the backend is. At finite values of the linking variables it solves the subproblem at these
values with slack columns for all its rows, those that fix variables included. From an optimal reply
it reports as slack the total of these columns, and as cost what the subproblem itself costs at the
reply and the penalty for this total. Where the reply meets the rows with slack columns, the total
is no less than what the rows of the subproblem are violated by. -/
theorem penalized_outcomes_account_for_slack {s : Subproblem Exact} {automatic : Bool}
    {e : Evaluator Exact} {p : Exact} {values : SortedMap String Exact} (hs : s.model.WellFormed)
    (he : Evaluator.Serves s automatic e) (hp : e.slackPenalty = some p)
    (hvalues : ∀ name ∈ s.linking, ∃ x, values.find? name = some x ∧ isFinite x = true) :
    ∃ fixed, e.fixAt values = (fixed, .ok ()) ∧ fixed.IsElasticAt s p values.valueAt ∧
      ∀ (σ : Type) (backend : Backend (StateM σ) Exact) (settings : SolverSettings Exact) (w w' : σ)
        (reply : Solution Exact) (point slacks : Array Exact),
        Yields (fixed.solveActive backend settings) w reply w' →
        fixed.IsAnsweredBy s reply point slacks →
        ∃ cost prices used,
          Answers (e.evaluate backend values settings) w
            (fixed, .ok (.optimal cost prices used)) w' ∧
          used = Scalar.sum slacks.toList ∧
          cost = s.model.objectiveValue point + p * used ∧
          ((∀ c ∈ fixed.activeModel.constraints, c.Holds reply.primal) →
            (s.fixedAt values.valueAt).totalViolation point ≤ used) := by
  obtain ⟨fixed, hfix, hfixed, husable, hm⟩ := he.exists_wellFormed_fixAt hs hp hvalues
  refine ⟨fixed, hfix, hfixed, fun σ backend settings w w' reply point slacks hsolve hreply => ?_⟩
  have houtcome : ∃ prices, fixed.outcome reply =
      .ok (.optimal reply.objective prices (fixed.usedSlack reply)) := by
    have hoptimal : fixed.outcome reply = fixed.optimalOutcome reply := by
      simp only [Evaluator.outcome, hreply.status]
    rw [hoptimal]
    rcases fixed.optimalOutcome_cases reply with ⟨hread, -⟩ | ⟨-, row, hrow, hnone⟩
    · exact hread
    · have hprice := hreply.prices row hrow
      rw [hnone] at hprice
      cases hprice
  obtain ⟨prices, hprices⟩ := houtcome
  refine ⟨reply.objective, prices, fixed.usedSlack reply, ?_, hreply.usedSlack_eq hfixed, ?_, ?_⟩
  · unfold Evaluator.evaluate
    rw [hfix]
    exact answers_bind.mpr ⟨.ok reply, w', hsolve, answers_pure.mpr ⟨by rw [← hprices]; rfl, rfl⟩⟩
  · rw [hreply.usedSlack_eq hfixed, hreply.objective_eq hfixed hm husable]
  · intro hmeets
    rw [hfixed.activeModel_eq, hreply.primal] at hmeets
    rw [hreply.usedSlack_eq hfixed]
    apply Model.totalViolation_le_slack hm _ (hreply.size_slacks hfixed) hreply.nonnegative hmeets
    rw [hreply.point_size, Subproblem.size_vars_fixedAt]

/-- Rows of each relation, at a penalty of 10 for their slack. -/
def elasticLimits : Subproblem Exact where
  index := 0
  model := mixedLimits
  linking := ["x"]
  slackPenalty := some (number 10)

/-- Numerical trouble, and then the optimum at `x = 3` with its slack. -/
def elasticReplies : List (Solution Exact) :=
  [.without .numericalFailure 7,
    { status := .optimal
      objective := number (149 / 2)
      primal := #[number 3, number 1, number 3, number 4, number 0, number 0, number 0, number 0]
      duals := #[number (-10), number 10, number (-8), number 39]
      certificate := none
      iterations := 3 }]

/-- Two of the rows are violated, by 3 and by 4, and the fixing row holds, also where it was set for
another value before. -/
theorem elasticLimits_accounts_for_slack :
    let values := SortedMap.ofList [("x", number 3)]
    ∃ fresh e fixed prices, Evaluator.ofSubproblem elasticLimits false = .ok fresh ∧
      fresh.fixAt (.ofList [("x", number 1)]) = (e, .ok ()) ∧
      Answers (e.evaluate .scripted values .default) elasticReplies
        (fixed, .ok (.optimal (number (149 / 2)) prices (number 7))) [] ∧
      (elasticLimits.fixedAt values.valueAt).totalViolation #[number 3, number 1] ≤ number 7 := by
  intro values
  obtain ⟨fresh, hprepared, hbefore, hpenalty⟩ :=
    exists_ok_of_any (x := Evaluator.ofSubproblem elasticLimits false) (P := fun fresh =>
      (fresh.fixAt (.ofList [("x", number 1)])).2 = .ok () ∧
        (fresh.fixAt (.ofList [("x", number 1)])).1.slackPenalty = some (number 10))
      (by decide +kernel)
  have hserves : Evaluator.Serves elasticLimits false
      (fresh.fixAt (.ofList [("x", number 1)])).1 := .refixed _ (.fresh hprepared)
  have hvalues : ∀ name ∈ elasticLimits.linking, ∃ x, values.find? name = some x ∧
      isFinite x = true := by decide +kernel
  obtain ⟨fixed, -, hfixed, houtcomes⟩ :=
    penalized_outcomes_account_for_slack (by decide +kernel) hserves hpenalty hvalues
  have hreply : fixed.IsAnsweredBy elasticLimits elasticReplies[1] #[number 3, number 1]
      #[number 3, number 4, number 0, number 0, number 0, number 0] := by
    constructor
    case prices =>
      rw [hfixed.fixingRows]
      decide +kernel
    case size =>
      rw [hfixed.activeModel_eq]
      decide +kernel
    case objective =>
      rw [hfixed.activeModel_eq]
      decide +kernel
    all_goals decide +kernel
  have hmeets : ∀ c ∈ fixed.activeModel.constraints, c.Holds elasticReplies[1].primal := by
    rw [hfixed.activeModel_eq]
    decide +kernel
  obtain ⟨cost, prices, used, hanswers, hused, hcost, hviolation⟩ :=
    houtcomes _ .scripted .default elasticReplies [] _ _ _ rfl hreply
  have hseven : Scalar.sum (#[number 3, number 4, number 0, number 0, number 0, number 0] :
      Array Exact).toList = number 7 := by decide +kernel
  have htotal : elasticLimits.model.objectiveValue #[number 3, number 1] +
      number 10 * number 7 = number (149 / 2) := by decide +kernel
  obtain rfl := hused.trans hseven
  obtain rfl := hcost.trans htotal
  exact ⟨fresh, _, fixed, prices, hprepared, Prod.ext rfl hbefore, hanswers, hviolation hmeets⟩

end BendersPlanning

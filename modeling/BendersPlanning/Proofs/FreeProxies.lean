import BendersPlanning.Proofs.CutValidity
import BendersPlanning.Proofs.PlanningObjectives
import BendersPlanning.Proofs.PlanningSolutions
import BendersPlanning.Proofs.RunInvariants

/-!
# Proxies that are free to take the costs

The planning problem bounds the cost of a candidate from below only if its proxies can take the
least costs of operation there. `PlanningProblem.HasFreeProxies` says so of the initial problem: the
proxies are distinct, they are what the objective adds to the fixed cost, nothing else speaks of
them, and a feasible point stays feasible when they are set to the costs that they stand for. Every
candidate then has a served point whose objective is the cost of the candidate.
-/

namespace BendersPlanning

section Meaning
variable {K : Type} [Scalar K]

open Scalar (entry)

namespace PlanningProblem

/-- The cost of operation that proxy number `i` stands for: that of its subproblem or, with a single
proxy, all of it. -/
def share (p : PlanningProblem K) (indices : List ℕ) (costs : List K) (i : ℕ) : K :=
  if p.isMultiCut then (((indices.zip costs).find? (·.1 = i)).map (·.2)).getD Scalar.undefined
  else Scalar.sum costs

/-- A point with other values of the proxies. -/
def withProxies (p : PlanningProblem K) (point : Array K) (values : ℕ → K) : Array K :=
  point.mapIdx fun j x => if j ∈ p.theta.toList then values (p.theta.toList.idxOf j) else x

/-- Whether there is one proxy or one for each of the indices. -/
def HasProxyFor (p : PlanningProblem K) (indices : List ℕ) : Prop :=
  p.theta.size = 1 ∨ p.isMultiCut = true ∧ indices.Perm (List.range p.theta.size)

/-- Proxies that are distinct, count once in the objective, occur neither in the fixed cost nor
among the linking variables, and may take the costs of operation at all feasible points. -/
structure HasFreeProxies (p : PlanningProblem K) (linking : List String)
    (evaluators : List (Evaluator K)) : Prop where
  distinct : p.theta.toList.Nodup
  objective : p.model.objective = p.fixedCost.addScaled (proxyCost p.theta) 1.0
  linear : ∀ t ∈ p.model.quadratic, t.2 = 0.0
  fixedCost : ∀ t ∈ p.fixedCost.terms, t.1 ∉ p.theta.toList
  unlinked : ∀ name ∈ linking, ∀ t ∈ p.theta.toList, p.model.variableNamed? name ≠ some t
  admits : ∀ point bound candidate costs, p.model.Feasible point →
    Candidate.ofPoint p linking point bound = .ok candidate →
    List.Forall₂ (fun e v => (e.modelAt candidate.values.valueAt).HasMinimum v) evaluators costs →
    p.model.Feasible (p.withProxies point (p.share (evaluators.map (·.index)) costs))

variable {p : PlanningProblem K} {linking : List String} {point : Array K} {values : ℕ → K}
  {candidate : Candidate K} {bound : K} {name : String} {i t : ℕ}

theorem entry_withProxies_of_notMem (ht : t ∉ p.theta.toList) :
    entry (p.withProxies point values) t = entry point t := by
  unfold entry withProxies
  rw [Array.getElem?_mapIdx]
  cases point[t]? with
  | none => rfl
  | some x => simp [ht]

theorem entry_withProxies (hdistinct : p.theta.toList.Nodup) (hi : p.theta[i]? = some t)
    (ht : t < point.size) : entry (p.withProxies point values) t = values i := by
  obtain ⟨hlt, rfl⟩ := Array.getElem?_eq_some_iff.mp hi
  have hmem : p.theta[i] ∈ p.theta.toList := Array.mem_toList_iff.mpr (Array.getElem_mem hlt)
  have hidx : p.theta.toList.idxOf p.theta[i] = i := by
    have := hdistinct.idxOf_getElem i (by simpa using hlt)
    rwa [Array.getElem_toList] at this
  unfold entry withProxies
  rw [Array.getElem?_mapIdx, Array.getElem?_eq_getElem ht]
  simp only [Option.map_some, if_pos hmem, hidx, Option.getD_some]

theorem linkAt_withProxies (h : ∀ t ∈ p.theta.toList, p.model.variableNamed? name ≠ some t) :
    p.linkAt (p.withProxies point values) name = p.linkAt point name := by
  unfold linkAt
  cases hname : p.model.variableNamed? name with
  | none => rfl
  | some t =>
    have ht : t ∉ p.theta.toList := fun hmem => h t hmem hname
    simp [entry_withProxies_of_notMem ht]

theorem valueAt_of_ofPoint (h : Candidate.ofPoint p linking point bound = .ok candidate)
    (hdefined : candidate.values.valueAt name ≠ Scalar.undefined) :
    name ∈ linking ∧ candidate.values.valueAt name = p.linkAt point name := by
  unfold SortedMap.valueAt at hdefined ⊢
  cases hfound : candidate.values.find? name with
  | none => simp [hfound] at hdefined
  | some x =>
    obtain ⟨hname, id, hid, hx⟩ := find?_of_ofPoint h hfound
    exact ⟨hname, by simp [linkAt, hid, entry, hx]⟩

end PlanningProblem

/-- Where the rows do not speak of the proxies, a feasible point stays feasible when they are set to
finite values that they admit. -/
theorem PlanningProblem.feasible_withProxies {p : PlanningProblem K} {point : Array K}
    {values : ℕ → K} (hpoint : p.model.Feasible point) (hdistinct : p.theta.toList.Nodup)
    (hrows : ∀ c ∈ p.model.constraints, ∀ t ∈ c.expression.terms, t.1 ∉ p.theta.toList)
    (hadmits : ∀ (i t : ℕ) (v : Variable K), p.theta[i]? = some t → p.model.vars[t]? = some v →
      Scalar.isFinite (values i) = true ∧ v.Admits (values i)) :
    p.model.Feasible (p.withProxies point values) := by
  have hentry : ∀ (t : ℕ) (v : Variable K), p.model.vars[t]? = some v →
      entry (p.withProxies point values) t = entry point t ∨
        ∃ i, entry (p.withProxies point values) t = values i ∧
          Scalar.isFinite (values i) = true ∧ v.Admits (values i) := by
    intro t v hv
    by_cases ht : t ∈ p.theta.toList
    · obtain ⟨i, hi⟩ := List.mem_iff_getElem?.mp ht
      rw [Array.getElem?_toList] at hi
      have hsize : t < point.size :=
        (Array.getElem?_eq_some_iff.mp hv).choose.trans_eq hpoint.size.symm
      exact .inr ⟨i, entry_withProxies hdistinct hi hsize, hadmits i t v hi hv⟩
    · exact .inl (entry_withProxies_of_notMem ht)
  have hsize : (p.withProxies point values).size = p.model.vars.size := by
    simp [withProxies, hpoint.size]
  refine ⟨isFiniteVector_of_entries hsize fun t ht => ?_, fun t v hv => ?_, fun c hc => ?_⟩
  · rcases hentry t _ (Array.getElem?_eq_getElem ht) with hkept | ⟨i, hi, hfinite, -⟩
    · have hlt : t < point.size := ht.trans_eq hpoint.size.symm
      rw [hkept, entry_eq_getElem hlt]
      exact hpoint.finite _ (Array.getElem_mem hlt)
    · rw [hi]
      exact hfinite
  · rcases hentry t v hv with hkept | ⟨i, hi, -, hadmitted⟩
    · rw [hkept]
      exact hpoint.admitted t v hv
    · rw [hi]
      exact hadmitted
  · have hactivity : c.expression.evaluate (p.withProxies point values) =
        c.expression.evaluate point :=
      Expression.evaluate_congr fun t ht => entry_withProxies_of_notMem (hrows c hc t ht)
    have hholds := hpoint.rows c hc
    unfold Constraint.Holds at hholds ⊢
    rwa [hactivity]

end Meaning

open Exact (number)

/-- What belongs to the elements of a list can be told by a key that tells the elements apart. -/
theorem exists_keyed_of_forall₂ {α β : Type} {R : α → β → Prop} {key : α → ℕ}
    {xs : List α} {ys : List β} (other : β) (hkeys : (xs.map key).Nodup) (h : List.Forall₂ R xs ys) :
    ∃ f : ℕ → β, ys = xs.map (fun x => f (key x)) ∧ ∀ x ∈ xs, R x (f (key x)) := by
  induction h with
  | nil => exact ⟨fun _ => other, rfl, nofun⟩
  | @cons x y xs ys hfirst hrest ih =>
    obtain ⟨hnew, hkeys⟩ := List.nodup_cons.mp hkeys
    obtain ⟨f, rfl, hf⟩ := ih hkeys
    have hother : ∀ x' ∈ xs, Function.update f (key x) y (key x') = f (key x') := by
      intro x' hx'
      apply Function.update_of_ne
      intro hsame
      exact hnew (List.mem_map.mpr ⟨x', hx', hsame⟩)
    refine ⟨Function.update f (key x) y, ?_, fun x' hx' => ?_⟩
    · rw [List.map_cons, Function.update_self, List.map_congr_left hother]
    · rcases List.mem_cons.mp hx' with rfl | hx'
      · rwa [Function.update_self]
      · rw [hother x' hx']
        exact hf x' hx'

/-- Least costs come from operations; both can be told by the indices of the subproblems. -/
theorem Evaluator.exists_operations {evaluators : List (Evaluator Exact)} {costs : List Exact}
    {values : String → Exact} (hready : ∀ e ∈ evaluators, e.IsReady)
    (hindices : (evaluators.map (·.index)).Nodup)
    (h : List.Forall₂ (fun e v => (e.modelAt values).HasMinimum v) evaluators costs) :
    ∃ (cost : ℕ → ℚ) (operation : ℕ → Array Exact),
      costs = evaluators.map (fun e => number (cost e.index)) ∧
      ∀ e ∈ evaluators, (e.modelAt values).Feasible (operation e.index) ∧
        (e.modelAt values).objectiveValue (operation e.index) = number (cost e.index) := by
  obtain ⟨least, rfl, hleast⟩ := exists_keyed_of_forall₂ (number 0) hindices h
  have hattained : ∀ e ∈ evaluators, ∃ point, (e.modelAt values).Feasible point ∧
      (e.modelAt values).objectiveValue point = least e.index :=
    fun e he => (hleast e he).attained
  choose! operationOf hoperationOf using hattained
  have hoperations : List.Forall₂ (fun e point => (e.modelAt values).Feasible point ∧
      (e.modelAt values).objectiveValue point = least e.index) evaluators
        (evaluators.map operationOf) :=
    List.forall₂_map_right_iff.mpr (List.forall₂_same.mpr hoperationOf)
  obtain ⟨operation, -, hoperation⟩ := exists_keyed_of_forall₂ #[] hindices hoperations
  have hnumber : ∀ e ∈ evaluators, least e.index = number (least e.index).toRat := by
    intro e he
    obtain ⟨hfeasible, hvalue⟩ := hoperation e he
    rw [← hvalue, PlanningProblem.objectiveValue_operation (hready e he) hfeasible,
      Exact.toRat_number]
  refine ⟨fun i => (least i).toRat, operation, List.map_congr_left hnumber, fun e he => ?_⟩
  rw [← hnumber e he]
  exact hoperation e he

namespace PlanningProblem

variable {p : PlanningProblem Exact} {linking : List String} {point : Array Exact}
  {evaluators : List (Evaluator Exact)} {cost : ℕ → ℚ} {candidate : Candidate Exact}

theorem HasProxyFor.perm {indices indices' : List ℕ} (h : p.HasProxyFor indices)
    (hperm : indices'.Perm indices) : p.HasProxyFor indices' :=
  h.imp_right fun ⟨hmulti, hrange⟩ => ⟨hmulti, hperm.trans hrange⟩

theorem Extends.hasProxyFor {p' : PlanningProblem Exact} {indices : List ℕ} (h : p'.Extends p)
    (hproxies : p.HasProxyFor indices) : p'.HasProxyFor indices := by
  rw [HasProxyFor, h.theta, h.isMultiCut]
  exact hproxies

/-- The proxy of a subproblem is found, and so is the first one. -/
theorem HasProxyFor.exists_thetaFor? {indices : List ℕ} (h : p.HasProxyFor indices) {index : ℕ}
    (hindex : index = 0 ∨ index ∈ indices) : ∃ t ∈ p.thetaFor? index, t ∈ p.theta := by
  obtain ⟨hlt, hsame⟩ : ∃ hlt : (if p.isMultiCut then index else 0) < p.theta.size,
      p.thetaFor? index = some p.theta[if p.isMultiCut then index else 0] := by
    rcases h with hone | ⟨hmulti, hperm⟩
    · simp [thetaFor?, isMultiCut, hone]
    · have hpositive : 1 < p.theta.size := of_decide_eq_true hmulti
      have hlt : index < p.theta.size := by
        rcases hindex with rfl | hindex
        · omega
        · exact List.mem_range.mp (hperm.mem_iff.mp hindex)
      simp [thetaFor?, hmulti, hlt]
  exact ⟨_, hsame, Array.getElem_mem hlt⟩

theorem share_of_isMultiCut (hmulti : p.isMultiCut = true) {e : Evaluator Exact}
    (he : e ∈ evaluators) :
    p.share (evaluators.map (·.index)) (evaluators.map fun e => number (cost e.index)) e.index =
      number (cost e.index) := by
  unfold share
  rw [if_pos hmulti, List.zip_map', List.find?_map]
  obtain ⟨found, hfound⟩ : ∃ found, evaluators.find? ((fun t : ℕ × Exact => decide (t.1 = e.index)) ∘
      fun e => (e.index, number (cost e.index))) = some found := by
    rw [← Option.isSome_iff_exists, List.find?_isSome]
    exact ⟨e, he, by simp⟩
  have hindex : found.index = e.index := by simpa using List.find?_some hfound
  rw [hfound]
  simp [hindex]

theorem share_of_not_isMultiCut (hsingle : p.isMultiCut = false) (i : ℕ) :
    p.share (evaluators.map (·.index)) (evaluators.map fun e => number (cost e.index)) i =
      number (evaluators.map fun e => cost e.index).sum := by
  unfold share
  rw [hsingle, if_neg Bool.false_ne_true, Exact.sum_map_number]

theorem sum_share (hcount : p.HasProxyFor (evaluators.map (·.index))) :
    ((List.range p.theta.size).map fun i => (p.share (evaluators.map (·.index))
      (evaluators.map fun e => number (cost e.index)) i).toRat).sum =
        (evaluators.map fun e => cost e.index).sum := by
  rcases hcount with hsingle | ⟨hmulti, hperm⟩
  · have hnot : p.isMultiCut = false := by simp [isMultiCut, hsingle]
    simp [hsingle, share_of_not_isMultiCut hnot]
  · rw [← (hperm.map _).sum_eq, List.map_map]
    congr 1
    apply List.map_congr_left
    intro e he
    simp [share_of_isMultiCut hmulti he]

theorem HasFreeProxies.chargesProxies (h : p.HasFreeProxies linking evaluators) :
    p.ChargesProxies := h.objective

theorem HasFreeProxies.cost_eq (h : p.HasFreeProxies linking evaluators) (x : ℕ → ℚ) :
    p.model.cost x = p.fixedCost.valueAt x + (p.theta.toList.map x).sum := by
  have hlinear : termSum p.model.quadratic.toList (fun v => x v * x v) = 0 :=
    termSum_eq_zero (fun t ht => by simp [h.linear t (Array.mem_toList_iff.mp ht)]) _
  rw [Model.cost, hlinear, add_zero, h.chargesProxies.valueAt_objective]

/-- With the proxies at their shares, the objective is the fixed cost plus the cost of operation. -/
theorem HasFreeProxies.objectiveValue_eq (h : p.HasFreeProxies linking evaluators)
    (hm : p.model.WellFormed) (hpoint : p.model.Feasible point) {shares : ℕ → Exact}
    (hshares : p.model.Feasible (p.withProxies point shares)) :
    p.model.objectiveValue (p.withProxies point shares) = p.fixedCost.evaluate point +
      number ((List.range p.theta.size).map fun i => (shares i).toRat).sum := by
  have hfixed : p.fixedCost.evaluate (p.withProxies point shares) = p.fixedCost.evaluate point :=
    Expression.evaluate_congr fun t ht => entry_withProxies_of_notMem (h.fixedCost t ht)
  have hover := h.chargesProxies.isOver_fixedCost hm
  have hproxies : p.theta.toList.map (coordinate (p.withProxies point shares)) =
      (List.range p.theta.size).map fun i => (shares i).toRat := by
    apply List.ext_getElem
    · simp
    · intro i hi _
      have hlt : i < p.theta.size := by simpa using hi
      have ht : p.theta[i] < point.size := by
        rw [hpoint.size]
        exact h.chargesProxies.proxy_lt hm (Array.getElem_mem hlt)
      simp [coordinate, entry_withProxies h.distinct (Array.getElem?_eq_getElem hlt) ht]
  rw [Model.objectiveValue_eq hm hshares.toIsFiniteVector, h.cost_eq, ← hfixed,
    Expression.evaluate_eq hover hshares.toIsFiniteVector, hproxies, Exact.number_add]

/-- Every candidate with operations for all subproblems has a served point whose objective is what
the candidate costs. -/
theorem HasFreeProxies.exists_served (h : p.HasFreeProxies linking evaluators)
    (hm : p.model.WellFormed) (hready : ∀ e ∈ evaluators, e.IsReady)
    (hindices : (evaluators.map (·.index)).Nodup)
    (hcount : p.HasProxyFor (evaluators.map (·.index)))
    (hoffers : p.Offers linking candidate) {costs : List Exact}
    (hcosts : List.Forall₂ (fun e v => (e.modelAt candidate.values.valueAt).HasMinimum v)
      evaluators costs) :
    ∃ served operation, p.IsServed evaluators served operation ∧
      p.model.objectiveValue served = candidate.fixedCost + Scalar.sum costs := by
  obtain ⟨point, bound, hpoint, hcandidate⟩ := hoffers
  have hserved := h.admits point bound candidate costs hpoint hcandidate hcosts
  obtain ⟨cost, operation, rfl, hoperation⟩ :=
    Evaluator.exists_operations hready hindices hcosts
  set shares := p.share (evaluators.map (·.index))
    (evaluators.map fun e => number (cost e.index)) with hshares
  have hproxy : ∀ i t, p.theta[i]? = some t →
      Scalar.entry (p.withProxies point shares) t = shares i := by
    intro i t hi
    obtain ⟨hlt, rfl⟩ := Array.getElem?_eq_some_iff.mp hi
    exact entry_withProxies h.distinct hi
      ((h.chargesProxies.proxy_lt hm (Array.getElem_mem hlt)).trans_eq hpoint.size.symm)
  -- No proxy is a linking variable, so the operations are the same at the changed point.
  have hmodels : ∀ e ∈ evaluators, e.modelAt (p.linkAt (p.withProxies point shares)) =
      e.modelAt candidate.values.valueAt := by
    intro e he
    apply Evaluator.modelAt_congr
    intro fixed hfixed
    have hdefined := Evaluator.value_ne_undefined (hready e he) (hoperation e he).1 hfixed
    obtain ⟨hname, hvalue⟩ := valueAt_of_ofPoint hcandidate hdefined
    rw [linkAt_withProxies (h.unlinked _ hname), hvalue]
  have hcost : ∀ e ∈ evaluators,
      (e.modelAt (p.linkAt (p.withProxies point shares))).objectiveValue (operation e.index) =
        number (cost e.index) := by
    intro e he
    rw [hmodels e he, (hoperation e he).2]
  refine ⟨p.withProxies point shares, operation, ⟨hserved, fun e he => ?_, ?_⟩, ?_⟩
  · rw [hmodels e he]
    exact (hoperation e he).1
  · split_ifs with hmulti
    · intro e he theta htheta
      rw [thetaFor?, if_pos hmulti] at htheta
      rw [hcost e he, hproxy _ _ htheta, hshares, share_of_isMultiCut hmulti he]
      exact Exact.number_le.mpr le_rfl
    · intro theta htheta
      rw [thetaFor?, if_neg hmulti] at htheta
      rw [List.map_congr_left hcost, hproxy _ _ htheta, hshares,
        share_of_not_isMultiCut (Bool.eq_false_iff.mpr hmulti), Exact.sum_map_number]
      exact Exact.number_le.mpr le_rfl
  · rw [h.objectiveValue_eq hm hpoint hserved, hshares, sum_share hcount,
      (parts_of_ofPoint hcandidate).1, Exact.sum_map_number]

end PlanningProblem

/-- Whether no operation of a model can have a negative cost: all its costs are on variables that
are not negative. -/
def Model.NeverEarns {K : Type} [Scalar K] (m : Model K) : Prop :=
  0.0 ≤ m.objective.constant ∧
    ∀ t ∈ m.objective.terms, 0.0 ≤ t.2 ∧ ∀ v ∈ m.vars[t.1]?, 0.0 ≤ v.lowerBound

instance (m : Model Exact) : Decidable m.NeverEarns := inferInstanceAs (Decidable (_ ∧ _))

theorem Model.NeverEarns.objectiveValue_nonneg {m : Model Exact} {rhs point : Array Exact}
    (h : m.NeverEarns) (hm : m.WellFormed) (hpoint : (m.withRhs rhs).Feasible point) :
    number 0 ≤ m.objectiveValue point := by
  obtain ⟨hconstant, hterms⟩ := h
  have hfinite : IsFiniteVector m.vars.size point := hpoint.toIsFiniteVector
  rw [Model.objectiveValue_eq hm hfinite, Exact.number_le]
  have hlinear : 0 ≤ termSum m.objective.terms.toList (coordinate point) := by
    apply List.sum_nonneg
    intro y hy
    obtain ⟨t, ht, rfl⟩ := List.mem_map.mp hy
    rw [Array.mem_toList_iff] at ht
    obtain ⟨hlt, hnumber⟩ := hm.objective.terms t ht
    obtain ⟨hcoefficient, hlower⟩ := hterms t ht
    have hvar := Array.getElem?_eq_getElem hlt
    have hentry := Exact.le_trans (hlower _ hvar) (hpoint.admitted _ _ hvar).1
    rw [hfinite.entry_eq hlt, Exact.zero_eq, Exact.number_le] at hentry
    rw [← Exact.number_toRat hnumber, Exact.zero_eq, Exact.number_le] at hcoefficient
    exact mul_nonneg hcoefficient hentry
  have hsquares := hm.squares_nonneg (coordinate point)
  have hfixed : 0 ≤ m.objective.constant.toRat := by
    rwa [← Exact.number_toRat hm.objective.constant, Exact.zero_eq, Exact.number_le] at hconstant
  unfold Model.cost Expression.valueAt
  linarith

/-- Proxies that no row speaks of, bounded by zero or less from below and by nothing from above, may
take the costs of operations that never earn. -/
theorem PlanningProblem.admits_of_neverEarns {p : PlanningProblem Exact} {point : Array Exact}
    {evaluators : List (Evaluator Exact)} {costs : List Exact} {values : String → Exact}
    (hpoint : p.model.Feasible point) (hdistinct : p.theta.toList.Nodup)
    (hrows : ∀ c ∈ p.model.constraints, ∀ t ∈ c.expression.terms, t.1 ∉ p.theta.toList)
    (hbounds : ∀ t ∈ p.theta.toList, ∀ v ∈ p.model.vars[t]?,
      v.lowerBound ≤ 0.0 ∧ v.upperBound = Scalar.infinity ∧ v.integer = false)
    (hready : ∀ e ∈ evaluators, e.IsReady) (hindices : (evaluators.map (·.index)).Nodup)
    (hcount : p.HasProxyFor (evaluators.map (·.index)))
    (hearns : ∀ e ∈ evaluators, e.activeModel.NeverEarns)
    (hcosts : List.Forall₂ (fun e v => (e.modelAt values).HasMinimum v) evaluators costs) :
    p.model.Feasible (p.withProxies point (p.share (evaluators.map (·.index)) costs)) := by
  obtain ⟨cost, operation, rfl, hoperation⟩ :=
    Evaluator.exists_operations hready hindices hcosts
  have hnonneg : ∀ e ∈ evaluators, 0 ≤ cost e.index := by
    intro e he
    obtain ⟨hfeasible, hvalue⟩ := hoperation e he
    have hbound : number 0 ≤ (e.modelAt values).objectiveValue (operation e.index) :=
      (hearns e he).objectiveValue_nonneg (hready e he).model hfeasible
    rwa [hvalue, Exact.number_le] at hbound
  have hshare : ∀ i < p.theta.size, ∃ q : ℚ, 0 ≤ q ∧ p.share (evaluators.map (·.index))
      (evaluators.map fun e => number (cost e.index)) i = number q := by
    intro i hi
    rcases hcount with hsingle | ⟨hmulti, hperm⟩
    · have hnot : p.isMultiCut = false := by simp [isMultiCut, hsingle]
      refine ⟨_, List.sum_nonneg ?_, share_of_not_isMultiCut hnot i⟩
      intro y hy
      obtain ⟨e, he, rfl⟩ := List.mem_map.mp hy
      exact hnonneg e he
    · obtain ⟨e, he, rfl⟩ := List.mem_map.mp (hperm.mem_iff.mpr (List.mem_range.mpr hi))
      exact ⟨_, hnonneg e he, share_of_isMultiCut hmulti he⟩
  apply feasible_withProxies hpoint hdistinct hrows
  intro i t v hi hv
  obtain ⟨hlt, rfl⟩ := Array.getElem?_eq_some_iff.mp hi
  obtain ⟨q, hq, hshares⟩ := hshare i hlt
  obtain ⟨hlower, hupper, hcontinuous⟩ := hbounds _ (Array.getElem_mem_toList hlt) v hv
  rw [hshares]
  refine ⟨Exact.isFinite_number q, ?_, ?_, fun hinteger => ?_⟩
  · rw [Exact.zero_eq] at hlower
    exact Exact.le_trans hlower (Exact.number_le.mpr hq)
  · rw [hupper]
    exact .inl rfl
  · rw [hcontinuous] at hinteger
    cases hinteger

end BendersPlanning

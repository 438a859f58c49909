import BendersPlanning.Proofs.OutcomeSources

/-!
# What an evaluation proves

With an exact backend the outcome of an evaluation is a statement about the subproblem at all
linking values: prices of the fixing rows support the optimal cost from below, and a certificate on
the fixing rows is positive at no values that some operation can serve. `OperationOutcome.IsTrueOf`
says so, and `Evaluator.Obtains.isTrueOf` proves it of whatever an evaluation obtains.
-/

namespace BendersPlanning

open Exact (number)

namespace SortedMap

variable {κ ν : Type} [LT κ] [DecidableLT κ] [LE κ] [Std.IsLinearOrder κ] [Std.LawfulOrderLT κ]

theorem alterEntries_perm {key : κ} {es : List (κ × ν)} (h : key ∉ es.map (·.1))
    (f : Option ν → ν) : (alterEntries key f es).Perm ((key, f none) :: es) := by
  induction es with
  | nil => exact .refl _
  | cons e rest ih =>
    obtain ⟨k, v⟩ := e
    obtain ⟨hk, hrest⟩ := not_or.mp (List.mem_cons.not.mp h)
    rw [alterEntries]
    split_ifs with h₁ h₂
    · exact .refl _
    · exact ((ih hrest).cons _).trans (.swap _ _ _)
    · exact (hk (Std.le_antisymm (Std.not_lt.mp h₂) (Std.not_lt.mp h₁))).elim

/-- Inserting entries under new and different keys adds all of them. -/
theorem foldl_insert_perm (es : List (κ × ν)) (m : SortedMap κ ν)
    (h : ((m.entries ++ es).map (·.1)).Nodup) :
    (es.foldl (fun m e => m.insert e.1 e.2) m).entries.Perm (m.entries ++ es) := by
  induction es generalizing m with
  | nil => simp
  | cons e es ih =>
    have hkeys := h
    rw [List.map_append, List.map_cons] at hkeys
    have hfresh : e.1 ∉ m.entries.map (·.1) := fun hmem =>
      (List.nodup_append.mp hkeys).2.2 _ hmem _ List.mem_cons_self rfl
    have hinsert : (m.insert e.1 e.2).entries.Perm (e :: m.entries) :=
      alterEntries_perm hfresh _
    have hmoved : ((m.insert e.1 e.2).entries ++ es).Perm (m.entries ++ e :: es) :=
      (hinsert.append_right es).trans List.perm_middle.symm
    exact (ih _ ((hmoved.map _).nodup_iff.mpr h)).trans hmoved

theorem ofList_perm {es : List (κ × ν)} (h : (es.map (·.1)).Nodup) :
    (ofList es).entries.Perm es := by
  have hperm := foldl_insert_perm es .empty
    (by simpa [empty] using h)
  simpa [ofList, empty] using hperm

end SortedMap

theorem termSum_perm {κ : Type} {s t : List (κ × Exact)} (h : s.Perm t) (x : κ → ℚ) :
    termSum s x = termSum t x := (h.map _).sum_eq

/-- The affine function of the linking values that an outcome describes: cost or margin at the
evaluated values, prices as slopes. -/
def OperationOutcome.affine (o : OperationOutcome Exact) (values : SortedMap String Exact)
    (x : String → ℚ) : ℚ :=
  (match o with
    | .optimal cost _ _ => cost.toRat
    | .infeasible _ margin => margin.toRat) +
  (termSum o.prices.entries x - termSum o.prices.entries fun name => (values.valueAt name).toRat)

def OperationOutcome.IsTrueOf (o : OperationOutcome Exact) (e : Evaluator Exact)
    (values : SortedMap String Exact) : Prop :=
  (∀ t ∈ o.prices.entries,
    Scalar.isFinite t.2 = true ∧ Scalar.isFinite (values.valueAt t.1) = true) ∧
  match o with
  | .optimal cost _ _ =>
    (e.modelAt values.valueAt).HasMinimum cost ∧ Scalar.isFinite cost = true ∧
      ∀ (x : String → ℚ) (point : Array Exact),
        (e.modelAt fun name => number (x name)).Feasible point →
        number (o.affine values x) ≤ (e.modelAt fun name => number (x name)).objectiveValue point
  | .infeasible _ margin =>
    (∀ point, ¬(e.modelAt values.valueAt).Feasible point) ∧ Scalar.isFinite margin = true ∧
      ∀ (x : String → ℚ) (point : Array Exact),
        (e.modelAt fun name => number (x name)).Feasible point → o.affine values x ≤ 0

namespace OperationOutcome

variable {o : OperationOutcome Exact} {e : Evaluator Exact} {values : SortedMap String Exact}
  {x : String → ℚ} {point : Array Exact}

theorem affine_eq (h : o.isFeasible = true) : o.affine values x = o.cost.toRat +
    (termSum o.prices.entries x -
      termSum o.prices.entries fun name => (values.valueAt name).toRat) := by
  cases o with
  | optimal cost prices used => rfl
  | infeasible ray margin => cases h

theorem IsTrueOf.number_cost (ho : o.IsTrueOf e values) (h : o.isFeasible = true) :
    o.cost = number o.cost.toRat := by
  cases o with
  | optimal cost prices used => exact (Exact.number_toRat ho.2.2.1).symm
  | infeasible ray margin => cases h

theorem IsTrueOf.hasMinimum (ho : o.IsTrueOf e values) (h : o.isFeasible = true) :
    (e.modelAt values.valueAt).HasMinimum o.cost := by
  cases o with
  | optimal cost prices used => exact ho.2.1
  | infeasible ray margin => cases h

theorem IsTrueOf.not_feasible (ho : o.IsTrueOf e values) (h : o.isFeasible = false)
    (point : Array Exact) : ¬(e.modelAt values.valueAt).Feasible point := by
  cases o with
  | optimal cost prices used => cases h
  | infeasible ray margin => exact ho.2.1 point

theorem IsTrueOf.supports (ho : o.IsTrueOf e values) (h : o.isFeasible = true)
    (hpoint : (e.modelAt fun name => number (x name)).Feasible point) :
    number (o.affine values x) ≤ (e.modelAt fun name => number (x name)).objectiveValue point := by
  cases o with
  | optimal cost prices used => exact ho.2.2.2 x point hpoint
  | infeasible ray margin => cases h

/-- No operation exists where the affine function of an infeasible outcome is positive. -/
theorem IsTrueOf.refutes (ho : o.IsTrueOf e values) (h : o.isFeasible = false)
    (hpoint : (e.modelAt fun name => number (x name)).Feasible point) : o.affine values x ≤ 0 := by
  cases o with
  | optimal cost prices used => cases h
  | infeasible ray margin => exact ho.2.2.2 x point hpoint

section Outcomes
variable {pairs : List (Evaluator Exact × OperationOutcome Exact)}
  {outcomes : SortedMap ℕ (OperationOutcome Exact)}
  (hentries : outcomes.entries.Perm (pairs.map fun q => (q.1.index, q.2)))
include hentries

theorem exists_of_mem_entries {index : ℕ} (h : (index, o) ∈ outcomes.entries) :
    ∃ e, (e, o) ∈ pairs ∧ e.index = index := by
  obtain ⟨⟨e, o'⟩, hmem, hsame⟩ := List.mem_map.mp (hentries.mem_iff.mp h)
  obtain ⟨rfl, rfl⟩ := Prod.mk.inj hsame
  exact ⟨e, hmem, rfl⟩

theorem values_perm : outcomes.values.Perm (pairs.map (·.2)) := by
  have hmapped := hentries.map (·.2)
  rwa [List.map_map] at hmapped

theorem all_isFeasible_iff :
    outcomes.values.all (·.isFeasible) = true ↔ ∀ q ∈ pairs, q.2.isFeasible = true := by
  have hvalues := values_perm hentries
  rw [List.all_eq_true]
  constructor
  · exact fun h q hq => h _ (hvalues.mem_iff.mpr (List.mem_map_of_mem hq))
  · intro h o ho
    obtain ⟨q, hq, rfl⟩ := List.mem_map.mp (hvalues.mem_iff.mp ho)
    exact h q hq

theorem number_cost_of_mem (htrue : ∀ q ∈ pairs, q.2.IsTrueOf q.1 values)
    (hfeasible : outcomes.values.all (·.isFeasible) = true) :
    ∀ o ∈ outcomes.values, o.cost = number o.cost.toRat := by
  intro o ho
  obtain ⟨q, hq, rfl⟩ := List.mem_map.mp ((values_perm hentries).mem_iff.mp ho)
  exact (htrue q hq).number_cost ((all_isFeasible_iff hentries).mp hfeasible q hq)

end Outcomes

end OperationOutcome

/-- A sum over rows where only the fixed ones gain anything. -/
theorem sum_gain_fixing {count : ℕ} {rows : List (String × ℕ)} (hrows : (rows.map (·.2)).Nodup)
    (hbound : ∀ entry ∈ rows, entry.2 < count) (slope : ℕ → ℚ) (gain : String → ℚ) :
    ∑ i ∈ Finset.range count, slope i * ((rows.find? (·.2 = i)).elim 0 fun entry => gain entry.1) =
      (rows.map fun entry => slope entry.2 * gain entry.1).sum := by
  induction rows with
  | nil => simp
  | cons entry rows ih =>
    obtain ⟨hfresh, hrest⟩ := List.nodup_cons.mp hrows
    obtain ⟨hentry, hbound⟩ := List.forall_mem_cons.mp hbound
    have hnone : rows.find? (·.2 = entry.2) = none := by
      refine List.find?_eq_none.mpr fun other hother hsame => hfresh ?_
      exact List.mem_map.mpr ⟨other, hother, of_decide_eq_true hsame⟩
    have hsplit : ∀ i ∈ Finset.range count,
        slope i * (((entry :: rows).find? (·.2 = i)).elim 0 fun entry => gain entry.1) =
          (if i = entry.2 then slope entry.2 * gain entry.1 else 0) +
            slope i * ((rows.find? (·.2 = i)).elim 0 fun entry => gain entry.1) := by
      intro i _
      by_cases hi : i = entry.2
      · subst hi
        rw [List.find?_cons_of_pos (by simp), hnone]
        simp
      · rw [List.find?_cons_of_neg (by simpa using Ne.symm hi), if_neg hi, zero_add]
    rw [Finset.sum_congr rfl hsplit, Finset.sum_add_distrib, ih hrest hbound, Finset.sum_ite_eq',
      if_pos (Finset.mem_range.mpr hentry), List.map_cons, List.sum_cons]

namespace Evaluator

variable {e e' : Evaluator Exact} {values : SortedMap String Exact} {slopes : Array Exact}
  {x : String → ℚ}

theorem IsReady.isFiniteVector_rhsFixing (he : e.IsReady) {v : String → Exact}
    (hv : ∀ entry ∈ e.fixingRows, Scalar.isFinite (v entry.1) = true) :
    IsFiniteVector e.activeModel.constraints.size (e.activeModel.rhsFixing e.fixingRows v) := by
  refine ⟨by simp [Model.rhsFixing], fun y hy => ?_⟩
  obtain ⟨i, hi, rfl⟩ := Array.mem_iff_getElem.mp hy
  simp only [Model.rhsFixing, Array.getElem_mapIdx]
  split
  · rename_i name row hfound
    exact hv _ (List.mem_of_find?_eq_some hfound)
  · exact (he.model.rows _ (Array.getElem_mem _)).2

/-- The change of the right-hand sides from fixed values to others, along any slopes. -/
theorem IsReady.changeAlong_rhsFixing (he : e.IsReady)
    (hslopes : IsFiniteVector e.activeModel.constraints.size slopes)
    {v : String → Exact} (hv : ∀ entry ∈ e.fixingRows, Scalar.isFinite (v entry.1) = true) :
    changeAlong slopes (e.activeModel.rhsFixing e.fixingRows v)
        (e.activeModel.rhsFixing e.fixingRows fun name => number (x name)) =
      number (e.fixingRows.map fun entry =>
        coordinate slopes entry.2 * (x entry.1 - (v entry.1).toRat)).sum := by
  have hold := he.isFiniteVector_rhsFixing hv
  have hnew := he.isFiniteVector_rhsFixing (v := fun name => number (x name))
    fun _ _ => Exact.isFinite_number _
  rw [changeAlong_eq hslopes hold hnew,
    ← sum_gain_fixing he.rows he.bound _ fun name => x name - (v name).toRat]
  refine congrArg number (Finset.sum_congr rfl fun i hi => ?_)
  have hc := Array.getElem?_eq_getElem (Finset.mem_range.mp hi)
  simp only [coordinate, Model.entry_rhsFixing hc]
  cases e.fixingRows.find? (·.2 = i) with
  | none => simp
  | some entry => simp

/-- Slopes read on the fixing rows, by the names of their variables. -/
def slopesByName (e : Evaluator Exact) (slopes : Array Exact) : List (String × Exact) :=
  e.fixingRows.map fun entry => (entry.1, Scalar.entry slopes entry.2)

theorem IsReady.ofList_slopesByName_perm (he : e.IsReady) (slopes : Array Exact) :
    (SortedMap.ofList (e.slopesByName slopes)).entries.Perm (e.slopesByName slopes) := by
  refine SortedMap.ofList_perm ?_
  rw [slopesByName, List.map_map]
  exact he.names

theorem IsReady.termSum_slopesByName (he : e.IsReady) (slopes : Array Exact) (x : String → ℚ) :
    termSum (SortedMap.ofList (e.slopesByName slopes)).entries x =
      (e.fixingRows.map fun entry => coordinate slopes entry.2 * x entry.1).sum := by
  rw [termSum_perm (he.ofList_slopesByName_perm slopes), termSum, slopesByName, List.map_map]
  rfl

theorem IsReady.finite_slopesByName (he : e.IsReady)
    (hslopes : IsFiniteVector e.activeModel.constraints.size slopes) {v : String → Exact}
    (hv : ∀ entry ∈ e.fixingRows, Scalar.isFinite (v entry.1) = true) :
    ∀ t ∈ (SortedMap.ofList (e.slopesByName slopes)).entries,
      Scalar.isFinite t.2 = true ∧ Scalar.isFinite (v t.1) = true := by
  intro t ht
  rw [(he.ofList_slopesByName_perm slopes).mem_iff] at ht
  obtain ⟨entry, hentry, rfl⟩ := List.mem_map.mp ht
  rw [hslopes.entry_eq (he.bound entry hentry)]
  exact ⟨Exact.isFinite_number _, hv entry hentry⟩

/-- Against slopes by name, a change of linking values is one of right-hand sides. -/
theorem IsReady.changeAlong_eq_termSum (he : e.IsReady)
    (hslopes : IsFiniteVector e.activeModel.constraints.size slopes)
    {v : String → Exact} (hv : ∀ entry ∈ e.fixingRows, Scalar.isFinite (v entry.1) = true) :
    changeAlong slopes (e.activeModel.rhsFixing e.fixingRows v)
        (e.activeModel.rhsFixing e.fixingRows fun name => number (x name)) =
      number (termSum (SortedMap.ofList (e.slopesByName slopes)).entries x -
        termSum (SortedMap.ofList (e.slopesByName slopes)).entries fun name => (v name).toRat) := by
  rw [he.changeAlong_rhsFixing hslopes hv, ← termSum_sub, he.termSum_slopesByName]

theorem optimalOutcome_eq_ok {s : Solution Exact} {o : OperationOutcome Exact}
    (h : e.optimalOutcome s = .ok o) :
    ∃ used, o = .optimal s.objective (.ofList (e.slopesByName s.duals)) used := by
  obtain ⟨prices, hprices, hreturn⟩ := bind_eq_ok.mp h
  obtain rfl := Except.ok.inj hreturn
  suffices hsame : prices = .ofList (e.slopesByName s.duals) from ⟨e.usedSlack s, hsame ▸ rfl⟩
  rw [SortedMap.ofList, slopesByName, List.foldl_map]
  refine eq_foldl_of_foldlM_eq_ok (fun m entry m' hstep => ?_) hprices
  cases hdual : s.dual? entry.2 with
  | none => simp [hdual] at hstep
  | some price =>
    simp only [hdual, Except.ok.injEq] at hstep
    have hentry : Scalar.entry s.duals entry.2 = price := by
      simp [Scalar.entry, show s.duals[entry.2]? = some price from hdual]
    rw [hentry, hstep]

theorem rightHandSides_of_fixed {v : String → Exact} (hfixed : e.activeModel = e.modelAt v) :
    e.activeModel.rightHandSides = e.activeModel.rhsFixing e.fixingRows v := by
  conv_lhs => rw [hfixed]
  refine Array.ext (by simp [Model.rightHandSides, Model.rhsFixing, modelAt, Model.withRhs])
    fun i hi hi' => ?_
  simp [Model.rightHandSides, modelAt, Model.withRhs, Scalar.entry, hi']

/-- Slopes that bound the model from below at all right-hand sides bound the subproblem from below
at all linking values. -/
theorem IsReady.supports_of_fixed (he : e.IsReady) {v : String → Exact}
    (hv : ∀ entry ∈ e.fixingRows, Scalar.isFinite (v entry.1) = true)
    (hfixed : e.activeModel = e.modelAt v)
    (hslopes : IsFiniteVector e.activeModel.constraints.size slopes) {value : Exact}
    {bound : Array Exact → Exact} (hsupports : ∀ rhs point,
      IsFiniteVector e.activeModel.constraints.size rhs →
      (e.activeModel.withRhs rhs).Feasible point →
      value + changeAlong slopes e.activeModel.rightHandSides rhs ≤ bound point)
    {point : Array Exact} (hpoint : (e.modelAt fun name => number (x name)).Feasible point) :
    value + number (termSum (SortedMap.ofList (e.slopesByName slopes)).entries x -
      termSum (SortedMap.ofList (e.slopesByName slopes)).entries fun name => (v name).toRat) ≤
        bound point := by
  have hrhs := he.isFiniteVector_rhsFixing (v := fun name => number (x name))
    fun _ _ => Exact.isFinite_number _
  have h := hsupports _ point hrhs hpoint
  rwa [rightHandSides_of_fixed hfixed, he.changeAlong_eq_termSum hslopes hv] at h

/-- The outcome read from a truthful solve of a fixed evaluator is true of its subproblem. -/
theorem IsReady.outcome_isTrueOf (he : e.IsReady)
    (hv : ∀ entry ∈ e.fixingRows, Scalar.isFinite (values.valueAt entry.1) = true)
    (hfixed : e.activeModel = e.modelAt values.valueAt) {s : Solution Exact}
    (hs : s.IsExactFor e.activeModel) {o : OperationOutcome Exact} (h : e.outcome s = .ok o) :
    o.IsTrueOf e values := by
  unfold outcome at h
  cases hstatus : s.status with
  | optimal =>
    simp only [hstatus] at h
    obtain ⟨used, rfl⟩ := optimalOutcome_eq_ok h
    have hpriced := hs.priced hstatus he.continuous
    have hminimum := hs.hasMinimum hstatus
    have hfinite := he.finite_slopesByName hpriced.toIsFiniteVector hv
    obtain ⟨q, hq⟩ : ∃ q, s.objective = number q := by
      obtain ⟨point, hpoint, hvalue⟩ := hminimum.attained
      exact ⟨_, hvalue ▸ Model.objectiveValue_eq he.model hpoint.toIsFiniteVector⟩
    refine ⟨hfinite, hfixed ▸ hminimum, hq ▸ Exact.isFinite_number q, fun x point hpoint => ?_⟩
    have hbound := he.supports_of_fixed hv hfixed hpriced.toIsFiniteVector hpriced.supports hpoint
    rw [hq] at hbound
    rw [OperationOutcome.affine, hq]
    exact hbound
  | infeasible =>
    simp only [hstatus, infeasibleOutcome] at h
    split_ifs at h
    cases hcertificate : s.certificate with
    | none => simp [hcertificate] at h
    | some c =>
      simp only [hcertificate, Except.ok.injEq] at h
      have hrefuted := hs.refuted hstatus c hcertificate
      have hfinite := he.finite_slopesByName hrefuted.toIsFiniteVector hv
      obtain ⟨q, hq⟩ := Exact.isFinite_iff.mp hrefuted.margin.1
      have hray : e.fixingRows.map (fun entry => (entry.1, c.ray[entry.2]?.getD 0.0)) =
          e.slopesByName c.ray := by
        refine List.map_congr_left fun entry hentry => ?_
        have hlt : entry.2 < c.ray.size :=
          (he.bound entry hentry).trans_eq hrefuted.size.symm
        simp [Scalar.entry, hlt]
      subst h
      rw [OperationOutcome.IsTrueOf, OperationOutcome.prices]
      refine ⟨hray ▸ hfinite, fun point => ?_, hrefuted.margin.1, fun x point hpoint => ?_⟩
      · rw [← hfixed]
        exact hs.infeasible hstatus point
      · have hbound := he.supports_of_fixed hv hfixed hrefuted.toIsFiniteVector hrefuted.supports
          hpoint
        rw [hq, Exact.number_add, Exact.zero_eq, Exact.number_le, ← hray] at hbound
        rw [OperationOutcome.affine, hq]
        exact hbound
  | unbounded | iterationLimit | numericalFailure => simp [hstatus] at h

/-- With an exact backend an outcome is true of its subproblem. -/
theorem Obtains.isTrueOf {σ : Type} {backend : Backend (StateM σ) Exact} (hb : backend.IsExact)
    (he : e.IsReady) {o : OperationOutcome Exact} (h : e.Obtains backend values o) :
    o.IsTrueOf e values := by
  obtain ⟨settings, w, s, w', hreplied, houtcome⟩ := h.replied
  exact he.outcome_isTrueOf (fun _ => h.isFinite_valueAt) h.fixed
    (hb _ settings w w' s he.model hreplied) houtcome

end Evaluator

end BendersPlanning

import BendersPlanning.Proofs.BitingCuts
import BendersPlanning.Proofs.ObjectiveReadings

/-!
# Cuts and their rows

A cut is kept with names of linking variables and becomes a row in variables of the planning model,
with the signs of its kind and without zero coefficients. Both measure the same: the amount by which
a cut is violated at values and a proxy that were read from a point is that of its row there, also
where several names or a proxy stand for one variable, and whatever numbers the cut was made of.
-/

namespace BendersPlanning

open Exact (number)
open Scalar (entry)

section Meaning
variable {K : Type} [Scalar K]

/-- Linking values and a proxy value are those of a point, as far as a cut looks at them. -/
structure Cut.IsReadAt (c : Cut K) (p : PlanningProblem K) (point : Array K)
    (values : SortedMap String K) (theta : K) : Prop where
  values : ∀ t ∈ c.coefficients.entries, values.find? t.1 = some (p.linkAt point t.1)
  theta : ∀ t ∈ c.theta, theta = entry point t

/-- What a cut asks for where it was made: to cover the margin of an infeasible subproblem, the cost of
its subproblem beyond the proxy, or with a single proxy the cost of all of them. -/
inductive Cut.Exceeds (p : PlanningProblem K) (outcomes : SortedMap ℕ (OperationOutcome K))
    (c : Cut K) (theta : K) : K → Prop where
  | margin {index : ℕ} {ray : SortedMap String K} {margin : K} :
      (index, .infeasible ray margin) ∈ outcomes.entries → c.kind = .feasibility →
      c.subproblem = some index → c.Exceeds p outcomes theta margin
  | cost {index : ℕ} {cost used : K} {prices : SortedMap String K} : p.isMultiCut = true →
      (index, .optimal cost prices used) ∈ outcomes.entries → c.kind = .optimality →
      c.subproblem = some index → c.theta = p.thetaFor? index →
      c.Exceeds p outcomes theta (cost - theta)
  | total : p.isMultiCut = false → outcomes.values.all (·.isFeasible) = true →
      c.kind = .optimality → c.subproblem = none → c.theta = p.thetaFor? 0 →
      c.Exceeds p outcomes theta (Scalar.sum (outcomes.values.map (·.cost)) - theta)

end Meaning

namespace Exact
variable {x y : Exact} {a : ℚ}

theorem eq_of_beq (h : (x == number a) = true) : x = number a := by
  change isSame x (number a) = true at h
  simpa [isSame] using (Bool.and_eq_true_iff.mp h).2

protected theorem neg_add (x y : Exact) : -(x + y) = -x + -y := by
  change neg (add x y) = add (neg x) (neg y)
  cases x <;> cases y <;> simp [add, neg, add_comm]

theorem neg_mul_number (x : Exact) (a : ℚ) : -x * number a = -(x * number a) := by
  change mul (neg x) (number a) = neg (mul x (number a))
  cases x with
  | number q => simp [mul, neg]
  | undefined => rfl
  | infinity | negInfinity =>
    simp only [mul, neg, signed]
    split_ifs <;> rfl

theorem sub_sub_sub_number (x y : Exact) (a : ℚ) :
    x - number a - (y - number a) = x - y := by
  change add (add x (neg (number a))) (neg (add y (neg (number a)))) = add x (neg y)
  cases x <;> cases y <;> simp [add, neg]

theorem number_sub_sub (a : ℚ) (x : Exact) : number a - (number a - x) = x := by
  change add (number a) (neg (add (number a) (neg x))) = x
  cases x <;> simp [add, neg]

end Exact

/-- A sum of weighted values as it enters a row. -/
def CutKind.oriented (kind : CutKind) (x : Exact) : Exact :=
  match kind with
  | .optimality => -x
  | .feasibility => x

theorem CutKind.oriented_add (kind : CutKind) (x y : Exact) :
    kind.oriented (x + y) = kind.oriented x + kind.oriented y := by
  cases kind with
  | optimality => exact Exact.neg_add x y
  | feasibility => rfl

/-- The sign of the kind is applied to a coefficient, with the same effect as to its product with a
finite value. -/
theorem CutKind.signed_mul (kind : CutKind) (x : Exact) (a : ℚ) :
    number kind.sign * x * number a = kind.oriented (x * number a) := by
  cases kind with
  | optimality =>
    change number (-1) * x * number a = -(x * number a)
    rw [Exact.neg_one_mul, Exact.neg_mul_number]
  | feasibility =>
    change number 1 * x * number a = x * number a
    rw [Exact.one_mul]

/-- Two folds over one list succeed together and keep what relates their values. -/
theorem exists_foldlM_side_by_side {ε δ α β γ : Type} {f : β → α → Except ε β}
    {g : γ → α → Except δ γ} {R : β → γ → Prop} {xs : List α}
    (hstep : ∀ a ∈ xs, ∀ b c, R b c → ∃ b' c', f b a = .ok b' ∧ g c a = .ok c' ∧ R b' c') {b : β}
    {c : γ} (h : R b c) : ∃ b' c', xs.foldlM f b = .ok b' ∧ xs.foldlM g c = .ok c' ∧ R b' c' := by
  induction xs generalizing b c with
  | nil => exact ⟨b, c, rfl, rfl, h⟩
  | cons a xs ih =>
    obtain ⟨hfirst, hrest⟩ := List.forall_mem_cons.mp hstep
    obtain ⟨b₁, c₁, hb, hc, h₁⟩ := hfirst b c h
    obtain ⟨b', c', hb', hc', h'⟩ := ih hrest h₁
    refine ⟨b', c', ?_, ?_, h'⟩
    · exact bind_eq_ok.mpr ⟨b₁, hb, hb'⟩
    · exact bind_eq_ok.mpr ⟨c₁, hc, hc'⟩

namespace PlanningProblem
variable {p : PlanningProblem Exact} {point : Array Exact} {name : String} {v : ℕ}

theorem linkAt_of_variableNamed? {K : Type} [Scalar K] {p : PlanningProblem K} {point : Array K}
    (hv : p.model.variableNamed? name = some v) : p.linkAt point name = entry point v := by
  simp [linkAt, hv]

theorem entry_of_variableNamed? (hpoint : IsFiniteVector p.model.vars.size point)
    (hv : p.model.variableNamed? name = some v) :
    entry point v = number (coordinate point v) :=
  hpoint.entry_eq (Array.findIdx?_eq_some_iff_getElem.mp hv).choose

end PlanningProblem

namespace Cut
variable {p : PlanningProblem Exact} {c : Cut Exact} {point : Array Exact}
  {values : SortedMap String Exact} {theta : Exact}

variable (hnamed : ∀ t ∈ c.coefficients.entries, (p.model.variableNamed? t.1).isSome = true)
include hnamed

theorem exists_constraint : ∃ row, c.constraint p = .ok row := by
  suffices hexpression : ∃ e, c.expression p = .ok e by
    obtain ⟨e, he⟩ := hexpression
    exact ⟨_, bind_eq_ok.mpr ⟨e, he, rfl⟩⟩
  refine (exists_foldlM_eq_ok (P := fun _ => True) ?_ trivial).imp fun _ => And.left
  intro e t ht _
  obtain ⟨v, hv⟩ := Option.isSome_iff_exists.mp (hnamed t ht)
  by_cases hzero : (t.2 == 0.0) = true
  · exact ⟨e, if_pos hzero, trivial⟩
  · exact ⟨_, by simp only [hzero, hv]; rfl, trivial⟩

omit hnamed in
/-- The row starts with the proxy, or with nothing. -/
theorem evaluate_start : (match c.theta with
      | some t => Expression.ofVariable t
      | none => .zero : Expression Exact).evaluate point =
    (c.theta.map (entry point)).getD (number 0) + c.kind.oriented 0.0 := by
  have hnothing : c.kind.oriented 0.0 = number 0 := by
    cases c.kind <;> simp [CutKind.oriented]
  rw [hnothing, Exact.add_number_zero]
  cases c.theta with
  | none => exact Expression.evaluate_zero
  | some t => exact Expression.evaluate_ofVariable

/-- The terms of the row and the sum of the cut grow side by side. -/
theorem exists_evaluate (hpoint : IsFiniteVector p.model.vars.size point)
    (hread : c.IsReadAt p point values theta) :
    ∃ e total, c.expression p = .ok e ∧ c.linkingTerm values = .ok total ∧
      e.evaluate point = (c.theta.map (entry point)).getD (number 0) + c.kind.oriented total := by
  refine exists_foldlM_side_by_side (R := fun (e : Expression Exact) total =>
    e.evaluate point = (c.theta.map (entry point)).getD (number 0) + c.kind.oriented total)
    ?_ evaluate_start
  rintro ⟨name, coefficient⟩ ht e acc h
  obtain ⟨v, hv⟩ := Option.isSome_iff_exists.mp (hnamed _ ht)
  have hentry := PlanningProblem.entry_of_variableNamed? hpoint hv
  have hvalue := hread.values _ ht
  rw [PlanningProblem.linkAt_of_variableNamed? hv, hentry] at hvalue
  simp only [hvalue, hv]
  by_cases hzero : (coefficient == 0.0) = true
  · -- A term that the row leaves out adds nothing to the sum.
    have hsame : acc + coefficient * number (coordinate point v) = acc := by
      rw [Exact.zero_eq] at hzero
      rw [Exact.eq_of_beq hzero, Exact.number_mul, zero_mul, Exact.add_number_zero]
    refine ⟨e, _, if_pos hzero, rfl, ?_⟩
    rw [hsame, h]
  · refine ⟨_, _, if_neg hzero, rfl, ?_⟩
    rw [Expression.evaluate_addTerm, h, hentry, Exact.add_assoc, c.kind.oriented_add,
      ← c.kind.signed_mul]
    cases c.kind <;> simp [CutKind.sign]

/-- A cut with a proxy just where its kind asks for one is violated like its row. -/
theorem violation_eq_row (hproxy : c.theta.isSome = true ↔ c.kind = .optimality)
    (hpoint : IsFiniteVector p.model.vars.size point) (hread : c.IsReadAt p point values theta)
    {row : Constraint Exact} (hrow : c.constraint p = .ok row) :
    c.violation values theta = .ok (row.violation point) := by
  obtain ⟨e, total, hexpression, hterm, hvalue⟩ := exists_evaluate hnamed hpoint hread
  have hconstraint : c.constraint p = .ok _ := bind_eq_ok.mpr ⟨e, hexpression, rfl⟩
  obtain rfl := Except.ok.inj (hconstraint.symm.trans hrow)
  have hviolation : c.violation values theta = .ok _ := bind_eq_ok.mpr ⟨total, hterm, rfl⟩
  rw [hviolation]
  cases hkind : c.kind with
  | optimality =>
    obtain ⟨t, ht⟩ := Option.isSome_iff_exists.mp (hproxy.mpr hkind)
    rw [ht, hkind] at hvalue
    simp only [Constraint.violation, hvalue, hread.theta t ht]
    rfl
  | feasibility =>
    have hnone : c.theta = none := by
      simpa [hkind] using hproxy
    rw [hnone, hkind] at hvalue
    have hterms : e.evaluate point = total := hvalue.trans (Exact.zero_add total)
    simp only [Constraint.violation, hterms]

end Cut

section Generated
variable {p : PlanningProblem Exact} {values prices : SortedMap String Exact}
  {outcomes : SortedMap ℕ (OperationOutcome Exact)} {c : Cut Exact} {theta total cost : Exact}
  {iteration index proxy : ℕ} {subproblem : Option ℕ} {name : String}

/-- What is known of the cuts of an iteration. -/
structure Cut.IsGenerated (c : Cut Exact) (p : PlanningProblem Exact) (values : SortedMap String Exact)
    (outcomes : SortedMap ℕ (OperationOutcome Exact)) : Prop where
  proxy : c.theta.isSome = true ↔ c.kind = .optimality
  named : ∀ t ∈ c.coefficients.entries, ∃ o ∈ outcomes.values, t.1 ∈ o.prices.keys
  finite : (∀ o ∈ outcomes.values, AreFiniteTerms o.prices.entries) →
    AreFiniteTerms c.coefficients.entries
  term : ∃ total, c.linkingTerm values = .ok total
  excess : ∀ theta total, c.linkingTerm values = .ok (number total) →
    ∃ excess, c.Exceeds p outcomes theta excess ∧
      c.violation values theta = .ok (Scalar.larger excess 0.0)

/-- An optimality cut asks at the values it was made for that the proxy covers the cost. -/
theorem Cut.ofOptimal_at_values {a : ℚ}
    (hcut : ofOptimal name subproblem proxy cost prices values = .ok c)
    (hterm : c.linkingTerm values = .ok (number a)) :
    c.violation values theta = .ok (Scalar.larger (cost - theta) 0.0) := by
  obtain ⟨total, htotal, hcut⟩ := bind_eq_ok.mp hcut
  obtain rfl := Except.ok.inj hcut
  obtain rfl := Except.ok.inj (htotal.symm.trans hterm)
  refine bind_eq_ok.mpr ⟨_, htotal, ?_⟩
  exact congrArg (fun x => Except.ok (Scalar.larger x 0.0)) (Exact.sub_sub_sub_number cost theta a)

/-- A feasibility cut is violated by the margin at the values it was made for. -/
theorem Cut.ofInfeasible_at_values {a : ℚ} {margin : Exact}
    (hcut : ofInfeasible name index margin prices values = .ok c)
    (hterm : c.linkingTerm values = .ok (number a)) :
    c.violation values theta = .ok (Scalar.larger margin 0.0) := by
  obtain ⟨total, htotal, hcut⟩ := bind_eq_ok.mp hcut
  obtain rfl := Except.ok.inj hcut
  obtain rfl := Except.ok.inj (htotal.symm.trans hterm)
  refine bind_eq_ok.mpr ⟨_, htotal, ?_⟩
  exact congrArg (fun x => Except.ok (Scalar.larger x 0.0)) (Exact.number_sub_sub a margin)

/-- A cut with the prices of one outcome has nothing but their names and numbers. -/
theorem Cut.named_of_outcome {o : OperationOutcome Exact} (ho : (index, o) ∈ outcomes.entries)
    (hsame : c.coefficients = o.prices) :
    (∀ t ∈ c.coefficients.entries, ∃ o ∈ outcomes.values, t.1 ∈ o.prices.keys) ∧
      ((∀ o ∈ outcomes.values, AreFiniteTerms o.prices.entries) →
        AreFiniteTerms c.coefficients.entries) := by
  have hmem : o ∈ outcomes.values := List.mem_map_of_mem ho
  rw [hsame]
  exact ⟨fun t ht => ⟨o, hmem, List.mem_map_of_mem ht⟩, fun h => h o hmem⟩

theorem Cut.isGenerated_of_infeasible {margin : Exact}
    (ho : (index, .infeasible prices margin) ∈ outcomes.entries)
    (h : ofInfeasible name index margin prices values = .ok c) : c.IsGenerated p values outcomes := by
  obtain ⟨hkind, hsubproblem, htheta, hprices, total, htotal, -⟩ := parts_of_ofInfeasible h
  obtain ⟨hnamed, hfinite⟩ := named_of_outcome ho hprices
  constructor
  case proxy => simp [htheta, hkind]
  case named => exact hnamed
  case finite => exact hfinite
  case term => exact ⟨total, by rwa [linkingTerm, hprices]⟩
  case excess =>
    intro theta a hterm
    exact ⟨margin, .margin ho hkind hsubproblem, ofInfeasible_at_values h hterm⟩

theorem Cut.isGenerated_of_optimal {used : Exact} (hmulti : p.isMultiCut = true)
    (ho : (index, .optimal cost prices used) ∈ outcomes.entries)
    (hproxy : p.thetaFor? index = some proxy)
    (h : ofOptimal name (some index) proxy cost prices values = .ok c) :
    c.IsGenerated p values outcomes := by
  obtain ⟨hkind, hsubproblem, htheta, hprices, total, htotal, -⟩ := parts_of_ofOptimal h
  obtain ⟨hnamed, hfinite⟩ := named_of_outcome ho hprices
  constructor
  case proxy => simp [htheta, hkind]
  case named => exact hnamed
  case finite => exact hfinite
  case term => exact ⟨total, by rwa [linkingTerm, hprices]⟩
  case excess =>
    intro theta a hterm
    exact ⟨cost - theta, .cost hmulti ho hkind hsubproblem (htheta.trans hproxy.symm),
      ofOptimal_at_values h hterm⟩

theorem Cut.isGenerated_of_aggregated (hsingle : p.isMultiCut = false)
    (hall : outcomes.values.all (·.isFeasible) = true)
    (h : aggregatedCut p iteration values outcomes.values = .ok c) :
    c.IsGenerated p values outcomes := by
  unfold aggregatedCut at h
  cases hproxy : p.thetaFor? 0 with
  | none => simp [hproxy] at h
  | some proxy =>
    simp only [hproxy] at h
    obtain ⟨hkind, hsubproblem, htheta, hprices, total, htotal, -⟩ := parts_of_ofOptimal h
    constructor
    case proxy => simp [htheta, hkind]
    case named =>
      intro t ht
      rw [hprices] at ht
      exact mem_mergedPrices ht
    case finite =>
      intro hfinite
      rw [hprices]
      exact finite_mergedPrices hfinite
    case term => exact ⟨total, by rwa [linkingTerm, hprices]⟩
    case excess =>
      intro theta a hterm
      exact ⟨_, .total hsingle hall hkind hsubproblem (htheta.trans hproxy.symm),
        ofOptimal_at_values h hterm⟩

/-- Every cut of an iteration is one of these. -/
theorem PlanningProblem.isGenerated_of_mem_cuts {cuts : List (Cut Exact)}
    (hcuts : p.cuts iteration values outcomes = .ok cuts) (hc : c ∈ cuts) :
    c.IsGenerated p values outcomes := by
  obtain ⟨index, ray, margin, name, ho, hcut⟩ |
    ⟨hmulti, index, cost, prices, used, proxy, name, ho, hproxy, hcut⟩ | ⟨hsingle, hall, hcut⟩ :=
    mem_cuts_cases hcuts hc
  · exact Cut.isGenerated_of_infeasible ho hcut
  · exact Cut.isGenerated_of_optimal hmulti ho hproxy hcut
  · exact Cut.isGenerated_of_aggregated hsingle hall hcut

/-- Cuts over variables of the planning problem become rows of it, and at every point both are violated
by the same amount. That is what the cut was made of where it was made: the cost beyond the proxy, or
the margin. -/
theorem PlanningProblem.rows_measure_cuts {cuts : List (Cut Exact)}
    (hnamed : ∀ o ∈ outcomes.values, ∀ name ∈ o.prices.keys,
      (p.model.variableNamed? name).isSome = true)
    (hcuts : p.cuts iteration values outcomes = .ok cuts) (hc : c ∈ cuts) :
    ∃ row, c.constraint p = .ok row ∧
      (∀ point read theta, IsFiniteVector p.model.vars.size point →
        c.IsReadAt p point read theta → c.violation read theta = .ok (row.violation point)) ∧
      ((∀ o ∈ outcomes.values, ∀ t ∈ o.prices.entries,
          Scalar.isFinite t.2 = true ∧ Scalar.isFinite (values.valueAt t.1) = true) →
        ∀ theta, ∃ excess, c.Exceeds p outcomes theta excess ∧
          c.violation values theta = .ok (Scalar.larger excess 0.0) ∧
          ∀ point, IsFiniteVector p.model.vars.size point → c.IsReadAt p point values theta →
            row.violation point = Scalar.larger excess 0.0) := by
  have hgenerated := isGenerated_of_mem_cuts hcuts hc
  have hplanned : ∀ t ∈ c.coefficients.entries, (p.model.variableNamed? t.1).isSome = true := by
    intro t ht
    obtain ⟨o, ho, hname⟩ := hgenerated.named t ht
    exact hnamed o ho t.1 hname
  obtain ⟨row, hrow⟩ := Cut.exists_constraint hplanned
  have hagree : ∀ point read theta, IsFiniteVector p.model.vars.size point →
      c.IsReadAt p point read theta → c.violation read theta = .ok (row.violation point) :=
    fun point read theta hpoint hread =>
      Cut.violation_eq_row hplanned hgenerated.proxy hpoint hread hrow
  refine ⟨row, hrow, hagree, fun hfinite theta => ?_⟩
  obtain ⟨total, hterm⟩ := hgenerated.term
  have hterms : ∀ t ∈ c.coefficients.entries,
      Scalar.isFinite t.2 = true ∧ Scalar.isFinite (values.valueAt t.1) = true := by
    intro t ht
    refine ⟨hgenerated.finite (fun o ho t ht => (hfinite o ho t ht).1) t ht, ?_⟩
    obtain ⟨o, ho, hname⟩ := hgenerated.named t ht
    obtain ⟨u, hu, hsame⟩ := List.mem_map.mp hname
    exact hsame ▸ (hfinite o ho u hu).2
  rw [weightedSum_eq_ok hterms hterm] at hterm
  obtain ⟨excess, hexceeds, hviolation⟩ := hgenerated.excess theta _ hterm
  refine ⟨excess, hexceeds, hviolation, fun point hpoint hread => ?_⟩
  exact Except.ok.inj ((hagree point values theta hpoint hread).symm.trans hviolation)

/-- Two plants with opposite prices of one capacity, at a capacity of one. -/
def oppositePrices : SortedMap ℕ (OperationOutcome Exact) :=
  .ofList [(0, .optimal (number 4) (.ofList [("capacity", number (-2))]) (number 0)),
    (1, .optimal (number 1) (.ofList [("capacity", number 2)]) (number 0))]

/-- The row of their common cut has lost the capacity; it asks the proxy for the total cost. -/
theorem oppositePrices_row :
    ∃ cuts, onePlant.planning.cuts 1 (.ofList [("capacity", number 1)]) oppositePrices = .ok cuts ∧
      ∃ c ∈ cuts, ∃ row, c.constraint onePlant.planning = .ok row ∧
        c.coefficients.keys = ["capacity"] ∧ row.expression = .ofVariable 1 ∧
        c.violation (.ofList [("capacity", number 1)]) (number 2) =
          .ok (row.violation #[number 1, number 2]) ∧
        row.violation #[number 1, number 2] = number 3 := by
  obtain ⟨cuts, hcuts, hany⟩ := exists_ok_of_any
    (x := onePlant.planning.cuts 1 (.ofList [("capacity", number 1)]) oppositePrices)
    (P := fun cuts => ∃ c ∈ cuts, c.coefficients = .ofList [("capacity", number 0)] ∧
      c.theta = some 1 ∧ (c.constraint onePlant.planning).toOption.any fun row =>
        row.expression = .ofVariable 1 ∧ row.violation #[number 1, number 2] = number 3)
    (by decide +kernel)
  obtain ⟨c, hc, hcoefficients, htheta, hrow⟩ := hany
  obtain ⟨row, hconstraint, hagree, -⟩ := PlanningProblem.rows_measure_cuts (by decide +kernel)
    hcuts hc
  rw [hconstraint] at hrow
  obtain ⟨hexpression, hviolation⟩ := of_decide_eq_true hrow
  refine ⟨cuts, hcuts, c, hc, row, hconstraint, by rw [hcoefficients]; decide +kernel, hexpression,
    hagree _ _ _ (by decide +kernel) ⟨?_, ?_⟩, hviolation⟩
  · rw [hcoefficients]
    decide +kernel
  · rw [htheta]
    decide +kernel

end Generated

end BendersPlanning

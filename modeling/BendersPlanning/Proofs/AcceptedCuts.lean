import BendersPlanning.Proofs.CutValidity
import BendersPlanning.Proofs.FreeProxies
import BendersPlanning.Proofs.GeneratedNames

/-!
# Cuts that the planning problem takes

From outcomes whose numbers are finite and whose names link, at finite values for all linking
variables, the cuts of an iteration are generated and the planning problem takes all of them. Their
names speak of the iteration, so rows that earlier iterations added never stand in the way.
-/

namespace BendersPlanning

open Scalar (isFinite)
open Exact (number)

section Names

/-- The name of a cut of an iteration. -/
def Cut.nameIn (mark : String) (iteration : ℕ) (tail : String) : String :=
  s!"{mark}{iteration},{tail}]"

theorem Cut.toList_nameIn (mark : String) (iteration : ℕ) (tail : String) :
    (nameIn mark iteration tail).toList =
      mark.toList ++ (Nat.toDigits 10 iteration ++ ',' :: (tail.toList ++ [']'])) := by
  simp [nameIn, toString, Nat.repr, String.toList_append]

theorem Cut.isEmpty_nameIn (mark : String) (iteration : ℕ) (tail : String) :
    (nameIn mark iteration tail).isEmpty = false := by
  simp [nameIn, toString]

theorem Cut.isPrefixOf_nameIn (mark : String) (iteration : ℕ) (tail : String) :
    mark.isPrefixOf (nameIn mark iteration tail) = true := by
  rw [String.isPrefixOf, String.startsWith_string_iff, toList_nameIn]
  exact List.prefix_append _ _

theorem Cut.nameIn_all (iteration : ℕ) :
    nameIn "opt_cut[" iteration "all" = s!"opt_cut[{iteration},all]" := by
  simp [nameIn, toString, String.append_assoc]

theorem toDigits_inj {m n : ℕ} (h : Nat.toDigits 10 m = Nat.toDigits 10 n) : m = n := by
  have hread := congrArg (Nat.ofDigitChars 10 · 0) h
  simpa only [Nat.ofDigitChars_ten_toDigits] using hread

/-- Cuts have the same name only with the same mark, iteration and tail. -/
theorem Cut.nameIn_inj {mark mark' tail tail' : String} {iteration iteration' : ℕ}
    (hmark : mark ∈ PlanningProblem.cutMarks) (hmark' : mark' ∈ PlanningProblem.cutMarks)
    (h : nameIn mark iteration tail = nameIn mark' iteration' tail') :
    mark = mark' ∧ iteration = iteration' ∧ tail = tail' := by
  have hdigits (n : ℕ) : ',' ∉ Nat.toDigits 10 n := fun hmem =>
    absurd (Nat.isDigit_of_mem_toDigits (by omega) (by omega) hmem) (by decide)
  have hlist := congrArg String.toList h
  rw [toList_nameIn, toList_nameIn] at hlist
  have hsame : mark = mark' := by
    simp only [PlanningProblem.cutMarks, List.mem_cons, List.not_mem_nil, or_false] at hmark hmark'
    rcases hmark with rfl | rfl <;> rcases hmark' with rfl | rfl <;> simp at hlist ⊢
  subst hsame
  rw [List.append_right_inj, append_cons_inj (hdigits _) (hdigits _), List.append_left_inj,
    String.toList_inj] at hlist
  exact ⟨rfl, toDigits_inj hlist.1, hlist.2⟩

end Names

section Meaning
variable {K : Type} [Scalar K]

/-- The cost of an outcome or the margin of its certificate. -/
def OperationOutcome.amount : OperationOutcome K → K
  | .optimal cost _ _ => cost
  | .infeasible _ margin => margin

/-- Finite numbers, under names of linking variables. -/
structure OperationOutcome.IsFiniteOver (o : OperationOutcome K) (linking : List String) :
    Prop where
  amount : isFinite o.amount = true
  prices : ∀ t ∈ o.prices.entries, t.1 ∈ linking ∧ isFinite t.2 = true

/-- A cut over finite numbers in variables of the planning problem. -/
structure Cut.FitsIn (c : Cut K) (p : PlanningProblem K) : Prop where
  coefficients : ∀ t ∈ c.coefficients.entries,
    isFinite t.2 = true ∧ (p.model.variableNamed? t.1).isSome = true
  theta : ∀ t ∈ c.theta, t < p.model.vars.size
  rhs : isFinite c.rhs = true

namespace PlanningProblem

def rowNames (p : PlanningProblem K) : List String := p.model.constraints.toList.map (·.name)

/-- Whether no row has the name of a cut of a later iteration. -/
def HasNoCutsAfter (p : PlanningProblem K) (count : ℕ) : Prop :=
  ∀ mark ∈ cutMarks, ∀ iteration tail, count < iteration →
    Cut.nameIn mark iteration tail ∉ p.rowNames

omit [Scalar K] in
theorem hasNoCutsAfter_of_cutRows {p : PlanningProblem K} (h : p.cutRows = []) (count : ℕ) :
    p.HasNoCutsAfter count := by
  intro mark hmark iteration tail _ hmem
  obtain ⟨row, hrow, hname⟩ := List.mem_map.mp hmem
  have hcut := List.filter_eq_nil_iff.mp h row hrow
  exact hcut (List.any_eq_true.mpr ⟨mark, hmark, hname ▸ Cut.isPrefixOf_nameIn mark iteration tail⟩)

end PlanningProblem

end Meaning

section Adding
variable {p : PlanningProblem Exact} {c : Cut Exact}

theorem Cut.FitsIn.exists_expression (hc : c.FitsIn p) :
    ∃ e, c.expression p = .ok e ∧ e.IsOver p.model.vars.size := by
  refine exists_foldlM_eq_ok (P := fun e : Expression Exact => e.IsOver p.model.vars.size) ?_ ?_
  · intro e t ht he
    obtain ⟨hfinite, hnamed⟩ := hc.coefficients t ht
    obtain ⟨v, hv⟩ := Option.isSome_iff_exists.mp hnamed
    have hlt : v < p.model.vars.size := (Array.findIdx?_eq_some_iff_getElem.mp hv).choose
    obtain ⟨q, hq⟩ := Exact.isFinite_iff.mp hfinite
    by_cases hzero : (t.2 == 0.0) = true
    · exact ⟨e, if_pos hzero, he⟩
    · refine ⟨_, by simp only [hzero, hv]; rfl, he.addTerm hlt ?_⟩
      cases c.kind <;> simp [hq]
  · have hzero : (Expression.zero : Expression Exact).IsOver p.model.vars.size :=
      ⟨by simp [Expression.zero, Expression.ofConstant], Scalar.isFinite_zero⟩
    cases htheta : c.theta with
    | none => exact hzero
    | some t => exact hzero.addTerm (hc.theta t htheta) OrderedScalar.one_finite

namespace PlanningProblem

theorem exists_addCut (hc : c.FitsIn p) (hname : c.name.isEmpty = false)
    (hnew : c.name ∉ p.rowNames) :
    ∃ p', p.addCut c = .ok p' ∧ p'.model.vars = p.model.vars ∧
      p'.rowNames = p.rowNames ++ [c.name] := by
  obtain ⟨e, hexpression, hover⟩ := hc.exists_expression
  obtain ⟨row, hrow, hrowName, hrowExpression, hrowRhs⟩ : ∃ row, c.constraint p = .ok row ∧
      row.name = c.name ∧ row.expression = e ∧ row.rhs = c.rhs :=
    ⟨_, bind_eq_ok.mpr ⟨e, hexpression, rfl⟩, rfl, rfl, rfl⟩
  have hadd : p.model.addConstraint row = .ok (_, _) := Model.addConstraint_eq_ok.mpr
    ⟨hrowName ▸ hname, hrowName ▸ Model.constraintNamed?_eq_none_iff.mpr hnew, hrowRhs ▸ hc.rhs,
      hrowExpression ▸ hover, rfl, rfl⟩
  refine ⟨_, bind_eq_ok.mpr ⟨_, hrow, bind_eq_ok.mpr ⟨_, mapError_eq_ok.mpr hadd, rfl⟩⟩, rfl, ?_⟩
  rw [← hrowName]
  simp [rowNames]

/-- Cuts under new names are all taken. -/
theorem exists_addCuts {cuts : List (Cut Exact)} (hcuts : ∀ c ∈ cuts, c.FitsIn p)
    (hnames : ∀ c ∈ cuts, c.name.isEmpty = false)
    (hnodup : (p.rowNames ++ cuts.map (·.name)).Nodup) :
    ∃ p', p.addCuts cuts = (p', .ok ()) ∧ p'.rowNames = p.rowNames ++ cuts.map (·.name) := by
  induction cuts generalizing p with
  | nil => exact ⟨p, rfl, by simp⟩
  | cons c cuts ih =>
    obtain ⟨hc, hcuts⟩ := List.forall_mem_cons.mp hcuts
    obtain ⟨hname, hnames⟩ := List.forall_mem_cons.mp hnames
    have hnew : c.name ∉ p.rowNames := by
      intro hmem
      exact (List.nodup_append.mp hnodup).2.2 _ hmem _ (by simp) rfl
    obtain ⟨p₁, hadd, hvars, hrows⟩ := exists_addCut hc hname hnew
    have hfits : ∀ c ∈ cuts, c.FitsIn p₁ := fun c' hc' => by
      have := hcuts c' hc'
      exact ⟨by simpa only [Model.variableNamed?, hvars] using this.coefficients,
        by simpa only [hvars] using this.theta, this.rhs⟩
    obtain ⟨p', hrest, hrows'⟩ := ih hfits hnames (by rw [hrows]; simpa using hnodup)
    refine ⟨p', by simpa only [addCuts, hadd] using hrest, ?_⟩
    rw [hrows', hrows]
    simp

/-- The cuts of the next iteration are all taken, and then those of later ones are still new. -/
theorem exists_addCuts_of_next {cuts : List (Cut Exact)} {count : ℕ} (hp : p.rowNames.Nodup)
    (hnew : p.HasNoCutsAfter count) (hcuts : ∀ c ∈ cuts, c.FitsIn p)
    (hnodup : (cuts.map (·.name)).Nodup) (hnames : ∀ name ∈ cuts.map (·.name),
      ∃ mark ∈ cutMarks, ∃ tail, name = Cut.nameIn mark (count + 1) tail) :
    ∃ p', p.addCuts cuts = (p', .ok ()) ∧ p'.HasNoCutsAfter (count + 1) := by
  have hdisjoint : ∀ name ∈ p.rowNames, ∀ name' ∈ cuts.map (·.name), name ≠ name' := by
    rintro name hrow _ hcut rfl
    obtain ⟨mark, hmark, tail, rfl⟩ := hnames name hcut
    exact hnew mark hmark _ tail count.lt_succ_self hrow
  have hnamed : ∀ c ∈ cuts, c.name.isEmpty = false := by
    intro c hc
    obtain ⟨mark, -, tail, hname⟩ := hnames c.name (List.mem_map_of_mem hc)
    exact hname ▸ Cut.isEmpty_nameIn mark _ tail
  obtain ⟨p', hadd, hrows⟩ := exists_addCuts hcuts hnamed
    (List.nodup_append.mpr ⟨hp, hnodup, hdisjoint⟩)
  refine ⟨p', hadd, fun mark hmark iteration tail hlater hmem => ?_⟩
  rw [hrows] at hmem
  rcases List.mem_append.mp hmem with hmem | hmem
  · exact hnew mark hmark iteration tail (by omega) hmem
  · obtain ⟨mark', hmark', tail', hsame⟩ := hnames _ hmem
    have := (Cut.nameIn_inj hmark hmark' hsame).2.1
    omega

end PlanningProblem

end Adding

section Generating
variable {p : PlanningProblem Exact} {linking : List String} {values : SortedMap String Exact}
  {iteration : ℕ}

theorem exists_weightedSum {coefficients : SortedMap String Exact}
    (hcoefficients : ∀ t ∈ coefficients.entries, t.1 ∈ linking ∧ isFinite t.2 = true)
    (hvalues : values.Covers linking) :
    ∃ total, weightedSum coefficients values = .ok total ∧ isFinite total = true := by
  refine exists_foldlM_eq_ok (P := fun total : Exact => isFinite total = true) ?_
    Scalar.isFinite_zero
  intro acc t ht hacc
  obtain ⟨hname, hfinite⟩ := hcoefficients t ht
  obtain ⟨x, hx, hxfinite⟩ := hvalues t.1 hname
  obtain ⟨a, rfl⟩ := Exact.isFinite_iff.mp hacc
  obtain ⟨q, hq⟩ := Exact.isFinite_iff.mp hfinite
  obtain ⟨y, rfl⟩ := Exact.isFinite_iff.mp hxfinite
  exact ⟨number (a + q * y), by simp [hx, hq], Exact.isFinite_number _⟩

variable (hplanned : ∀ name ∈ linking, (p.model.variableNamed? name).isSome = true)
  (hvalues : values.Covers linking)

namespace Cut

include hplanned hvalues

theorem exists_ofOptimal {name : String} {subproblem : Option ℕ} {theta : ℕ} {cost : Exact}
    {prices : SortedMap String Exact} (htheta : theta < p.model.vars.size)
    (hcost : isFinite cost = true)
    (hprices : ∀ t ∈ prices.entries, t.1 ∈ linking ∧ isFinite t.2 = true) :
    ∃ c, ofOptimal name subproblem theta cost prices values = .ok c ∧ c.name = name ∧
      c.FitsIn p := by
  obtain ⟨total, htotal, hfinite⟩ := exists_weightedSum hprices hvalues
  obtain ⟨q, rfl⟩ := Exact.isFinite_iff.mp hcost
  obtain ⟨t, rfl⟩ := Exact.isFinite_iff.mp hfinite
  refine ⟨_, bind_eq_ok.mpr ⟨_, htotal, rfl⟩, rfl, ?_, ?_, ?_⟩
  · exact fun u hu => ⟨(hprices u hu).2, hplanned _ (hprices u hu).1⟩
  · rintro _ ⟨⟩
    exact htheta
  · rw [Exact.number_sub]
    exact Exact.isFinite_number _

theorem exists_ofInfeasible {name : String} {subproblem : ℕ} {margin : Exact}
    {ray : SortedMap String Exact} (hmargin : isFinite margin = true)
    (hray : ∀ t ∈ ray.entries, t.1 ∈ linking ∧ isFinite t.2 = true) :
    ∃ c, ofInfeasible name subproblem margin ray values = .ok c ∧ c.name = name ∧ c.FitsIn p := by
  obtain ⟨total, htotal, hfinite⟩ := exists_weightedSum hray hvalues
  obtain ⟨q, rfl⟩ := Exact.isFinite_iff.mp hmargin
  obtain ⟨t, rfl⟩ := Exact.isFinite_iff.mp hfinite
  refine ⟨_, bind_eq_ok.mpr ⟨_, htotal, rfl⟩, rfl, ?_, nofun, ?_⟩
  · exact fun u hu => ⟨(hray u hu).2, hplanned _ (hray u hu).1⟩
  · rw [Exact.number_sub]
    exact Exact.isFinite_number _

theorem exists_feasibilityCuts {outcomes : List (ℕ × OperationOutcome Exact)}
    (houtcomes : ∀ o ∈ outcomes, o.2.IsFiniteOver linking) :
    ∃ cuts, feasibilityCuts iteration values outcomes = .ok cuts ∧ (∀ c ∈ cuts, c.FitsIn p) ∧
      cuts.map (·.name) = (outcomes.filter fun o => !o.2.isFeasible).map fun o =>
        nameIn "feas_cut[" iteration (toString o.1) := by
  induction outcomes with
  | nil => exact ⟨[], rfl, by simp, rfl⟩
  | cons entry outcomes ih =>
    obtain ⟨hentry, houtcomes⟩ := List.forall_mem_cons.mp houtcomes
    obtain ⟨cuts, hcuts, hfits, hnames⟩ := ih houtcomes
    obtain ⟨index, o⟩ := entry
    cases o with
    | optimal cost prices used => exact ⟨cuts, hcuts, hfits, hnames⟩
    | infeasible ray margin =>
      obtain ⟨c, hc, hname, hfit⟩ :=
        exists_ofInfeasible hplanned hvalues hentry.amount hentry.prices
      refine ⟨c :: cuts, bind_eq_ok.mpr ⟨c, hc, bind_eq_ok.mpr ⟨cuts, hcuts, rfl⟩⟩,
        List.forall_mem_cons.mpr ⟨hfit, hfits⟩, ?_⟩
      rw [List.map_cons, hnames, hname]
      rfl

theorem exists_optimalityCuts {outcomes : List (ℕ × OperationOutcome Exact)}
    (htheta : ∀ o ∈ outcomes, ∃ theta ∈ p.thetaFor? o.1, theta < p.model.vars.size)
    (houtcomes : ∀ o ∈ outcomes, o.2.IsFiniteOver linking) :
    ∃ cuts, optimalityCuts p iteration values outcomes = .ok cuts ∧ (∀ c ∈ cuts, c.FitsIn p) ∧
      cuts.map (·.name) = (outcomes.filter fun o => o.2.isFeasible).map fun o =>
        nameIn "opt_cut[" iteration (toString o.1) := by
  induction outcomes with
  | nil => exact ⟨[], rfl, by simp, rfl⟩
  | cons entry outcomes ih =>
    obtain ⟨hentry, houtcomes⟩ := List.forall_mem_cons.mp houtcomes
    obtain ⟨⟨theta, htheta₁, hlt⟩, htheta⟩ := List.forall_mem_cons.mp htheta
    obtain ⟨cuts, hcuts, hfits, hnames⟩ := ih htheta houtcomes
    obtain ⟨index, o⟩ := entry
    cases o with
    | infeasible ray margin => exact ⟨cuts, hcuts, hfits, hnames⟩
    | optimal cost prices used =>
      obtain ⟨c, hc, hname, hfit⟩ :=
        exists_ofOptimal hplanned hvalues hlt hentry.amount hentry.prices
      refine ⟨c :: cuts, ?_, List.forall_mem_cons.mpr ⟨hfit, hfits⟩, ?_⟩
      · rw [optimalityCuts, Option.mem_def.mp htheta₁]
        exact bind_eq_ok.mpr ⟨c, hc, bind_eq_ok.mpr ⟨cuts, hcuts, rfl⟩⟩
      · rw [List.map_cons, hnames, hname]
        rfl

theorem exists_aggregatedCut {outcomes : List (OperationOutcome Exact)}
    (htheta : ∃ theta ∈ p.thetaFor? 0, theta < p.model.vars.size)
    (houtcomes : ∀ o ∈ outcomes, o.isFeasible = true ∧ o.IsFiniteOver linking) :
    ∃ c, aggregatedCut p iteration values outcomes = .ok c ∧ c.FitsIn p ∧
      c.name = nameIn "opt_cut[" iteration "all" := by
  obtain ⟨theta, htheta₀, hlt⟩ := htheta
  have hcost : ∀ o ∈ outcomes, o.cost = number o.cost.toRat := by
    intro o ho
    obtain ⟨hfeasible, hfinite⟩ := houtcomes o ho
    cases o with
    | optimal cost prices used => exact (Exact.number_toRat hfinite.amount).symm
    | infeasible ray margin => cases hfeasible
  have hsum : Scalar.sum (outcomes.map (·.cost)) = number (outcomes.map (·.cost.toRat)).sum := by
    rw [List.map_congr_left hcost, Exact.sum_map_number]
  have hprices : ∀ t ∈ (outcomes.foldl (fun total o => addPrices total o.prices)
      (.empty : SortedMap String Exact)).entries, t.1 ∈ linking ∧ isFinite t.2 = true := by
    intro t ht
    have hfinite := finite_mergedPrices fun o ho u hu => ((houtcomes o ho).2.prices u hu).2
    obtain ⟨o, ho, hmem⟩ := mem_mergedPrices ht
    obtain ⟨u, hu, hname⟩ := List.mem_map.mp hmem
    exact ⟨hname ▸ ((houtcomes o ho).2.prices u hu).1, hfinite t ht⟩
  obtain ⟨c, hc, hname, hfits⟩ := exists_ofOptimal hplanned hvalues hlt
    (hsum ▸ Exact.isFinite_number _) hprices
  refine ⟨c, ?_, hfits, hname.trans (Cut.nameIn_all iteration).symm⟩
  rw [aggregatedCut, Option.mem_def.mp htheta₀]
  exact hc

end Cut

omit hplanned hvalues in
/-- Cuts of one kind have different names, for their subproblems do. -/
theorem nodup_names {mark : String} (hmark : mark ∈ PlanningProblem.cutMarks)
    (outcomes : SortedMap ℕ (OperationOutcome Exact)) (q : ℕ × OperationOutcome Exact → Bool) :
    ((outcomes.entries.filter q).map fun o => Cut.nameIn mark iteration (toString o.1)).Nodup := by
  have hkeys : (outcomes.entries.filter q).Pairwise (·.1 ≠ ·.1) :=
    (outcomes.sorted.imp fun h => h.ne).filter q
  refine List.pairwise_map.mpr (hkeys.imp fun hne hsame => hne ?_)
  have htail := (Cut.nameIn_inj hmark hmark hsame).2.2
  exact toDigits_inj (String.ofList_injective htail)

namespace PlanningProblem

include hplanned hvalues

variable {outcomes : SortedMap ℕ (OperationOutcome Exact)}
  (houtcomes : ∀ o ∈ outcomes.entries, o.2.IsFiniteOver linking)
  (htheta : ∀ o ∈ outcomes.entries, ∃ theta ∈ p.thetaFor? o.1, theta < p.model.vars.size)
  (htheta₀ : ∃ theta ∈ p.thetaFor? 0, theta < p.model.vars.size)

include houtcomes htheta htheta₀

theorem exists_costCuts : ∃ cuts, p.HasCostCuts iteration values outcomes cuts ∧
    (∀ c ∈ cuts, c.FitsIn p) ∧ (cuts.map (·.name)).Nodup ∧
      ∀ name ∈ cuts.map (·.name), ∃ tail, name = Cut.nameIn "opt_cut[" iteration tail := by
  cases hmulti : p.isMultiCut with
  | true =>
    obtain ⟨cuts, hcuts, hfits, hnames⟩ :=
      Cut.exists_optimalityCuts hplanned hvalues htheta houtcomes
    refine ⟨cuts, .inl ⟨hmulti, hcuts⟩, hfits,
      hnames ▸ nodup_names (by simp [cutMarks]) outcomes _, ?_⟩
    rw [hnames]
    intro name hname
    obtain ⟨o, -, rfl⟩ := List.mem_map.mp hname
    exact ⟨_, rfl⟩
  | false =>
    cases hall : outcomes.values.all (·.isFeasible) with
    | true =>
      have hvalues' : ∀ o ∈ outcomes.values, o.isFeasible = true ∧ o.IsFiniteOver linking := by
        intro o ho
        refine ⟨List.all_eq_true.mp hall o ho, ?_⟩
        obtain ⟨entry, hentry, rfl⟩ := List.mem_map.mp ho
        exact houtcomes entry hentry
      obtain ⟨c, hc, hfit, hname⟩ :=
        Cut.exists_aggregatedCut hplanned hvalues htheta₀ hvalues'
      exact ⟨[c], .inr (.inl ⟨hmulti, hall, c, hc, rfl⟩), by simpa using hfit,
        List.nodup_singleton _, by simpa using ⟨_, hname⟩⟩
    | false => exact ⟨[], .inr (.inr ⟨hmulti, hall, rfl⟩), by simp, .nil, by simp⟩

/-- All cuts of an iteration are generated and fit in. They have different names, which speak of the
iteration. -/
theorem exists_cuts : ∃ cuts, p.cuts iteration values outcomes = .ok cuts ∧
    (∀ c ∈ cuts, c.FitsIn p) ∧ (cuts.map (·.name)).Nodup ∧ ∀ name ∈ cuts.map (·.name),
      ∃ mark ∈ cutMarks, ∃ tail, name = Cut.nameIn mark iteration tail := by
  obtain ⟨feasibility, hfeasibility, hfits, hnames⟩ :
      ∃ cuts, Cut.feasibilityCuts iteration values outcomes.entries = .ok cuts ∧ _ :=
    Cut.exists_feasibilityCuts hplanned hvalues houtcomes
  obtain ⟨optimality, hoptimality, hfits', hnodup', hnames'⟩ :
      ∃ cuts, p.HasCostCuts iteration _ _ cuts ∧ _ :=
    exists_costCuts hplanned hvalues houtcomes htheta htheta₀
  have hmark : "feas_cut[" ∈ cutMarks := by simp [cutMarks]
  have hmark' : "opt_cut[" ∈ cutMarks := by simp [cutMarks]
  refine ⟨feasibility ++ optimality,
    cuts_eq_ok.mpr ⟨feasibility, optimality, hfeasibility, hoptimality, rfl⟩, ?_, ?_, ?_⟩
  · exact fun c hc => (List.mem_append.mp hc).elim (hfits c) (hfits' c)
  · rw [List.map_append, hnames]
    refine List.nodup_append.mpr ⟨nodup_names hmark outcomes _, hnodup', ?_⟩
    rintro _ hname _ hname' rfl
    -- The marks of the two kinds differ.
    obtain ⟨o, -, hsame⟩ := List.mem_map.mp hname
    obtain ⟨tail, hsame'⟩ := hnames' _ hname'
    exact absurd (Cut.nameIn_inj hmark hmark' (hsame.trans hsame')).1 (by decide)
  · rw [List.map_append, hnames]
    intro name hname
    rcases List.mem_append.mp hname with hname | hname
    · obtain ⟨o, -, rfl⟩ := List.mem_map.mp hname
      exact ⟨_, hmark, _, rfl⟩
    · exact ⟨_, hmark', hnames' name hname⟩

end PlanningProblem

end Generating

end BendersPlanning

import BendersPlanning.Proofs.AcceptedCuts
import BendersPlanning.Proofs.RunBounds

/-!
# The cut on the cost of all subproblems

With a single proxy the optimality cuts of an iteration are added up into one: costs are summed, prices
are merged by name, and the constant is computed from the merged prices. That is the sum of the cuts
which proxies of their own would get. So proxies that satisfy all of those add up to a proxy that
satisfies the common one.
-/

namespace BendersPlanning

open Exact (number)
open Scalar (isFinite)

section Meaning
variable {K : Type} [Scalar K]

/-- The right-hand side of a cut plus its linking term at some values: what an optimality cut asks of
its proxy there. -/
def Cut.bound (c : Cut K) (x : SortedMap String K) : Except (RunError K) K := do
  return c.rhs + (← c.linkingTerm x)

end Meaning

namespace Exact
variable {x y : Exact} {a b : ℚ}

/-- Lower bounds add up, also where a value is infinite or no number. -/
theorem not_lt_add (hx : ¬x < number a) (hy : ¬y < number b) : ¬x + y < number (a + b) := by
  change ¬isBelow (add x y) (number (a + b)) = true
  change ¬isBelow x (number a) = true at hx
  change ¬isBelow y (number b) = true at hy
  cases x <;> cases y <;> simp_all [add, isBelow]
  linarith

theorem not_sum_lt {α : Type} {items : List α} {f : α → Exact} {level : α → ℚ}
    (h : ∀ item ∈ items, ¬f item < number (level item)) :
    ¬Scalar.sum (items.map f) < number (items.map level).sum := by
  induction items using List.reverseRecOn with
  | nil => simp [Scalar.sum]
  | append_singleton items item ih =>
    obtain ⟨hitems, hitem⟩ := List.forall_mem_append.mp h
    have hlast := hitem item (List.mem_singleton_self item)
    have hsum : Scalar.sum ((items ++ [item]).map f) = Scalar.sum (items.map f) + f item := by
      simp [Scalar.sum]
    rw [hsum, List.map_append, List.sum_append, List.map_singleton, List.sum_singleton]
    exact not_lt_add (ih hitems) hlast

end Exact

namespace Cut

/-- An optimality cut over finite numbers that asks for this level at some values. -/
structure AsksFor (c : Cut Exact) (x : SortedMap String Exact) (level : ℚ) : Prop where
  kind : c.kind = .optimality
  parts : ∃ rhs term, c.rhs = number rhs ∧ c.linkingTerm x = .ok (number term) ∧ rhs + term = level

variable {c : Cut Exact} {x values prices : SortedMap String Exact} {level : ℚ} {theta cost : Exact}
  {name : String} {subproblem : Option ℕ} {proxy : ℕ}

theorem AsksFor.bound (h : c.AsksFor x level) : c.bound x = .ok (number level) := by
  obtain ⟨rhs, term, hrhs, hterm, rfl⟩ := h.parts
  exact bind_eq_ok.mpr ⟨_, hterm, by rw [hrhs]; rfl⟩

/-- A proxy satisfies the cut unless it is below the level. -/
theorem AsksFor.violation_eq_zero_iff (h : c.AsksFor x level) :
    c.violation x theta = .ok 0.0 ↔ ¬theta < number level := by
  obtain ⟨rhs, term, hrhs, hterm, rfl⟩ := h.parts
  have hviolation : c.violation x theta =
      .ok (Scalar.larger (number rhs - (theta - number term)) 0.0) := by
    refine bind_eq_ok.mpr ⟨_, hterm, ?_⟩
    rw [h.kind, hrhs]
    rfl
  rw [hviolation, Except.ok.injEq, Exact.zero_eq]
  cases theta with
  | number q =>
    rw [Exact.number_sub, Exact.number_sub, Exact.larger_number, Exact.number_lt, Exact.number.injEq,
      max_eq_right_iff, not_lt]
    constructor <;> intro hle <;> linarith
  | infinity =>
    have hbelow : Scalar.larger Exact.negInfinity (number 0) = number 0 := by decide +kernel
    exact iff_of_true hbelow Bool.false_ne_true
  | negInfinity =>
    have habove : Scalar.larger Exact.infinity (number 0) ≠ number 0 := by decide +kernel
    exact iff_of_false habove fun hnot => hnot rfl
  | undefined =>
    have hnothing : Scalar.larger Exact.undefined (number 0) = number 0 := by decide +kernel
    exact iff_of_true hnothing Bool.false_ne_true

/-- The cut made of a finite cost and finite prices asks for the cost and its change. -/
theorem exists_asksFor (hcost : isFinite cost = true) (hprices : AreFiniteTerms prices.entries)
    (hvalues : values.Covers prices.keys) : ∃ c,
      ofOptimal name subproblem proxy cost prices values = .ok c ∧ c.subproblem = subproblem ∧
      ∀ x : SortedMap String Exact, x.Covers prices.keys →
        c.AsksFor x (cost.toRat + (termSum prices.entries (fun name => (x.valueAt name).toRat) -
          termSum prices.entries fun name => (values.valueAt name).toRat)) := by
  have hterm {x : SortedMap String Exact} (hx : x.Covers prices.keys) : weightedSum prices x =
      .ok (number (termSum prices.entries fun name => (x.valueAt name).toRat)) := by
    obtain ⟨total, htotal, -⟩ :=
      exists_weightedSum (fun t ht => ⟨List.mem_map_of_mem ht, hprices t ht⟩) hx
    have hfinite : ∀ t ∈ prices.entries,
        isFinite t.2 = true ∧ isFinite (x.valueAt t.1) = true := by
      intro t ht
      obtain ⟨y, hy, hfinite⟩ := hx t.1 (List.mem_map_of_mem ht)
      exact ⟨hprices t ht, by rwa [SortedMap.valueAt, hy]⟩
    rwa [weightedSum_eq_ok hfinite htotal] at htotal
  refine ⟨_, bind_eq_ok.mpr ⟨_, hterm hvalues, rfl⟩, rfl, fun x hx => ⟨rfl, ?_⟩⟩
  refine ⟨cost.toRat - termSum prices.entries fun name => (values.valueAt name).toRat, _, ?_,
    hterm hx, by ring⟩
  rw [← Exact.number_sub, Exact.number_toRat hcost]

end Cut

section Generating
variable {values : SortedMap String Exact} (iteration : ℕ)

/-- Finite cost and prices, and a value for each name that has one. -/
structure OperationOutcome.IsPricedAt (o : OperationOutcome Exact)
    (values : SortedMap String Exact) : Prop where
  feasible : o.isFeasible = true
  cost : isFinite o.cost = true
  prices : AreFiniteTerms o.prices.entries
  covered : values.Covers o.prices.keys

instance (values : SortedMap String Exact) (names : List String) : Decidable (values.Covers names) :=
  decidable_of_iff (∀ name ∈ names, (values.find? name).any (isFinite ·) = true)
    (forall₂_congr fun _ _ => Option.any_eq_true _ _)

instance (o : OperationOutcome Exact) (values : SortedMap String Exact) :
    Decidable (o.IsPricedAt values) :=
  decidable_of_iff (o.isFeasible = true ∧ isFinite o.cost = true ∧
      (∀ t ∈ o.prices.entries, isFinite t.2 = true) ∧ values.Covers o.prices.keys)
    ⟨fun ⟨hfeasible, hcost, hprices, hcovered⟩ => ⟨hfeasible, hcost, hprices, hcovered⟩,
      fun h => ⟨h.feasible, h.cost, h.prices, h.covered⟩⟩

theorem Cut.feasibilityCuts_of_feasible {K : Type} [Scalar K] {values : SortedMap String K}
    {outcomes : List (ℕ × OperationOutcome K)} (h : ∀ o ∈ outcomes, o.2.isFeasible = true) :
    feasibilityCuts iteration values outcomes = .ok [] := by
  induction outcomes with
  | nil => rfl
  | cons entry outcomes ih =>
    obtain ⟨hentry, houtcomes⟩ := List.forall_mem_cons.mp h
    obtain ⟨index, o⟩ := entry
    cases o with
    | infeasible ray margin => cases hentry
    | optimal cost prices used => exact ih houtcomes

/-- With proxies of their own the cuts follow the subproblems, and each asks for the affine function of
its outcome. -/
theorem Cut.exists_optimalityCuts_asking {p : PlanningProblem Exact}
    {outcomes : List (ℕ × OperationOutcome Exact)}
    (hproxies : ∀ o ∈ outcomes, (p.thetaFor? o.1).isSome = true)
    (houtcomes : ∀ o ∈ outcomes, o.2.IsPricedAt values) :
    ∃ cuts, optimalityCuts p iteration values outcomes = .ok cuts ∧
      cuts.map (·.subproblem) = outcomes.map (fun o => some o.1) ∧
      ∀ x : SortedMap String Exact, (∀ o ∈ outcomes, x.Covers o.2.prices.keys) →
        List.Forall₂ (fun c (o : ℕ × OperationOutcome Exact) => c.subproblem = some o.1 ∧
          c.AsksFor x (o.2.affine values fun name => (x.valueAt name).toRat)) cuts outcomes := by
  induction outcomes with
  | nil => exact ⟨[], rfl, rfl, fun _ _ => .nil⟩
  | cons entry outcomes ih =>
    obtain ⟨hproxy, hproxies⟩ := List.forall_mem_cons.mp hproxies
    obtain ⟨hentry, houtcomes⟩ := List.forall_mem_cons.mp houtcomes
    obtain ⟨cuts, hcuts, hsubproblems, hall⟩ := ih hproxies houtcomes
    obtain ⟨index, o⟩ := entry
    obtain ⟨proxy, hproxy⟩ := Option.isSome_iff_exists.mp hproxy
    cases o with
    | infeasible ray margin => cases hentry.feasible
    | optimal cost prices used =>
      obtain ⟨c, hc, hsubproblem, hasks⟩ :=
        exists_asksFor hentry.cost hentry.prices hentry.covered
      refine ⟨c :: cuts, ?_, ?_, fun x hx => ?_⟩
      · rw [optimalityCuts, hproxy]
        exact bind_eq_ok.mpr ⟨c, hc, bind_eq_ok.mpr ⟨cuts, hcuts, rfl⟩⟩
      · rw [List.map_cons, List.map_cons, hsubproblem, hsubproblems]
      · obtain ⟨hfirst, hrest⟩ := List.forall_mem_cons.mp hx
        exact .cons ⟨hsubproblem, hasks x hfirst⟩ (hall x hrest)

/-- The common cut asks for the sum of the affine functions. -/
theorem Cut.exists_aggregatedCut_asking {p : PlanningProblem Exact}
    {outcomes : List (OperationOutcome Exact)} (hproxy : (p.thetaFor? 0).isSome = true)
    (houtcomes : ∀ o ∈ outcomes, o.IsPricedAt values) :
    ∃ c, aggregatedCut p iteration values outcomes = .ok c ∧ c.subproblem = none ∧
      ∀ x : SortedMap String Exact, (∀ o ∈ outcomes, x.Covers o.prices.keys) →
        c.AsksFor x (outcomes.map fun o => o.affine values fun name => (x.valueAt name).toRat).sum := by
  obtain ⟨proxy, hproxy⟩ := Option.isSome_iff_exists.mp hproxy
  have hcosts : Scalar.sum (outcomes.map (·.cost)) =
      number (outcomes.map (·.cost.toRat)).sum := by
    rw [← Exact.sum_map_number,
      List.map_congr_left fun o ho => (Exact.number_toRat (houtcomes o ho).cost).symm]
  have hfinite : ∀ o ∈ outcomes, AreFiniteTerms o.prices.entries := fun o ho =>
    (houtcomes o ho).prices
  have hcovers {x : SortedMap String Exact} (hx : ∀ o ∈ outcomes, x.Covers o.prices.keys) :
      x.Covers (outcomes.foldl (fun total o => addPrices total o.prices) .empty).keys := by
    intro name hname
    obtain ⟨t, ht, rfl⟩ := List.mem_map.mp hname
    obtain ⟨o, ho, hmem⟩ := mem_mergedPrices ht
    exact hx o ho t.1 hmem
  obtain ⟨c, hc, hsubproblem, hasks⟩ := exists_asksFor (hcosts ▸ Exact.isFinite_number _)
    (finite_mergedPrices hfinite) (hcovers fun o ho => (houtcomes o ho).covered)
  refine ⟨c, by rw [aggregatedCut, hproxy]; exact hc, hsubproblem, fun x hx => ?_⟩
  convert hasks x (hcovers hx) using 1
  rw [termSum_mergedPrices hfinite, termSum_mergedPrices hfinite, hcosts, Exact.toRat_number,
    List.map_congr_left fun o ho => OperationOutcome.affine_eq (houtcomes o ho).feasible,
    ← sum_map_add_sub]

omit values iteration in
/-- The bounds of the cuts are what they ask for. -/
theorem Cut.mapM_bound {x : SortedMap String Exact} {cuts : List (Cut Exact)} {α : Type}
    {items : List α} {level : α → ℚ}
    (h : List.Forall₂ (fun c item => c.AsksFor x (level item)) cuts items) :
    cuts.mapM (·.bound x) = .ok (items.map fun item => number (level item)) := by
  induction h with
  | nil => rfl
  | cons hfirst _ ih =>
    rw [List.mapM_cons, hfirst.bound, ih]
    rfl

/-- The cut on the cost of all subproblems is the sum of the cuts on the costs of each: they are made
from the same outcomes, and at all linking values what they ask for adds up. Proxies that satisfy each of
them therefore add up to one that satisfies the common cut. -/
theorem PlanningProblem.aggregated_cut_is_sum {single multi : PlanningProblem Exact}
    {outcomes : SortedMap ℕ (OperationOutcome Exact)} (hsingle : single.isMultiCut = false)
    (hproxy : (single.thetaFor? 0).isSome = true) (hmulti : multi.isMultiCut = true)
    (hproxies : ∀ index ∈ outcomes.keys, (multi.thetaFor? index).isSome = true)
    (houtcomes : ∀ o ∈ outcomes.values, o.IsPricedAt values) (iteration : ℕ) :
    ∃ total cuts, single.cuts iteration values outcomes = .ok [total] ∧
      multi.cuts iteration values outcomes = .ok cuts ∧
      cuts.map (·.subproblem) = outcomes.keys.map some ∧
      ∀ x : SortedMap String Exact, (∀ o ∈ outcomes.values, x.Covers o.prices.keys) →
        (∃ bounds, cuts.mapM (·.bound x) = .ok bounds ∧
          total.bound x = .ok (Scalar.sum bounds)) ∧
        ∀ theta : ℕ → Exact,
          (∀ c ∈ cuts, ∀ w ∈ c.subproblem, c.violation x (theta w) = .ok 0.0) →
            total.violation x (Scalar.sum (outcomes.keys.map theta)) = .ok 0.0 := by
  have hentries : ∀ o ∈ outcomes.entries, o.2.IsPricedAt values := fun o ho =>
    houtcomes o.2 (List.mem_map_of_mem ho)
  have hnone {p : PlanningProblem Exact} :
      Cut.feasibilityCuts iteration values outcomes.entries = .ok [] :=
    Cut.feasibilityCuts_of_feasible iteration fun o ho => (hentries o ho).feasible
  have hall : outcomes.values.all (·.isFeasible) = true :=
    List.all_eq_true.mpr fun o ho => (houtcomes o ho).feasible
  obtain ⟨cuts, hcuts, hsubproblems, hasks⟩ := Cut.exists_optimalityCuts_asking iteration
    (fun o ho => hproxies o.1 (List.mem_map_of_mem ho)) hentries
  obtain ⟨total, htotal, -, htotalAsks⟩ :=
    Cut.exists_aggregatedCut_asking iteration hproxy houtcomes
  refine ⟨total, cuts, ?_, ?_, ?_, fun x hx => ?_⟩
  · exact cuts_eq_ok.mpr ⟨[], [total], hnone (p := single),
      .inr (.inl ⟨hsingle, hall, total, htotal, rfl⟩), rfl⟩
  · exact cuts_eq_ok.mpr ⟨[], cuts, hnone (p := multi), .inl ⟨hmulti, hcuts⟩, rfl⟩
  · rw [hsubproblems, SortedMap.keys, List.map_map]
    rfl
  have hlevels := hasks x fun o ho => hx o.2 (List.mem_map_of_mem ho)
  have htotalLevel := htotalAsks x hx
  rw [SortedMap.values, List.map_map] at htotalLevel
  constructor
  · refine ⟨_, Cut.mapM_bound (hlevels.imp fun _ _ h => h.2), ?_⟩
    rw [htotalLevel.bound, Exact.sum_map_number]
    rfl
  · intro theta hsatisfied
    rw [htotalLevel.violation_eq_zero_iff, SortedMap.keys, List.map_map]
    refine Exact.not_sum_lt fun o ho => ?_
    obtain ⟨c, hc, hsubproblem, hlevel⟩ := RunState.exists_of_forall₂ hlevels.flip ho
    exact hlevel.violation_eq_zero_iff.mp (hsatisfied c hc o.1 hsubproblem)

section Witness

/-- A planning problem with a proxy for each of two subproblems. -/
def twoProxies : PlanningProblem Exact where
  model := { onePlant.planning.model with
    vars := onePlant.planning.model.vars.push (.continuous "second" (some (number 0)) none) }
  fixedCost := onePlant.planning.fixedCost
  theta := #[1, 2]

/-- Two subproblems that share one of two capacities. -/
def sharedCapacity : SortedMap ℕ (OperationOutcome Exact) :=
  .ofList [(0, .optimal (number 4) (.ofList [("capacity", number (-2))]) (number 0)),
    (1, .optimal (number 1) (.ofList [("capacity", number (1 / 2)), ("storage", number (-1))])
      (number 0))]

/-- At another point the cuts ask for two and for two and a half, and the common one for their sum, so
proxies of three each satisfy all of them. -/
theorem sharedCapacity_cut_is_sum :
    let values : SortedMap String Exact := .ofList [("capacity", number 1), ("storage", number 2)]
    let x : SortedMap String Exact := .ofList [("capacity", number 2), ("storage", number 1)]
    ∃ total cuts, onePlant.planning.cuts 3 values sharedCapacity = .ok [total] ∧
      twoProxies.cuts 3 values sharedCapacity = .ok cuts ∧
      cuts.mapM (·.bound x) = .ok [number 2, number (5 / 2)] ∧
      total.bound x = .ok (number (9 / 2)) ∧ total.violation x (number 6) = .ok 0.0 := by
  intro values x
  have hcommon : onePlant.planning.isMultiCut = false ∧ (onePlant.planning.thetaFor? 0).isSome = true :=
    by decide
  have hown : twoProxies.isMultiCut = true ∧
      ∀ index ∈ sharedCapacity.keys, (twoProxies.thetaFor? index).isSome = true := by
    decide +kernel
  have hpriced : ∀ o ∈ sharedCapacity.values, o.IsPricedAt values := by decide +kernel
  obtain ⟨total, cuts, hsingle, hmulti, -, hpoints⟩ :=
    PlanningProblem.aggregated_cut_is_sum hcommon.1 hcommon.2 hown.1 hown.2 hpriced 3
  obtain ⟨⟨bounds, hbounds, htotal⟩, hproxies⟩ := hpoints x (by decide +kernel)
  obtain ⟨cuts', hcuts', hvalues, hsatisfied⟩ := exists_ok_of_any
    (x := twoProxies.cuts 3 values sharedCapacity)
    (P := fun cuts => cuts.mapM (·.bound x) = .ok [number 2, number (5 / 2)] ∧
      ∀ c ∈ cuts, ∀ w ∈ c.subproblem, c.violation x (number 3) = .ok 0.0) (by decide +kernel)
  obtain rfl := Except.ok.inj (hmulti.symm.trans hcuts')
  obtain rfl := Except.ok.inj (hbounds.symm.trans hvalues)
  have hsum : Scalar.sum [number 2, number (5 / 2)] = number (9 / 2) := by decide +kernel
  have hproxy : Scalar.sum (sharedCapacity.keys.map fun _ => number 3) = number 6 := by
    decide +kernel
  refine ⟨total, cuts, hsingle, hmulti, hbounds, hsum ▸ htotal, ?_⟩
  rw [← hproxy]
  exact hproxies (fun _ => number 3) hsatisfied

end Witness

end Generating

end BendersPlanning

import BendersPlanning.Cut.Basic
import BendersPlanning.Proofs.AccumulatedCuts
import BendersPlanning.Proofs.PlanningSolutions

/-!
# Edited models

Whatever edits are tried on a model, and whichever of them are refused, it stays well-formed. Then
names and positions stand for each other, and the model can be built anew from its own parts: every
part passes the checks again, and the result is the same model. The same holds of a planning problem,
also after cuts were added.
-/

namespace BendersPlanning

open Scalar (isFinite isUndefined)

section Maps

namespace SortedMap

variable {κ ν : Type} [LT κ] [LE κ] [Std.LawfulOrderLT κ] {m n : SortedMap κ ν} {key : κ}
  {value : ν}

theorem nodup_keys (m : SortedMap κ ν) : m.keys.Nodup :=
  List.pairwise_map.mpr (m.sorted.imp fun hlt => Std.ne_of_lt hlt)

theorem eq_of_perm (h : m.entries.Perm n.entries) : m = n :=
  SortedMap.ext (h.eq_of_pairwise (fun _ _ _ _ hab hba => (Std.not_gt_of_lt hab hba).elim)
    m.sorted n.sorted)

section LookUps
variable [DecidableEq κ]

theorem find?_eq_some_iff : m.find? key = some value ↔ (key, value) ∈ m.entries := by
  rw [find?, Option.map_eq_some_iff]
  constructor
  · rintro ⟨entry, hfound, rfl⟩
    obtain rfl : entry.1 = key := by simpa using List.find?_some hfound
    exact List.mem_of_find?_eq_some hfound
  · intro hmem
    obtain ⟨entry, hfound⟩ : ∃ entry, m.entries.find? (·.1 = key) = some entry :=
      Option.isSome_iff_exists.mp (List.find?_isSome.mpr ⟨_, hmem, by simp⟩)
    have hkey : entry.1 = key := by simpa using List.find?_some hfound
    have hsame : entry = (key, value) :=
      List.inj_on_of_nodup_map m.nodup_keys (List.mem_of_find?_eq_some hfound) hmem hkey
    exact ⟨entry, hfound, congrArg Prod.snd hsame⟩

/-- Maps with the same look-ups are the same. -/
theorem ext_find? (h : ∀ key, m.find? key = n.find? key) : m = n := by
  refine eq_of_perm ((List.perm_ext_iff_of_nodup (.of_map _ m.nodup_keys)
    (.of_map _ n.nodup_keys)).mpr fun entry => ?_)
  rw [← find?_eq_some_iff, ← find?_eq_some_iff, h]

end LookUps

variable [DecidableLT κ] [Std.IsLinearOrder κ]

theorem insert_eq_self [DecidableEq κ] (h : m.find? key = some value) : m.insert key value = m := by
  refine ext_find? fun k => ?_
  rw [insert, find?_alter]
  split_ifs with hk
  · rw [hk, h]
  · rfl

theorem ofList_entries (m : SortedMap κ ν) : ofList m.entries = m :=
  eq_of_perm (ofList_perm m.nodup_keys)

end SortedMap

end Maps

variable {K : Type} [Scalar K]

section Meaning

/-- A call that edits a model. -/
inductive Edit (K : Type) where
  | addVariable (v : Variable K)
  | addConstraint (c : Constraint K)
  | setObjective (e : Expression K)
  | setQuadratic (weights : Array (ℕ × K))
  | addExpression (name : String) (e : Expression K)
  | setRhs (row : ℕ) (rhs : K)
  | relaxIntegrality
  | relaxWithPenalty (penalty : K)

namespace Model

/-- What an edit leaves and answers when it is refused as a whole or not at all. -/
def settled (m : Model K) : Except (ModelError K) (Model K) → Model K × Except (ModelError K) Unit
  | .ok m' => (m', .ok ())
  | .error e => (m, .error e)

/-- The model after an edit, and whether the edit was refused. Slack columns that were added before
one is refused stay. -/
def tried (m : Model K) : Edit K → Model K × Except (ModelError K) Unit
  | .addVariable v => m.settled ((·.1) <$> m.addVariable v)
  | .addConstraint c => m.settled ((·.1) <$> m.addConstraint c)
  | .setObjective e => m.settled (m.setObjective e)
  | .setQuadratic weights => m.settled (m.setQuadratic weights)
  | .addExpression name e => m.settled (m.addExpression name e)
  | .setRhs row rhs => m.settled (m.setRhs row rhs)
  | .relaxIntegrality => (m.relaxIntegrality, .ok ())
  | .relaxWithPenalty penalty =>
    let (m, slacks) := m.relaxWithPenalty penalty
    (m, slacks.map fun _ => ())

def afterEdits (edits : List (Edit K)) : Model K := edits.foldl (fun m e => (m.tried e).1) .empty

end Model

end Meaning

section Refusals

namespace Model

omit [Scalar K] in
theorem settled_of_error {m : Model K} {outcome : Except (ModelError K) (Model K)}
    {error : ModelError K} (h : (m.settled outcome).2 = .error error) :
    (m.settled outcome).1 = m := by
  cases outcome with
  | error e => rfl
  | ok m' => cases h

/-- A refused edit changes nothing, but for rows that were made elastic before one is refused. -/
theorem tried_of_error {m : Model K} {e : Edit K} (he : ∀ penalty, e ≠ .relaxWithPenalty penalty)
    {error : ModelError K} (h : (m.tried e).2 = .error error) : (m.tried e).1 = m := by
  cases e with
  | relaxIntegrality => cases h
  | relaxWithPenalty penalty => exact absurd rfl (he penalty)
  | _ => exact settled_of_error h

end Model

end Refusals

section LookUps

theorem findIdx?_eq_some_iff_of_nodup {α : Type} {xs : Array α} {f : α → String}
    (h : (xs.toList.map f).Nodup) {name : String} {id : ℕ} :
    xs.findIdx? (f · == name) = some id ↔ xs[id]?.map f = some name := by
  rw [Array.findIdx?_eq_some_iff_getElem, Option.map_eq_some_iff]
  constructor
  · rintro ⟨hid, hname, -⟩
    exact ⟨xs[id], Array.getElem?_eq_getElem hid, by simpa using hname⟩
  · rintro ⟨a, ha, rfl⟩
    obtain ⟨hid, rfl⟩ := Array.getElem?_eq_some_iff.mp ha
    refine ⟨hid, by simp, fun j hj hsame => ?_⟩
    have hid' : id < (xs.toList.map f).length := by simpa using hid
    have hindices : (xs.toList.map f)[j] = (xs.toList.map f)[id] := by simpa using hsame
    exact hj.ne (h.getElem_inj_iff.mp hindices)

namespace Model

variable {m : Model K}

omit [Scalar K] in
theorem constraintNamed?_push {c : Constraint K} (hnew : m.constraintNamed? c.name = none)
    (name : String) :
    ({ m with constraints := m.constraints.push c } : Model K).constraintNamed? name =
      if name = c.name then some m.constraints.size else m.constraintNamed? name := by
  unfold constraintNamed? at hnew ⊢
  rw [Array.findIdx?_push]
  by_cases hname : name = c.name
  · simp [hname, hnew]
  · simp [hname, Ne.symm hname]

omit [Scalar K] in
theorem constraintNamed?_modify {objective : Expression K} (row : ℕ)
    (f : Constraint K → Constraint K) (hf : ∀ c, (f c).name = c.name) (name : String) :
    ({ m with constraints := m.constraints.modify row f, objective := objective } :
      Model K).constraintNamed? name = m.constraintNamed? name := by
  have hnames (rows : Array (Constraint K)) : rows.findIdx? (·.name == name) =
      (rows.map (·.name)).findIdx? (· == name) := by
    rw [Array.findIdx?_map]
    rfl
  rw [constraintNamed?, constraintNamed?, hnames, hnames, map_name_modify _ _ hf]

end Model

namespace Model.WellFormed

variable {m : Model K}

theorem variableNamed?_eq_some_iff (hm : m.WellFormed) {name : String} {id : ℕ} :
    m.variableNamed? name = some id ↔ m.vars[id]?.map (·.name) = some name :=
  findIdx?_eq_some_iff_of_nodup hm.variableNames

theorem constraintNamed?_eq_some_iff (hm : m.WellFormed) {name : String} {id : ℕ} :
    m.constraintNamed? name = some id ↔ m.constraints[id]?.map (·.name) = some name :=
  findIdx?_eq_some_iff_of_nodup hm.constraintNames

end Model.WellFormed

end LookUps

section Editing

namespace Model.WellFormed

variable {m : Model K}

theorem settled (hm : m.WellFormed) {outcome : Except (ModelError K) (Model K)}
    (h : ∀ m', outcome = .ok m' → m'.WellFormed) : (m.settled outcome).1.WellFormed := by
  cases outcome with
  | error e => exact hm
  | ok m' => exact h m' rfl

variable [LinearScalar K]

theorem lowerBound_le_upperBound (hm : m.WellFormed) {v : Variable K} (hv : v ∈ m.vars) :
    v.lowerBound ≤ v.upperBound :=
  have hbounds := hm.bounds v hv
  LinearScalar.le_of_not_lt hbounds.1 hbounds.2.1 hbounds.2.2

theorem weight_nonneg (hm : m.WellFormed) {t : ℕ × K} (ht : t ∈ m.quadratic) : 0.0 ≤ t.2 := by
  obtain ⟨-, hfinite, hnonneg⟩ := hm.quadratic t ht
  have hlt : t.2 < Scalar.infinity := by simpa [isFinite, Scalar.abs, hnonneg] using hfinite
  have hzero := OrderedScalar.defined_of_lt (OrderedScalar.zero_lt_infinity (K := K))
  exact LinearScalar.le_of_not_lt hzero.1 (OrderedScalar.defined_of_lt hlt).1 hnonneg

theorem tried (hm : m.WellFormed) (e : Edit K) : (m.tried e).1.WellFormed := by
  cases e with
  | addVariable v =>
    refine hm.settled fun m' h => ?_
    obtain ⟨⟨added, id⟩, hadded, rfl⟩ := map_eq_ok.mp h
    exact hm.addVariable hadded
  | addConstraint c =>
    refine hm.settled fun m' h => ?_
    obtain ⟨⟨added, id⟩, hadded, rfl⟩ := map_eq_ok.mp h
    exact hm.addConstraint hadded
  | setObjective e => exact hm.settled fun _ => hm.setObjective
  | setQuadratic weights => exact hm.settled fun _ => hm.setQuadratic
  | addExpression name e => exact hm.settled fun _ => hm.addExpression
  | setRhs row rhs => exact hm.settled fun _ => hm.setRhs
  | relaxIntegrality => exact hm.relaxIntegrality
  | relaxWithPenalty penalty => exact hm.relaxWithPenalty penalty

/-- Models are well-formed after any edits. -/
theorem afterEdits (edits : List (Edit K)) : (Model.afterEdits edits).WellFormed := by
  induction edits using List.reverseRecOn with
  | nil => exact .empty
  | append_singleton edits e ih =>
    rw [Model.afterEdits, List.foldl_append]
    exact ih.tried e

end Model.WellFormed

end Editing

section Rebuilding

/-- A fold that succeeds on each entry, given the state that the entries before it have made. -/
theorem foldlM_eq_ok_of_prefix {ε α β : Type} {f : β → α → Except ε β} {b b' : β} {xs : List α}
    (state : List α → β) (hstart : state [] = b) (hend : state xs = b')
    (h : ∀ before x after, xs = before ++ x :: after →
      f (state before) x = .ok (state (before ++ [x]))) : xs.foldlM f b = .ok b' := by
  suffices hrest : ∀ rest before, xs = before ++ rest →
      rest.foldlM f (state before) = .ok (state xs) from hstart ▸ hend ▸ hrest xs [] rfl
  intro rest
  induction rest with
  | nil => exact fun before hxs => by rw [hxs, List.append_nil]; rfl
  | cons x rest ih =>
    intro before hxs
    rw [List.foldlM_cons, h before x rest hxs]
    exact ih (before ++ [x]) (by simpa using hxs)

/-- Of different names, one is not among those before it. -/
theorem notMem_prefix {α : Type} {f : α → String} {xs before after : List α} {x : α}
    (h : (xs.map f).Nodup) (hxs : xs = before ++ x :: after) : f x ∉ before.map f := by
  rw [hxs, List.map_append, List.map_cons] at h
  exact fun hmem => (List.nodup_append.mp h).2.2 _ hmem _ List.mem_cons_self rfl

namespace Model.WellFormed

variable {m : Model K}

theorem foldlM_addVariable (hm : m.WellFormed) (base : Model K) (hbase : base.vars = #[]) :
    m.vars.foldlM (fun m v => (·.1) <$> m.addVariable v) base =
      .ok { base with vars := m.vars } := by
  rw [← Array.foldlM_toList]
  refine foldlM_eq_ok_of_prefix (fun vars => { base with vars := vars.toArray })
    (by rw [← hbase]) (by simp) fun before v after h => ?_
  have hv : v ∈ m.vars := Array.mem_toList_iff.mp (h ▸ by simp)
  have hnew := notMem_prefix hm.variableNames h
  exact map_eq_ok.mpr ⟨_, addVariable_eq_ok.mpr ⟨hm.variableNamed v hv,
    variableNamed?_eq_none_iff.mpr hnew, hm.bounds v hv, rfl, rfl⟩, by simp⟩

theorem foldlM_addConstraint (hm : m.WellFormed) (base : Model K) (hvars : base.vars = m.vars)
    (hbase : base.constraints = #[]) :
    m.constraints.foldlM (fun m c => (·.1) <$> m.addConstraint c) base =
      .ok { base with constraints := m.constraints } := by
  rw [← Array.foldlM_toList]
  refine foldlM_eq_ok_of_prefix (fun rows => { base with constraints := rows.toArray })
    (by rw [← hbase]) (by simp) fun before c after h => ?_
  have hc : c ∈ m.constraints := Array.mem_toList_iff.mp (h ▸ by simp)
  have hnew := notMem_prefix hm.constraintNames h
  obtain ⟨hover, hrhs⟩ := hm.rows c hc
  exact map_eq_ok.mpr ⟨_, addConstraint_eq_ok.mpr ⟨hm.constraintNamed c hc,
    constraintNamed?_eq_none_iff.mpr hnew, hrhs, hvars ▸ hover, rfl, rfl⟩, by simp⟩

theorem foldlM_addExpression (hm : m.WellFormed) (base : Model K) (hvars : base.vars = m.vars)
    (hbase : base.expressions = .ofList []) :
    m.expressions.entries.foldlM (fun m e => m.addExpression e.1 e.2) base =
      .ok { base with expressions := m.expressions } := by
  refine foldlM_eq_ok_of_prefix (fun entries => { base with expressions := .ofList entries })
    (by rw [← hbase]) (by rw [SortedMap.ofList_entries]) fun before e after h => ?_
  have hover := hm.expressions e (h ▸ by simp)
  exact addExpression_eq_ok.mpr ⟨hvars ▸ hover, by simp [SortedMap.ofList]⟩

/-- A well-formed model is what its own parts make. -/
theorem ofParts_eq (hm : m.WellFormed) :
    Model.ofParts m.vars m.constraints m.objective m.quadratic m.expressions = .ok m :=
  bind_eq_ok.mpr ⟨_, hm.foldlM_addVariable _ rfl,
    bind_eq_ok.mpr ⟨_, hm.foldlM_addConstraint _ rfl rfl,
      bind_eq_ok.mpr ⟨_, setObjective_eq_ok.mpr ⟨hm.objective, rfl⟩,
        bind_eq_ok.mpr ⟨_, setQuadratic_eq_ok.mpr ⟨hm.quadratic, rfl⟩,
          hm.foldlM_addExpression _ rfl rfl⟩⟩⟩⟩

end Model.WellFormed

namespace PlanningProblem

variable {p : PlanningProblem K} {m : Model K} {fixedCost : Expression K} {theta : Array ℕ}

/-- A planning problem with more rows is what its parts make: objective and named expressions are
installed already. -/
theorem ofModel_withRows (h : ofModel m fixedCost theta = .ok p) (rows : List (Constraint K)) :
    ofModel (p.withRows rows).model p.fixedCost p.theta = .ok (p.withRows rows) := by
  obtain ⟨hproxies, hover, rfl⟩ := ofModel_eq_ok.mp h
  refine ofModel_eq_ok.mpr ⟨hproxies, hover, ?_⟩
  have hfixed : ((m.expressions.insert fixedCostName fixedCost).insert proxyCostName
      (proxyCost theta)).find? fixedCostName = some fixedCost := by
    rw [SortedMap.insert, SortedMap.find?_alter, if_neg (by decide), SortedMap.insert,
      SortedMap.find?_alter, if_pos rfl]
  have hproxy : ((m.expressions.insert fixedCostName fixedCost).insert proxyCostName
      (proxyCost theta)).find? proxyCostName = some (proxyCost theta) := by
    rw [SortedMap.insert, SortedMap.find?_alter, if_pos rfl]
  simp only [withRows]
  rw [SortedMap.insert_eq_self hfixed, SortedMap.insert_eq_self hproxy]

/-- Cuts that are taken become rows, also where a later one is refused. -/
theorem exists_addCuts_eq (p : PlanningProblem K) (cuts : List (Cut K)) :
    ∃ rows, (p.addCuts cuts).1 = p.withRows rows := by
  induction cuts generalizing p with
  | nil => exact ⟨[], by simp [addCuts, withRows]⟩
  | cons c cuts ih =>
    rw [addCuts]
    cases hadd : p.addCut c with
    | error x => exact ⟨[], by simp [withRows]⟩
    | ok p' =>
      obtain ⟨row, -, rfl, -⟩ := addCut_withRows hadd
      obtain ⟨rows, hrows⟩ := ih (p.withRows [row])
      exact ⟨row :: rows, hrows.trans (p.withRows_withRows [row] rows)⟩

/-- A planning problem after batches of cuts, each added up to the first that is refused. -/
def afterCuts (p : PlanningProblem K) (batches : List (List (Cut K))) : PlanningProblem K :=
  batches.foldl (fun p cuts => (p.addCuts cuts).1) p

theorem exists_afterCuts_eq (p : PlanningProblem K) (batches : List (List (Cut K))) :
    ∃ rows, p.afterCuts batches = p.withRows rows := by
  induction batches generalizing p with
  | nil => exact ⟨[], by simp [afterCuts, withRows]⟩
  | cons cuts batches ih =>
    obtain ⟨rows, hrows⟩ := p.exists_addCuts_eq cuts
    obtain ⟨more, hmore⟩ := ih (p.withRows rows)
    refine ⟨rows ++ more, ?_⟩
    rw [← withRows_withRows, ← hmore, ← hrows]
    rfl

/-- A planning problem is what its own parts make, also after cuts were added or refused. -/
theorem ofModel_afterCuts (h : ofModel m fixedCost theta = .ok p)
    (batches : List (List (Cut K))) :
    ofModel (p.afterCuts batches).model (p.afterCuts batches).fixedCost
      (p.afterCuts batches).theta = .ok (p.afterCuts batches) := by
  obtain ⟨rows, hrows⟩ := p.exists_afterCuts_eq batches
  rw [hrows]
  exact ofModel_withRows h rows

end PlanningProblem

end Rebuilding

end BendersPlanning

import BendersPlanning.Proofs.GeneratedNames
import BendersPlanning.Proofs.OrderedDoubles
import BendersPlanning.Proofs.RunInvariants

/-!
# Subproblems that can be prepared

The contract says nothing of the names that preparation generates. A subproblem that meets it can be
prepared exactly when it lists no linking variable twice, no row has the name of a fixing row and,
where slack columns are added, no variable has the name of one and an automatic penalty is a number
above zero. A run starts exactly when all its subproblems can be prepared.
-/

namespace BendersPlanning

variable {K : Type} [Scalar K]

open Scalar (isFinite)

namespace Subproblem

/-- The penalty that a subproblem is prepared with: the given one or an automatic one. -/
def penalty? (s : Subproblem K) (automatic : Bool) : Option K :=
  s.slackPenalty.or (if automatic then some s.model.automaticSlackPenalty else none)

/-- The names of the slack columns for all rows, the fixing rows included. -/
def slackNames (s : Subproblem K) : List String :=
  s.model.slackNames ++
    s.linking.flatMap fun name => Sense.equal.slackNames (fixingRowName name)

/-- What preparing a subproblem asks of it beyond the contract. -/
structure IsPreparable (s : Subproblem K) (automatic : Bool) : Prop where
  distinct : s.linking.Nodup
  fixingRows : ∀ name ∈ s.linking, s.model.constraintNamed? (fixingRowName name) = none
  /-- The contract covers the penalties that are given. -/
  penalty : s.slackPenalty = none → automatic = true →
    isFinite s.model.automaticSlackPenalty = true ∧ 0.0 < s.model.automaticSlackPenalty
  slacks : (s.penalty? automatic).isSome = true →
    ∀ name ∈ s.slackNames, s.model.variableNamed? name = none

instance (s : Subproblem K) (automatic : Bool) : Decidable (s.IsPreparable automatic) :=
  decidable_of_iff
    (s.linking.Nodup ∧
      (∀ name ∈ s.linking, (s.model.constraintNamed? (fixingRowName name)).isNone = true) ∧
      (s.slackPenalty.isNone = true → automatic = true →
        isFinite s.model.automaticSlackPenalty = true ∧ 0.0 < s.model.automaticSlackPenalty) ∧
      ((s.penalty? automatic).isSome = true →
        ∀ name ∈ s.slackNames, (s.model.variableNamed? name).isNone = true))
    (by simp only [Option.isNone_iff_eq_none]
        exact ⟨fun ⟨hdistinct, hrows, hpenalty, hslacks⟩ => ⟨hdistinct, hrows, hpenalty, hslacks⟩,
          fun h => ⟨h.distinct, h.fixingRows, h.penalty, h.slacks⟩⟩)

/-- A penalty is usable where the given one is and, without one, an automatic one. -/
theorem forall_penalty?_iff {s : Subproblem K} {automatic : Bool} {P : K → Prop}
    (hgiven : ∀ penalty ∈ s.slackPenalty, P penalty) :
    (∀ penalty ∈ s.penalty? automatic, P penalty) ↔
      (s.slackPenalty = none → automatic = true → P s.model.automaticSlackPenalty) := by
  unfold penalty?
  cases hpenalty : s.slackPenalty with
  | none => cases automatic <;> simp
  | some penalty => simpa using hgiven penalty hpenalty

end Subproblem

section Preparing
variable [OrderedScalar K] {s : Subproblem K} {automatic : Bool}
  {prepared : Model K × List (String × ℕ)}

theorem slackNames_of_addFixingRows
    (h : s.linking.foldlM (Evaluator.addFixingRow s.index) (s.model.relaxIntegrality, []) =
      .ok prepared) : prepared.1.slackNames = s.slackNames := by
  obtain ⟨-, -, hrows, -⟩ := Model.shape_of_addFixingRows h
  have hnames (m : Model K) : m.slackNames =
      (m.constraints.toList.map fun c => (c.sense, c.name)).flatMap fun row =>
        row.1.slackNames row.2 := by
    rw [List.flatMap_map]
    rfl
  rw [hnames, hrows, List.flatMap_append, Subproblem.slackNames, hnames]
  congr 1
  rw [List.flatMap_map]

theorem ofSubproblem_eq_ok (hs : s.model.WellFormed)
    (hnamed : ∀ name ∈ s.linking, (s.model.variableNamed? name).isSome = true)
    (hpenalties : ∀ penalty ∈ s.slackPenalty, isFinite penalty = true ∧ 0.0 < penalty) :
    (∃ e, Evaluator.ofSubproblem s automatic = .ok e) ↔ s.IsPreparable automatic := by
  have hfixing : (∃ prepared, s.linking.foldlM (Evaluator.addFixingRow s.index)
      (s.model.relaxIntegrality, []) = .ok prepared) ↔ s.linking.Nodup ∧
      ∀ name ∈ s.linking, s.model.constraintNamed? (fixingRowName name) = none :=
    Model.addFixingRows_eq_ok (by simpa using hnamed)
  unfold Evaluator.ofSubproblem
  by_cases hrows : s.linking.Nodup ∧
      ∀ name ∈ s.linking, s.model.constraintNamed? (fixingRowName name) = none
  · obtain ⟨⟨model, rows⟩, hprepared⟩ := hfixing.mpr hrows
    have hnames := (FixingRowsOf.addFixingRows hs hprepared).model.constraintNames
    have hcolumns := slackNames_of_addFixingRows hprepared
    obtain ⟨hvars, hobjective, -⟩ := Model.shape_of_addFixingRows hprepared
    have hautomatic : model.automaticSlackPenalty = s.model.automaticSlackPenalty := by
      rw [Model.automaticSlackPenalty, hobjective]
      rfl
    have hvariables (name : String) : model.variableNamed? name = s.model.variableNamed? name := by
      rw [← s.model.variableNamed?_relaxIntegrality, Model.variableNamed?, hvars]
      rfl
    simp only [bind_eq_ok, hprepared, Except.ok.injEq, exists_eq_left', hautomatic]
    rw [show s.slackPenalty.or (if automatic then some s.model.automaticSlackPenalty else none) =
      s.penalty? automatic from rfl]
    have husable : (∀ penalty ∈ s.penalty? automatic, _) ↔ _ :=
      Subproblem.forall_penalty?_iff hpenalties
    cases hpenalty : s.penalty? automatic with
    | none =>
      exact iff_of_true ⟨_, rfl⟩
        ⟨hrows.1, hrows.2, husable.mp (by simp [hpenalty]), by simp [hpenalty]⟩
    | some penalty =>
      have helastic : (∃ slacks, (model.relaxWithPenalty penalty).2 = .ok slacks) ↔
          s.IsPreparable automatic := by
        simp only [hpenalty, Option.mem_some_iff, forall_eq'] at husable
        rw [Model.relaxWithPenalty_eq_ok hnames, hcolumns, husable]
        simp only [hvariables]
        exact ⟨fun h => ⟨hrows.1, hrows.2, h.1, fun _ => h.2⟩,
          fun h => ⟨h.penalty, h.slacks (by simp [hpenalty])⟩⟩
      rw [← helastic]
      cases hrelaxed : model.relaxWithPenalty penalty with
      | mk elastic result => cases result <;> simp [hrelaxed, pure, Except.pure]
  · refine iff_of_false ?_ fun h => hrows ⟨h.distinct, h.fixingRows⟩
    rintro ⟨e, h⟩
    obtain ⟨prepared, hprepared, -⟩ := bind_eq_ok.mp h
    exact hrows (hfixing.mp ⟨prepared, hprepared⟩)

end Preparing

/-- For a valid problem preparing and starting depend on generated names and automatic penalties
only. -/
theorem valid_problems_start [OrderedScalar K] {p : DecomposedProblem K} (hp : p.WellFormed)
    (hvalid : p.validate = .ok ()) :
    (∀ s ∈ p.subproblems, ∀ automatic,
      (∃ e, Evaluator.ofSubproblem s automatic = .ok e) ↔ s.IsPreparable automatic) ∧
    ∀ c : Configuration K, c.validate = .ok () →
      ((∃ start, RunState.start c p = .ok start) ↔
        ∀ s ∈ p.subproblems, s.IsPreparable c.automaticSlackPenalty) := by
  have hcontract := DecomposedProblem.validate_eq_ok.mp hvalid
  have hprepare : ∀ s ∈ p.subproblems, ∀ automatic,
      (∃ e, Evaluator.ofSubproblem s automatic = .ok e) ↔ s.IsPreparable automatic :=
    fun s hs automatic => ofSubproblem_eq_ok (hp.subproblems s hs)
      (fun name hname => (hcontract.linked s hs name hname).2) (hcontract.penalties s hs)
  refine ⟨hprepare, fun c hc => ?_⟩
  have hall : (∃ evaluators, (p.subproblems.mapM fun s =>
      Evaluator.ofSubproblem s c.automaticSlackPenalty) = .ok evaluators) ↔
        ∀ s ∈ p.subproblems, s.IsPreparable c.automaticSlackPenalty := by
    rw [exists_mapM_eq_ok]
    exact forall₂_congr fun s hs => hprepare s hs _
  rw [← hall]
  constructor
  · rintro ⟨start, hstart⟩
    obtain ⟨-, -, evaluators, hevaluators, -⟩ := RunState.start_eq_ok.mp hstart
    exact ⟨evaluators, hevaluators⟩
  · rintro ⟨evaluators, hevaluators⟩
    exact ⟨_, RunState.start_eq_ok.mpr ⟨hc, hvalid, evaluators, hevaluators, rfl⟩⟩

/-- A plant and imports at some cost, in doubles, with further variables and rows of the
operation. -/
def doublesPlant (cost : Float) (vars : Array (Variable Float)) (rows : Array (Constraint Float)) :
    DecomposedProblem Float where
  planning :=
    { model :=
        { vars := #[.continuous "capacity" (some 0.0) (some 10.0),
            .continuous "theta" (some 0.0) none]
          constraints := #[]
          objective := ⟨#[(0, 1.0), (1, 1.0)], 0.0⟩
          quadratic := #[]
          expressions := .empty }
      fixedCost := ⟨#[(0, 1.0)], 0.0⟩
      theta := #[1] }
  linking := ["capacity"]
  subproblems :=
    [{ index := 0
       model :=
        { vars := #[.continuous "capacity" none none, .continuous "import" (some 0.0) none] ++ vars
          constraints :=
            #[⟨"demand", ⟨#[(0, 1.0), (1, 1.0)], 0.0⟩, .atLeast, 3.0⟩] ++ rows
          objective := ⟨#[(1, cost)], 0.0⟩
          quadratic := #[]
          expressions := .empty }
       linking := ["capacity"]
       slackPenalty := none }]

/-- The operation lists its linking variable twice. -/
def repeatedLink : DecomposedProblem Float :=
  (doublesPlant 2.0 #[] #[]).withLinking (.ofList [(0, ["capacity", "capacity"])])

/-- A row of the operation has the name of the fixing row. -/
def namedRow : DecomposedProblem Float :=
  doublesPlant 2.0 #[] #[⟨"fix[capacity]", .ofVariable 0, .atMost, 5.0⟩]

/-- A variable of the operation has the name of a slack column. -/
def namedColumn : DecomposedProblem Float :=
  doublesPlant 2.0 #[.continuous "slack[demand]" (some 0.0) none] #[]

/-- A thousand times the cost is no finite double. -/
def dearImports : DecomposedProblem Float :=
  doublesPlant 1e306 #[] #[]

/-- A valid problem with a subproblem that cannot be prepared. -/
def DecomposedProblem.IsValidButFails (p : DecomposedProblem K) (automatic : Bool) : Prop :=
  p.WellFormed ∧ p.validate = .ok () ∧
    ∃ s ∈ p.subproblems, ∀ e, Evaluator.ofSubproblem s automatic ≠ .ok e

theorem DecomposedProblem.isValidButFails_of_isNone {p : DecomposedProblem K} {automatic : Bool}
    (hp : p.planning.model.WellFormed ∧ ∀ s ∈ p.subproblems, s.model.WellFormed)
    (hvalid : p.fault?.isNone = true) (hfails : ∃ s ∈ p.subproblems,
      (Evaluator.ofSubproblem s automatic).toOption.isNone = true) :
    p.IsValidButFails automatic := by
  obtain ⟨s, hs, hfails⟩ := hfails
  refine ⟨⟨hp.1, hp.2⟩, ?_, s, hs, fun e he => ?_⟩
  · exact fault?_eq_none_iff.mp (Option.isNone_iff_eq_none.mp hvalid)
  · rw [he] at hfails
    cases hfails

/-- Valid problems can fail to start, for each of the reasons. -/
theorem valid_problems_fail_to_start :
    repeatedLink.IsValidButFails false ∧ namedRow.IsValidButFails false ∧
      namedColumn.IsValidButFails true ∧ dearImports.IsValidButFails true := by
  refine ⟨?_, ?_, ?_, ?_⟩ <;> apply DecomposedProblem.isValidButFails_of_isNone <;> decide +kernel

/-- The plant of `namedColumn` can be prepared and starts once its variable has another name. -/
theorem renamedColumn_starts :
    let p := doublesPlant 2.0 #[.continuous "storage" (some 0.0) none] #[]
    let c := { (Configuration.default : Configuration Float) with automaticSlackPenalty := true }
    (∀ s ∈ p.subproblems, ∃ e, Evaluator.ofSubproblem s true = .ok e) ∧
      ∃ start, RunState.start c p = .ok start := by
  intro p c
  have hpreparable : ∀ s ∈ p.subproblems, s.IsPreparable true := by decide +kernel
  have hconfiguration : c.fault?.isNone = true := by decide +kernel
  have hproblem : p.fault?.isNone = true := by decide +kernel
  rw [Option.isNone_iff_eq_none] at hconfiguration hproblem
  obtain ⟨hprepare, hstart⟩ := valid_problems_start (p := p) ⟨by decide +kernel, by decide +kernel⟩
    (DecomposedProblem.fault?_eq_none_iff.mp hproblem)
  exact ⟨fun s hs => (hprepare s hs true).mpr (hpreparable s hs),
    (hstart c (Configuration.fault?_eq_none_iff.mp hconfiguration)).mpr hpreparable⟩

end BendersPlanning

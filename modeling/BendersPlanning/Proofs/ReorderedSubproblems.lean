import BendersPlanning.Conic.Backend
import BendersPlanning.Proofs.DistributedRuns
import BendersPlanning.Proofs.RunBounds

/-!
# Reordered subproblems

A run sorts its evaluators by their indices, which validation requires to be different. So the order in
which a problem lists its subproblems is lost before the first iteration (`RunState.start_inOrder`), and
with it from the whole run. Within an iteration the order of the evaluations does not matter either,
as long as the replies of the backend depend on nothing but the questions, and so a run does not tell
how many workers it had.
-/

namespace BendersPlanning

open Exact (number)

/-- The problem with its subproblems listed in another order. -/
def DecomposedProblem.inOrder {K : Type} (p : DecomposedProblem K) (order : List (Subproblem K)) :
    DecomposedProblem K :=
  { p with subproblems := order }

section Lists

theorem mapM_eq_ok_of_forall₂ {ε α β : Type} {f : α → Except ε β} {xs : List α} {ys : List β}
    (h : List.Forall₂ (fun x y => f x = .ok y) xs ys) : xs.mapM f = .ok ys := by
  induction h with
  | nil => rfl
  | cons hx _ ih =>
    rw [List.mapM_cons, hx, ih]
    rfl

theorem exists_mapM_of_perm {ε α β : Type} {f : α → Except ε β} {xs order : List α} {ys : List β}
    (h : xs.mapM f = .ok ys) (horder : order.Perm xs) :
    ∃ zs, order.mapM f = .ok zs ∧ zs.Perm ys := by
  obtain ⟨zs, hzs, hperm⟩ :=
    List.perm_comp_forall₂ horder (RunState.forall₂_of_mapM_eq_ok h)
  exact ⟨zs, mapM_eq_ok_of_forall₂ hzs, hperm⟩

/-- Sorting by different indices forgets the order before. -/
theorem Evaluator.mergeSort_eq_of_perm {K : Type} {es order : List (Evaluator K)}
    (horder : order.Perm es) (hindices : (es.map (·.index)).Nodup) :
    (order.mergeSort fun a b => a.index ≤ b.index) = es.mergeSort fun a b => a.index ≤ b.index := by
  have hsorted : ∀ es : List (Evaluator K), (es.mergeSort fun a b => a.index ≤ b.index).Pairwise
      fun a b => a.index ≤ b.index := fun es =>
    (List.pairwise_mergeSort (by grind) (by grind) es).imp of_decide_eq_true
  refine List.Perm.eq_of_pairwise (fun a b ha hb hab hba => ?_) (hsorted order) (hsorted es)
    ((List.mergeSort_perm ..).trans (horder.trans (List.mergeSort_perm ..).symm))
  rw [List.mem_mergeSort] at ha hb
  exact List.inj_on_of_nodup_map hindices (horder.mem_iff.mp ha) hb (Nat.le_antisymm hab hba)

end Lists

section Orders

variable {K : Type} [Scalar K] {c : Configuration K} {p : DecomposedProblem K}
  {order : List (Subproblem K)}

namespace DecomposedProblem

theorem MeetsContract.inOrder (h : p.MeetsContract) (horder : order.Perm p.subproblems) :
    (p.inOrder order).MeetsContract := by
  have hlength : order.length = p.subproblems.length := horder.length_eq
  refine ⟨h.bounded, ⟨h.nonempty.1, ?_⟩, ?_, h.distinct, h.planned, ?_,
    fun s hs => h.linked s (horder.mem_iff.mp hs), fun s hs => h.penalties s (horder.mem_iff.mp hs)⟩
  · exact hlength ▸ h.nonempty.2
  · exact hlength ▸ h.proxies
  · exact hlength ▸ (horder.map _).trans h.indices

end DecomposedProblem

/-- The state before the first iteration does not tell in which order the subproblems were listed. -/
theorem RunState.start_inOrder (hc : c.validate = .ok ()) (hp : p.validate = .ok ())
    (hprepared : ∀ s ∈ p.subproblems, ∃ e, Evaluator.ofSubproblem s c.automaticSlackPenalty = .ok e)
    (horder : order.Perm p.subproblems) :
    RunState.start c (p.inOrder order) = RunState.start c p := by
  have hcontract := DecomposedProblem.validate_eq_ok.mp hp
  obtain ⟨es, hes⟩ := exists_mapM_eq_ok.mpr hprepared
  obtain ⟨es', hes', hperm⟩ := exists_mapM_of_perm hes horder
  have hindices : (es.map (·.index)).Nodup := by
    rw [indices_eq (forall₂_of_mapM_eq_ok hes)]
    exact hcontract.indices.nodup_iff.mpr List.nodup_range
  rw [start_eq_ok.mpr ⟨hc, hp, es, hes, rfl⟩]
  refine start_eq_ok.mpr ⟨hc, ?_, es', hes', ?_⟩
  · exact DecomposedProblem.validate_eq_ok.mpr (hcontract.inOrder horder)
  · rw [Evaluator.mergeSort_eq_of_perm hperm hindices]
    rfl

theorem DecomposedProblem.run_inOrder {m : Type → Type} [Monad m] (backend : Backend m K)
    (clock : Clock m K) (hstart : RunState.start c (p.inOrder order) = RunState.start c p) :
    (p.inOrder order).run backend clock c = p.run backend clock c := by
  rw [run, run, hstart]
  rfl

end Orders

/-- With a backend whose replies depend on model and settings only, the order of the subproblems never
matters: neither the one in which evaluators with different indices are evaluated, alone or at the same
time, nor the one in which a valid problem lists them. A distributed run has the result of a run in
turn. -/
theorem subproblem_order_is_irrelevant {K : Type} [Scalar K] (backend : Backend Id K) :
    (∀ values settings (es : List (Evaluator K)), (es.map (·.index)).Nodup →
      Evaluator.IsOrderless backend values settings es) ∧
    (∀ (c : Configuration K) (clock : Clock Id K) (p : DecomposedProblem K)
      (order : List (Subproblem K)), c.validate = .ok () → p.validate = .ok () →
      (∀ s ∈ p.subproblems, ∃ e, Evaluator.ofSubproblem s c.automaticSlackPenalty = .ok e) →
      order.Perm p.subproblems →
      Id.run ((p.inOrder order).run backend clock c).run = Id.run (p.run backend clock c).run) ∧
    ∀ (build : PoolBuilder Id K) (c : Configuration K) (clock : Clock Id K)
      (p : DecomposedProblem K), p.IgnoresWorkers build backend clock c := by
  refine ⟨fun values settings es => Evaluator.isOrderless backend values settings, ?_, ?_⟩
  · intro c clock p order hc hp hprepared horder
    rw [DecomposedProblem.run_inOrder backend clock
      (RunState.start_inOrder hc hp hprepared horder)]
  · exact fun build c clock p => p.ignoresWorkers build backend clock c

/-- A demand of one season, met by a plant and by up to two imported units. -/
def season (index : ℕ) (demand : ℚ) : Subproblem Exact where
  index := index
  model :=
    { vars := #[.continuous "capacity" none none,
        .continuous "import" (some (number 0)) (some (number 2))]
      constraints := #[
        ⟨"demand", ⟨#[(0, number 1), (1, number 1)], number 0⟩, .atLeast, number demand⟩]
      objective := ⟨#[(1, number 2)], number 0⟩
      quadratic := #[]
      expressions := .empty }
  linking := ["capacity"]
  slackPenalty := none

def twoSeasons : DecomposedProblem Exact := onePlant.inOrder [season 0 3, season 1 5]

/-- The state in which runs of `twoSeasons` start. -/
def seasonsStart : RunState Exact where
  planning := { onePlant.planning with model := onePlant.planning.model.relaxIntegrality }
  evaluators :=
    ([season 0 3, season 1 5].mapM fun s => Evaluator.ofSubproblem s false).toOption.getD []
  history := .empty
  gamma := 0.0

theorem start_twoSeasons : RunState.start .default twoSeasons = .ok seasonsStart := by
  refine RunState.start_eq_ok.mpr
    ⟨by decide +kernel, by decide +kernel, seasonsStart.evaluators, by decide +kernel, ?_⟩
  rw [List.mergeSort_of_pairwise (by decide +kernel)]
  rfl

/-- A distributed run with two threads. -/
def twoThreads : Configuration Exact :=
  { Configuration.default with distributed := true, threads := 2 }

/-- The run serves both seasons with five units. Listing the second one first makes no difference, and
neither do two workers. -/
theorem twoSeasons_order_is_irrelevant :
    let backend : Backend Id Exact := ConicSolver.backend ConicProgram.solveByPivoting
    seasonsStart.evaluators.map (·.index) = [0, 1] ∧
    (∀ values, Evaluator.IsOrderless backend values .default seasonsStart.evaluators) ∧
    ∃ r, Id.run (twoSeasons.run backend (fun _ => number 1) .default).run = .ok r ∧
      r.upperBound = number 5 ∧
      Id.run ((twoSeasons.inOrder [season 1 5, season 0 3]).run backend (fun _ => number 1)
        .default).run = .ok r ∧
      ∃ r', Id.run (twoSeasons.runOn (fun _ => pure (.ok .oneEach)) backend (fun _ => number 1)
        twoThreads).run = .ok r' ∧ r'.upperBound = number 5 := by
  intro backend
  obtain ⟨horderless, hlisted, hworkers⟩ := subproblem_order_is_irrelevant backend
  obtain ⟨r, hrun, hupper⟩ := exists_ok_of_any
    (x := Id.run (twoSeasons.run backend (fun _ => number 1) .default).run)
    (P := fun r => r.upperBound = number 5)
    (by rw [DecomposedProblem.run, start_twoSeasons]; decide +kernel)
  obtain ⟨hconfiguration, hproblem, es, hprepared, -⟩ := RunState.start_eq_ok.mp start_twoSeasons
  obtain ⟨r', hrun', hupper'⟩ := exists_ok_of_any
    (x := Id.run (twoSeasons.run backend (fun _ => number 1) twoThreads).run)
    (P := fun r => r.upperBound = number 5)
    (by
      rw [DecomposedProblem.run, show RunState.start twoThreads twoSeasons = .ok seasonsStart from
        start_twoSeasons]
      decide +kernel)
  refine ⟨by decide +kernel, fun values => ?_, r, hrun, hupper, ?_, r', ?_, hupper'⟩
  · exact horderless values .default seasonsStart.evaluators (by decide +kernel)
  · rw [hlisted .default _ twoSeasons _ hconfiguration hproblem
      (exists_mapM_eq_ok.mp ⟨es, hprepared⟩) (.swap _ _ _), hrun]
  · exact ((hworkers _ twoThreads _ twoSeasons).distributed .oneEach rfl rfl
      WorkerPool.interleaves_oneEach r').mpr hrun'

end BendersPlanning

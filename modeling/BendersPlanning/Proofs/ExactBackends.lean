import BendersPlanning.Planning.Solve
import BendersPlanning.Proofs.FeasiblePoints

/-!
# Exact backends

A backend is exact when its replies tell the truth about the models it is asked for: an optimum is a
feasible minimiser with its objective and, for continuous models, prices that support the optimal
value at all right-hand sides; an infeasible model has no feasible point, and a certificate of it is
valid. Replies may depend on a world of any type that changes from call to call; `Answers`, `Yields`
and `Fails` say how one run of a computation in such a world ends.
-/

namespace BendersPlanning

section Computations
variable {σ ε α β : Type} {w w' : σ} {a : α} {b : β}

/-- A computation that starts in `w` returns `a` and leaves `w'`. -/
def Answers (x : StateM σ α) (w : σ) (a : α) (w' : σ) : Prop := (x.run w).run = (a, w')

/-- A computation that may fail does not, and returns `a`. -/
def Yields (x : ExceptT ε (StateM σ) α) (w : σ) (a : α) (w' : σ) : Prop :=
  Answers x.run w (.ok a) w'

/-- A computation that may fail does, with the error `e`. -/
def Fails (x : ExceptT ε (StateM σ) α) (w : σ) (e : ε) (w' : σ) : Prop :=
  Answers x.run w (.error e) w'

theorem answers_pure {b : α} : Answers (pure a) w b w' ↔ a = b ∧ w = w' := by
  simp [Answers]

theorem answers_bind {x : StateM σ α} {f : α → StateM σ β} :
    Answers (x >>= f) w b w' ↔ ∃ a w₁, Answers x w a w₁ ∧ Answers (f a) w₁ b w' := by
  unfold Answers
  rw [StateT.run_bind, Id.run_bind]
  constructor
  · exact fun h => ⟨_, _, rfl, h⟩
  · rintro ⟨a, w₁, hx, hf⟩
    rw [hx]
    exact hf

theorem yields_pure {b : α} :
    Yields (pure a : ExceptT ε (StateM σ) α) w b w' ↔ a = b ∧ w = w' := by
  simp [Yields, answers_pure]

theorem not_yields_throw {e : ε} : ¬Yields (throw e : ExceptT ε (StateM σ) α) w a w' := by
  simp [Yields, answers_pure]

theorem yields_bind {x : ExceptT ε (StateM σ) α} {f : α → ExceptT ε (StateM σ) β} :
    Yields (x >>= f) w b w' ↔ ∃ a w₁, Yields x w a w₁ ∧ Yields (f a) w₁ b w' := by
  unfold Yields
  rw [ExceptT.run_bind, answers_bind]
  constructor
  · rintro ⟨result, w₁, hx, hf⟩
    cases result with
    | ok a => exact ⟨a, w₁, hx, hf⟩
    | error e => cases (answers_pure.mp hf).1
  · rintro ⟨a, w₁, hx, hf⟩
    exact ⟨.ok a, w₁, hx, hf⟩

/-- One of two computations, with the same continuation. -/
theorem yields_ite_bind {condition : Prop} [Decidable condition]
    {x y : ExceptT ε (StateM σ) α} {f : α → ExceptT ε (StateM σ) β} :
    Yields (if condition then x >>= f else y >>= f) w b w' ↔
      ∃ a w₁, (condition ∧ Yields x w a w₁ ∨ ¬condition ∧ Yields y w a w₁) ∧
        Yields (f a) w₁ b w' := by
  split_ifs with h <;> simp [yields_bind, h]

theorem yields_lift {x : StateM σ α} :
    Yields (ExceptT.lift x : ExceptT ε (StateM σ) α) w a w' ↔ Answers x w a w' := by
  unfold Yields
  rw [ExceptT.run_lift, map_eq_pure_bind, answers_bind]
  constructor
  · rintro ⟨b, w₁, hx, hreturn⟩
    obtain ⟨hb, rfl⟩ := answers_pure.mp hreturn
    exact Except.ok.inj hb ▸ hx
  · exact fun hx => ⟨a, w', hx, answers_pure.mpr ⟨rfl, rfl⟩⟩

theorem yields_mk_pure {r : Except ε α} :
    Yields (ExceptT.mk (pure r) : ExceptT ε (StateM σ) α) w a w' ↔ r = .ok a ∧ w = w' := by
  exact answers_pure

variable {e e' : ε}

theorem not_fails_pure : ¬Fails (pure a : ExceptT ε (StateM σ) α) w e w' := by
  simp [Fails, answers_pure]

theorem fails_throw :
    Fails (throw e' : ExceptT ε (StateM σ) α) w e w' ↔ e' = e ∧ w = w' := by
  simp [Fails, answers_pure]

/-- A sequence fails in its first part, or in the rest after the first part succeeded. -/
theorem fails_bind {x : ExceptT ε (StateM σ) α} {f : α → ExceptT ε (StateM σ) β} :
    Fails (x >>= f) w e w' ↔
      Fails x w e w' ∨ ∃ a w₁, Yields x w a w₁ ∧ Fails (f a) w₁ e w' := by
  unfold Fails Yields
  rw [ExceptT.run_bind, answers_bind]
  constructor
  · rintro ⟨result, w₁, hx, hf⟩
    cases result with
    | ok a => exact .inr ⟨a, w₁, hx, hf⟩
    | error e₁ =>
      obtain ⟨hsame, rfl⟩ := answers_pure.mp hf
      exact .inl (Except.error.inj hsame ▸ hx)
  · rintro (hx | ⟨a, w₁, hx, hf⟩)
    · exact ⟨.error e, w', hx, answers_pure.mpr ⟨rfl, rfl⟩⟩
    · exact ⟨.ok a, w₁, hx, hf⟩

/-- One of two computations fails, or the continuation that they share. -/
theorem fails_ite_bind {condition : Prop} [Decidable condition]
    {x y : ExceptT ε (StateM σ) α} {f : α → ExceptT ε (StateM σ) β} :
    Fails (if condition then x >>= f else y >>= f) w e w' ↔
      (condition ∧ Fails x w e w' ∨ ¬condition ∧ Fails y w e w') ∨
        ∃ a w₁, (condition ∧ Yields x w a w₁ ∨ ¬condition ∧ Yields y w a w₁) ∧
          Fails (f a) w₁ e w' := by
  split_ifs with h <;> simp [fails_bind, h]

theorem not_fails_lift {x : StateM σ α} :
    ¬Fails (ExceptT.lift x : ExceptT ε (StateM σ) α) w e w' := by
  unfold Fails
  rw [ExceptT.run_lift, map_eq_pure_bind, answers_bind]
  rintro ⟨b, w₁, -, hreturn⟩
  cases (answers_pure.mp hreturn).1

theorem fails_mk_pure {r : Except ε α} :
    Fails (ExceptT.mk (pure r) : ExceptT ε (StateM σ) α) w e w' ↔ r = .error e ∧ w = w' := by
  exact answers_pure

end Computations

section Replies
variable {K : Type} [Scalar K] {σ : Type}

/-- What a truthful reply about a model promises. -/
structure Solution.IsExactFor (s : Solution K) (m : Model K) : Prop where
  feasible : s.status = .optimal → m.Feasible s.primal
  value : s.status = .optimal → s.objective = m.objectiveValue s.primal
  least : s.status = .optimal → ∀ point, m.Feasible point → s.objective ≤ m.objectiveValue point
  priced : s.status = .optimal → m.hasInteger = false → m.IsPricedBy s.objective s.duals
  infeasible : s.status = .infeasible → ∀ point, ¬m.Feasible point
  refuted : s.status = .infeasible → ∀ c, s.certificate = some c → m.IsRefutedBy c

/-- All replies about well-formed models are truthful. -/
def Backend.IsExact (backend : Backend (StateM σ) K) : Prop :=
  ∀ (model : Model K) (settings : SolverSettings K) (w w' : σ) (s : Solution K),
    model.WellFormed → Answers (backend.solve model settings) w (.ok s) w' → s.IsExactFor model

theorem Solution.IsExactFor.hasMinimum {s : Solution K} {m : Model K} (h : s.IsExactFor m)
    (hs : s.status = .optimal) : m.HasMinimum s.objective :=
  ⟨⟨s.primal, h.feasible hs, (h.value hs).symm⟩, h.least hs⟩

variable {backend : Backend (StateM σ) K} {model : Model K} {settings : SolverSettings K} {w w' : σ}
  {s : Solution K}

omit [Scalar K] in
/-- An attempt yields what the backend replies. -/
theorem Backend.yields_attempt :
    Yields (backend.attempt model settings) w s w' ↔
      Answers (backend.solve model settings) w (.ok s) w' := by
  unfold Yields attempt
  rw [ExceptT.run_mk, answers_bind]
  constructor
  · rintro ⟨result, w₁, hsolve, hreturn⟩
    obtain ⟨hmapped, rfl⟩ := answers_pure.mp hreturn
    cases result with
    | error e => cases hmapped
    | ok s' =>
      obtain rfl : s' = s := Except.ok.inj hmapped
      exact hsolve
  · exact fun hsolve => ⟨.ok s, w', hsolve, answers_pure.mpr ⟨rfl, rfl⟩⟩

omit [Scalar K] in
/-- An attempt fails where the backend itself does. -/
theorem Backend.fails_attempt {e : RunError K} :
    Fails (backend.attempt model settings) w e w' ↔
      ∃ error, e = .model error ∧ Answers (backend.solve model settings) w (.error error) w' := by
  unfold Fails attempt
  rw [ExceptT.run_mk, answers_bind]
  constructor
  · rintro ⟨result, w₁, hsolve, hreturn⟩
    obtain ⟨hmapped, rfl⟩ := answers_pure.mp hreturn
    cases result with
    | error error => exact ⟨error, (Except.error.inj hmapped).symm, hsolve⟩
    | ok s => cases hmapped
  · rintro ⟨error, rfl, hsolve⟩
    exact ⟨.error error, w', hsolve, answers_pure.mpr ⟨rfl, rfl⟩⟩

omit [Scalar K] in
/-- Of two attempts, or one that is not repeated, the last reply counts. -/
theorem Backend.replied_of_retried {condition : Prop} {settings' : SolverSettings K}
    {first : Solution K} {w₁ : σ} (hfirst : Yields (backend.attempt model settings) w first w₁)
    (hsecond : condition ∧ Yields (backend.attempt model settings') w₁ s w' ∨
      ¬condition ∧ Yields (pure first : ExceptT (RunError K) (StateM σ) (Solution K)) w₁ s w') :
    ∃ settings w₀, Answers (backend.solve model settings) w₀ (.ok s) w' := by
  rcases hsecond with ⟨-, hsecond⟩ | ⟨-, hsecond⟩
  · exact ⟨_, w₁, yields_attempt.mp hsecond⟩
  · obtain ⟨rfl, rfl⟩ := yields_pure.mp hsecond
    exact ⟨_, w, yields_attempt.mp hfirst⟩

end Replies

end BendersPlanning

import BendersPlanning.Conic.Backend
import BendersPlanning.Conic.Pivoting
import BendersPlanning.Proofs.ExactArithmetic
import BendersPlanning.Proofs.RecordForms

/-!
# Solutions read back from their JSON form

Numbers that are not finite are written as `null`, and a number is required where a solution is read.
So a solution comes back, unchanged, just when all its numbers are finite. A solution without a point
has an objective that is not a number, and therefore cannot be read back.
-/

namespace BendersPlanning

open Fields (read_seq_eq_ok read_map_eq_ok reader_obj_eq_ok read_fieldOr_eq_ok)
open Scalar (isFinite)

variable {K ε : Type} [Scalar K]

section Meaning

structure Certificate.IsFinite (c : Certificate K) : Prop where
  ray : ∀ x ∈ c.ray, isFinite x = true
  infeasibility : isFinite c.infeasibility = true

/-- Whether all numbers of a solution are finite, and the count fits its 32 bits. -/
structure Solution.IsFinite (s : Solution K) : Prop where
  objective : isFinite s.objective = true
  primal : ∀ x ∈ s.primal, isFinite x = true
  duals : ∀ x ∈ s.duals, isFinite x = true
  certificate : ∀ c ∈ s.certificate, c.IsFinite
  iterations : s.iterations < Json.shortLimit

end Meaning

theorem Certificate.ofJson_toJson_eq_ok {c c' : Certificate K} :
    (Certificate.ofJson c.toJson : Except (LoadError ε) (Certificate K)) = .ok c' ↔
      c.IsFinite ∧ c = c' := by
  simp only [Certificate.ofJson, Fields.required]
  constructor
  · intro h
    obtain ⟨_, margin, hrest, hmargin, rfl⟩ := read_seq_eq_ok.mp (reader_obj_eq_ok.mp h)
    obtain ⟨ray, hray, rfl⟩ := read_map_eq_ok.mp hrest
    obtain ⟨hrayFinite, rfl⟩ := Json.readNumbers_eq_ok.mp ((read_fieldOr_eq_ok (by simp) rfl).mp hray)
    obtain ⟨hmarginFinite, rfl⟩ :=
      Json.readNumber_number_eq_ok.mp ((read_fieldOr_eq_ok (by simp) rfl).mp hmargin)
    exact ⟨⟨hrayFinite, hmarginFinite⟩, rfl⟩
  · rintro ⟨hfinite, rfl⟩
    refine reader_obj_eq_ok.mpr (read_seq_eq_ok.mpr
      ⟨_, c.infeasibility, read_map_eq_ok.mpr ⟨c.ray, ?_, rfl⟩, ?_, rfl⟩)
    all_goals refine (read_fieldOr_eq_ok (by simp) rfl).mpr ?_
    · exact Json.readNumbers_eq_ok.mpr ⟨hfinite.ray, rfl⟩
    · exact Json.readNumber_number_eq_ok.mpr ⟨hfinite.infeasibility, rfl⟩

omit [Scalar K] in
theorem Status.readName_label (s : Status) :
    (Json.readName Status.names (.str s.label : Json K) : Except (LoadError ε) Status) = .ok s := by
  cases s <;> rfl

/-- A certificate, or `null` for none. -/
theorem Certificate.readOption_eq_ok {c c' : Option (Certificate K)} :
    (Json.readOption Certificate.ofJson ((c.map Certificate.toJson).getD .null) :
      Except (LoadError ε) (Option (Certificate K))) = .ok c' ↔
        (∀ d ∈ c, d.IsFinite) ∧ c = c' := by
  cases c with
  | none => exact ⟨fun h => ⟨nofun, Except.ok.inj h⟩, fun h => congrArg Except.ok h.2⟩
  | some d =>
    change (some <$> Certificate.ofJson d.toJson : Except (LoadError ε) _) = .ok c' ↔ _
    rw [map_eq_ok]
    constructor
    · rintro ⟨d', hd, rfl⟩
      obtain ⟨hfinite, rfl⟩ := ofJson_toJson_eq_ok.mp hd
      exact ⟨fun _ h => Option.some.inj h ▸ hfinite, rfl⟩
    · rintro ⟨hfinite, rfl⟩
      exact ⟨d, ofJson_toJson_eq_ok.mpr ⟨hfinite d rfl, rfl⟩, rfl⟩

theorem Solution.ofJson_toJson_eq_ok {s s' : Solution K} :
    (Solution.ofJson s.toJson : Except (LoadError ε) (Solution K)) = .ok s' ↔
      s.IsFinite ∧ s = s' := by
  simp only [Solution.ofJson, Fields.required, Fields.optional, Fields.withDefault]
  constructor
  · intro h
    obtain ⟨_, iterations, h₅, hiterations, rfl⟩ := read_seq_eq_ok.mp (reader_obj_eq_ok.mp h)
    obtain ⟨_, certificate, h₄, hcertificate, rfl⟩ := read_seq_eq_ok.mp h₅
    obtain ⟨_, duals, h₃, hduals, rfl⟩ := read_seq_eq_ok.mp h₄
    obtain ⟨_, primal, h₂, hprimal, rfl⟩ := read_seq_eq_ok.mp h₃
    obtain ⟨_, objective, h₁, hobjective, rfl⟩ := read_seq_eq_ok.mp h₂
    obtain ⟨status, hstatus, rfl⟩ := read_map_eq_ok.mp h₁
    have hlabel := (read_fieldOr_eq_ok (by simp) rfl).mp hstatus
    rw [s.status.readName_label] at hlabel
    obtain rfl := Except.ok.inj hlabel
    obtain ⟨ho, rfl⟩ :=
      Json.readNumber_number_eq_ok.mp ((read_fieldOr_eq_ok (by simp) rfl).mp hobjective)
    obtain ⟨hp, rfl⟩ :=
      Json.readNumbers_eq_ok.mp ((read_fieldOr_eq_ok (by simp) rfl).mp hprimal)
    obtain ⟨hd, rfl⟩ :=
      Json.readNumbers_eq_ok.mp ((read_fieldOr_eq_ok (by simp) rfl).mp hduals)
    obtain ⟨hc, rfl⟩ :=
      Certificate.readOption_eq_ok.mp ((read_fieldOr_eq_ok (by simp) rfl).mp hcertificate)
    obtain ⟨hn, rfl⟩ :=
      Json.readNat_ofNat_eq_ok.mp ((read_fieldOr_eq_ok (by simp) rfl).mp hiterations)
    exact ⟨⟨ho, hp, hd, hc, hn⟩, rfl⟩
  · rintro ⟨hfinite, rfl⟩
    refine reader_obj_eq_ok.mpr (read_seq_eq_ok.mpr ⟨_, s.iterations, read_seq_eq_ok.mpr
      ⟨_, s.certificate, read_seq_eq_ok.mpr ⟨_, s.duals, read_seq_eq_ok.mpr
        ⟨_, s.primal, read_seq_eq_ok.mpr ⟨_, s.objective, read_map_eq_ok.mpr
          ⟨s.status, ?_, rfl⟩, ?_, rfl⟩, ?_, rfl⟩, ?_, rfl⟩, ?_, rfl⟩, ?_, rfl⟩)
    all_goals refine (read_fieldOr_eq_ok (by simp) rfl).mpr ?_
    · exact s.status.readName_label
    · exact Json.readNumber_number_eq_ok.mpr ⟨hfinite.objective, rfl⟩
    · exact Json.readNumbers_eq_ok.mpr ⟨hfinite.primal, rfl⟩
    · exact Json.readNumbers_eq_ok.mpr ⟨hfinite.duals, rfl⟩
    · exact Certificate.readOption_eq_ok.mpr ⟨hfinite.certificate, rfl⟩
    · exact Json.readNat_ofNat_eq_ok.mpr ⟨hfinite.iterations, rfl⟩

/-- Nothing in a solution is checked after it is read, so its form is refused for one reason only. -/
theorem Solution.ofJson_toJson_eq_error {s : Solution K} {x : LoadError Empty} :
    Solution.ofJson s.toJson = .error x ↔ ¬s.IsFinite ∧ x = .malformed := by
  cases x with
  | rejected reason => exact reason.elim
  | malformed =>
    rw [and_iff_left rfl]
    cases hreloaded : (Solution.ofJson s.toJson : Except (LoadError Empty) (Solution K)) with
    | ok s' => exact iff_of_false nofun (not_not.mpr (ofJson_toJson_eq_ok.mp hreloaded).1)
    | error x =>
      obtain _ | ⟨⟨⟩⟩ := x
      refine iff_of_true rfl fun hfinite => ?_
      rw [ofJson_toJson_eq_ok.mpr ⟨hfinite, rfl⟩] at hreloaded
      cases hreloaded

/-- A solution comes back as it was when all its numbers are finite, and otherwise its form is
refused. -/
theorem solution_reloads_iff (s : Solution K) :
    let reloaded : Except (LoadError Empty) (Solution K) := Solution.ofJson s.toJson
    (reloaded = .ok s ↔ s.IsFinite) ∧ (reloaded = .error .malformed ↔ ¬s.IsFinite) :=
  ⟨Solution.ofJson_toJson_eq_ok.trans (and_iff_left rfl),
    Solution.ofJson_toJson_eq_error.trans (and_iff_left rfl)⟩

open Exact (number)

/-- The level that is pumped out, at a gain for each unit. -/
def bottomless : Model Exact where
  vars := #[.continuous "level" none (some (number 0))]
  constraints := #[⟨"bounded", ⟨#[(0, number 1)], number 0⟩, .atMost, number 4⟩]
  objective := ⟨#[(0, number 1)], number 0⟩
  quadratic := #[]
  expressions := .empty

/-- The solution of an unbounded model is not read back, and neither is one without a point whatever
its status. -/
theorem pointless_solutions_not_reloaded :
    let reload (s : Solution Exact) : Except (LoadError Empty) (Solution Exact) :=
      Solution.ofJson s.toJson
    let s := bottomless.solve ConicProgram.solveByPivoting .default
    s = .without .unbounded s.iterations ∧ reload s = .error .malformed ∧
      [Status.optimal, .infeasible, .unbounded, .iterationLimit, .numericalFailure].map
        (fun status => reload (.without status 0)) = List.replicate 5 (.error .malformed) := by
  decide +kernel

end BendersPlanning

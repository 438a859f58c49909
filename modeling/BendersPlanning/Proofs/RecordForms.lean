import BendersPlanning.Form.Model
import BendersPlanning.Proofs.WellFormedModels

/-!
# Reading back what was written

A record is written with each of its names once, so a reader finds each field where it was put or finds
it left out. Reading a record then comes down to reading its fields, one condition for each
(`Fields.read_seq_eq_ok`, `Fields.read_written`). Numbers come back as they were when they are finite,
and otherwise not at all.
-/

namespace BendersPlanning

open Scalar (isFinite)

variable {K ε α β : Type}

section Fields

namespace Fields

variable {f : Fields K ε (α → β)} {x : Fields K ε α} {fields : List (String × Json K)}
  {name : String} {read : Reader K ε α} {absent : Option α} {a : α} {b : β} {j : Json K}

theorem read_map_eq_ok {g : α → β} :
    (g <$> x).read fields = .ok b ↔ ∃ a, x.read fields = .ok a ∧ g a = b :=
  map_eq_ok

theorem read_seq_eq_ok : (f <*> x).read fields = .ok b ↔
    ∃ g a, f.read fields = .ok g ∧ x.read fields = .ok a ∧ g a = b := by
  change both (f.read fields) (x.read fields) = .ok b ↔ _
  cases f.read fields <;> cases x.read fields <;> simp [both]

theorem reader_obj_eq_ok : x.reader (.obj fields) = .ok a ↔ x.read fields = .ok a := by
  rw [reader]
  dsimp only
  cases x.read fields <;> simp

theorem occurrencesFrom_eq_nil (h : name ∉ fields.map (·.1)) (start : ℕ) :
    ((fields.zipIdx start).filterMap fun ((k, j), i) => if k = name then some (i, j) else none) =
      [] := by
  rw [List.filterMap_eq_nil_iff]
  rintro ⟨⟨k, j⟩, i⟩ hmem
  have hk : k ∈ fields.map (·.1) := List.mem_map_of_mem (List.fst_mem_of_mem_zipIdx hmem)
  exact if_neg fun hsame : k = name => h (hsame ▸ hk)

theorem occurrences_eq_nil (h : name ∉ fields.map (·.1)) : occurrences name fields = [] :=
  occurrencesFrom_eq_nil h 0

/-- A name that occurs once is found there. -/
theorem exists_occurrences_eq (hnames : (fields.map (·.1)).Nodup) (hmem : (name, j) ∈ fields) :
    ∃ i, occurrences name fields = [(i, j)] := by
  obtain ⟨before, after, rfl⟩ := List.append_of_mem hmem
  rw [List.map_append, List.map_cons, List.nodup_append, List.nodup_cons] at hnames
  obtain ⟨-, ⟨hafter, -⟩, hbefore⟩ := hnames
  refine ⟨before.length, ?_⟩
  rw [occurrences, List.zipIdx_append, List.zipIdx_cons, List.filterMap_append,
    occurrencesFrom_eq_nil fun h => hbefore _ h _ List.mem_cons_self rfl]
  simp [occurrencesFrom_eq_nil hafter]

theorem mem_of_lookup {γ : Type} {parts : List (String × γ)} {value : γ}
    (h : parts.lookup name = some value) : (name, value) ∈ parts := by
  obtain ⟨before, after, rfl, -⟩ := List.lookup_eq_some_iff.mp h
  simp

/-- A field that was put in place is read there. -/
theorem read_fieldOr_of_mem (hnames : (fields.map (·.1)).Nodup) (hmem : (name, j) ∈ fields) :
    (fieldOr name read absent).read fields = .ok a ↔ read j = .ok a := by
  obtain ⟨i, hi⟩ := exists_occurrences_eq hnames hmem
  rw [fieldOr]
  simp only [hi]
  cases read j <;> simp

theorem read_fieldOr_eq_ok (hnames : (fields.map (·.1)).Nodup)
    (hvalue : fields.lookup name = some j) :
    (fieldOr name read absent).read fields = .ok a ↔ read j = .ok a :=
  read_fieldOr_of_mem hnames (mem_of_lookup hvalue)

theorem read_fieldOr_of_notMem (h : name ∉ fields.map (·.1)) :
    (fieldOr name read absent).read fields = .ok a ↔ absent = some a := by
  rw [fieldOr]
  simp only [occurrences_eq_nil h]
  cases absent <;> simp

/-- A field of a record that leaves some out is read where it is written, and has its usual value
where it is not. -/
theorem read_written {parts : List (String × Option (Json K))} {value : Option (Json K)}
    (hnames : (parts.map (·.1)).Nodup) (hvalue : parts.lookup name = some value) :
    (fieldOr name read absent).read
        (parts.filterMap fun (name, value) => value.map fun v => (name, v)) = .ok a ↔
      value.elim (absent = some a) fun j => read j = .ok a := by
  have hmem := mem_of_lookup hvalue
  have hkeys : (parts.filterMap fun (name, value) => value.map fun v => (name, v)).map (·.1) =
      (parts.filter (·.2.isSome)).map (·.1) := by
    clear hnames hvalue hmem
    induction parts with
    | nil => rfl
    | cons part parts ih => obtain ⟨name, _ | v⟩ := part <;> simp [ih]
  cases value with
  | some j =>
    refine read_fieldOr_of_mem ?_ (List.mem_filterMap.mpr ⟨_, hmem, rfl⟩)
    rw [hkeys]
    exact hnames.sublist (List.filter_sublist.map _)
  | none =>
    refine read_fieldOr_of_notMem fun hwritten => ?_
    rw [hkeys] at hwritten
    obtain ⟨part, hpart, hname⟩ := List.mem_map.mp hwritten
    obtain ⟨hpart, hsome⟩ := List.mem_filter.mp hpart
    obtain rfl := List.inj_on_of_nodup_map hnames hpart hmem hname
    cases hsome

end Fields

end Fields

section Values

/-- Reading a list of values that were written one by one. -/
theorem mapM_map_eq_ok {γ δ : Type} {write : α → γ} {read : γ → Except δ β} {xs : List α}
    {ys : List β} {P : α → Prop} {f : α → β}
    (h : ∀ x ∈ xs, ∀ y, read (write x) = .ok y ↔ P x ∧ f x = y) :
    (xs.map write).mapM read = .ok ys ↔ (∀ x ∈ xs, P x) ∧ xs.map f = ys := by
  induction xs generalizing ys with
  | nil => simp [pure, Except.pure]
  | cons x xs ih =>
    obtain ⟨hx, hxs⟩ := List.forall_mem_cons.mp h
    rw [List.map_cons, List.mapM_cons, List.forall_mem_cons, List.map_cons]
    constructor
    · intro hread
      obtain ⟨y, hy, hread⟩ := bind_eq_ok.mp hread
      obtain ⟨rest, hrest, hread⟩ := bind_eq_ok.mp hread
      obtain rfl := Except.ok.inj hread
      obtain ⟨hP, rfl⟩ := (hx y).mp hy
      obtain ⟨hall, rfl⟩ := (ih hxs).mp hrest
      exact ⟨⟨hP, hall⟩, rfl⟩
    · rintro ⟨⟨hP, hall⟩, rfl⟩
      exact bind_eq_ok.mpr ⟨_, (hx _).mpr ⟨hP, rfl⟩,
        bind_eq_ok.mpr ⟨_, (ih hxs).mpr ⟨hall, rfl⟩, rfl⟩⟩

/-- Values that are all read back, one by one. -/
theorem mapM_map {γ δ : Type} {write : α → γ} {read : γ → Except δ β} {xs : List α} {f : α → β}
    (h : ∀ x ∈ xs, read (write x) = .ok (f x)) : (xs.map write).mapM read = .ok (xs.map f) :=
  (mapM_map_eq_ok (P := fun _ => True) fun x hx y => by rw [h x hx]; simp).mpr ⟨by simp, rfl⟩

namespace Json

variable {n limit : ℕ}

theorem readNat_ofNat_eq_ok {k : ℕ} :
    (readNat limit (.ofNat n : Json K) : Except (LoadError ε) ℕ) = .ok k ↔ n < limit ∧ n = k := by
  by_cases hlimit : n < limit <;> simp [readNat, ofNat, hlimit]

theorem readArray_eq_ok {write : α → Json K} {read : Reader K ε β} {xs : Array α} {ys : Array β}
    {P : α → Prop} {f : α → β} (h : ∀ x ∈ xs, ∀ y, read (write x) = .ok y ↔ P x ∧ f x = y) :
    readArray read (.arr (xs.toList.map write)) = .ok ys ↔ (∀ x ∈ xs, P x) ∧ xs.map f = ys := by
  have hlist : ∀ zs, (xs.toList.map write).mapM read = .ok zs ↔
      (∀ x ∈ xs.toList, P x) ∧ xs.toList.map f = zs := fun zs =>
    mapM_map_eq_ok fun x hx => h x (Array.mem_toList_iff.mp hx)
  simp only [Array.mem_toList_iff] at hlist
  rw [readArray, map_eq_ok]
  constructor
  · rintro ⟨zs, hzs, rfl⟩
    obtain ⟨hall, rfl⟩ := (hlist zs).mp hzs
    exact ⟨hall, by rw [← Array.toList_map, Array.toArray_toList]⟩
  · rintro ⟨hall, rfl⟩
    exact ⟨_, (hlist _).mpr ⟨hall, rfl⟩, by rw [← Array.toList_map, Array.toArray_toList]⟩

theorem readArray_map {write : α → Json K} {read : Reader K ε β} {xs : Array α} {f : α → β}
    (h : ∀ x ∈ xs, read (write x) = .ok (f x)) :
    readArray read (.arr (xs.toList.map write)) = .ok (xs.map f) :=
  (readArray_eq_ok (P := fun _ => True) fun x hx y => by rw [h x hx]; simp).mpr ⟨by simp, rfl⟩

theorem readPair_eq_ok {first : Reader K ε α} {second : Reader K ε β} {x y : Json K} {p : α × β} :
    readPair first second (.arr [x, y]) = .ok p ↔ first x = .ok p.1 ∧ second y = .ok p.2 := by
  rw [readPair]
  constructor
  · intro h
    obtain ⟨a, ha, h⟩ := bind_eq_ok.mp h
    obtain ⟨b, hb, h⟩ := bind_eq_ok.mp h
    obtain rfl := Except.ok.inj h
    exact ⟨ha, hb⟩
  · rintro ⟨ha, hb⟩
    exact bind_eq_ok.mpr ⟨_, ha, bind_eq_ok.mpr ⟨_, hb, rfl⟩⟩

variable [Scalar K] {x y : K}

theorem readNumber_number_eq_ok :
    (readNumber (number x) : Except (LoadError ε) K) = .ok y ↔ isFinite x = true ∧ x = y := by
  rw [number]
  split_ifs with hfinite <;> simp [readNumber, hfinite]

/-- A number that is not finite comes back as an absent one. -/
theorem readOption_number (x : K) :
    (readOption readNumber (number x) : Except (LoadError ε) (Option K)) =
      .ok ((some x).filter isFinite) := by
  rw [number]
  split_ifs with hfinite
  · rw [Option.filter_some, if_pos hfinite]
    rfl
  · rw [Option.filter_some, if_neg hfinite]
    rfl

theorem readNumbers_eq_ok {xs ys : Array K} :
    (readArray readNumber (numbers xs) : Except (LoadError ε) (Array K)) = .ok ys ↔
      (∀ x ∈ xs, isFinite x = true) ∧ xs = ys := by
  rw [numbers, readArray_eq_ok (P := fun x => isFinite x = true) (f := id)
    fun _ _ _ => readNumber_number_eq_ok, Array.map_id]

theorem readTerms_eq_ok {ts us : Array (ℕ × K)} :
    (readTerms (terms ts) : Except (LoadError ε) (Array (ℕ × K))) = .ok us ↔
      (∀ t ∈ ts, t.1 < wordLimit ∧ isFinite t.2 = true) ∧ ts = us := by
  rw [readTerms, terms, readArray_eq_ok (P := fun t => t.1 < wordLimit ∧ isFinite t.2 = true)
    (f := id) ?_, Array.map_id]
  rintro t - u
  rw [readPair_eq_ok, readIndex, readNat_ofNat_eq_ok, readNumber_number_eq_ok, id, Prod.ext_iff]
  tauto

end Json

end Values

end BendersPlanning

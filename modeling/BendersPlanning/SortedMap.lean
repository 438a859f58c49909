/-!
# Maps with keys in ascending order

A `SortedMap` is the list of its entries, keys strictly ascending, so that two maps with the same
entries are equal and every traversal runs in key order. `find?_alter` says what changing one entry
does to every look-up.
-/

namespace BendersPlanning

/-- A finite map, kept as its entries in ascending key order. -/
structure SortedMap (κ ν : Type) [LT κ] where
  entries : List (κ × ν)
  sorted : entries.Pairwise (·.1 < ·.1)

namespace SortedMap

variable {κ ν μ : Type} [LT κ]

@[ext] theorem ext {m n : SortedMap κ ν} (h : m.entries = n.entries) : m = n := by
  cases m; cases n; cases h; rfl

instance [DecidableEq κ] [DecidableEq ν] : DecidableEq (SortedMap κ ν) := fun m n =>
  decidable_of_iff (m.entries = n.entries) ⟨ext, fun h => h ▸ rfl⟩

def empty : SortedMap κ ν := ⟨[], .nil⟩

instance : Inhabited (SortedMap κ ν) := ⟨empty⟩

def size (m : SortedMap κ ν) : Nat := m.entries.length

def keys (m : SortedMap κ ν) : List κ := m.entries.map (·.1)

def values (m : SortedMap κ ν) : List ν := m.entries.map (·.2)

def find? [DecidableEq κ] (m : SortedMap κ ν) (key : κ) : Option ν :=
  (m.entries.find? (·.1 = key)).map (·.2)

def mapValues (f : ν → μ) (m : SortedMap κ ν) : SortedMap κ μ where
  entries := m.entries.map fun e => (e.1, f e.2)
  sorted := List.pairwise_map.2 m.sorted

variable [DecidableLT κ]

/-- Replaces the value at `key` in an ascending list of entries, or puts a new entry in its place. -/
def alterEntries (key : κ) (f : Option ν → ν) : List (κ × ν) → List (κ × ν)
  | [] => [(key, f none)]
  | (k, v) :: rest =>
    if key < k then (key, f none) :: (k, v) :: rest
    else if k < key then (k, v) :: alterEntries key f rest
    else (k, f (some v)) :: rest

variable [LE κ] [Std.IsLinearOrder κ] [Std.LawfulOrderLT κ]

/-- Changing one entry brings in its key and keeps all others. -/
theorem mem_keys_alterEntries {key k : κ} {f : Option ν → ν} {es : List (κ × ν)} :
    k ∈ (alterEntries key f es).map (·.1) ↔ k = key ∨ k ∈ es.map (·.1) := by
  induction es with
  | nil => simp [alterEntries]
  | cons d rest ih =>
    obtain ⟨a, v⟩ := d
    simp only [alterEntries]
    split
    · simp
    · split
      · rw [List.map_cons, List.mem_cons, ih, List.map_cons, List.mem_cons, or_left_comm]
      · rename_i h1 h2
        have hka : a = key := Std.le_antisymm (Std.not_lt.1 h1) (Std.not_lt.1 h2)
        simp [hka]

theorem sorted_alterEntries (key : κ) (f : Option ν → ν) {es : List (κ × ν)}
    (h : es.Pairwise (·.1 < ·.1)) : (alterEntries key f es).Pairwise (·.1 < ·.1) := by
  induction es with
  | nil => simp [alterEntries]
  | cons d rest ih =>
    obtain ⟨k, v⟩ := d
    have ⟨hk, hrest⟩ := List.pairwise_cons.1 h
    simp only [alterEntries]
    split
    · rename_i hlt
      refine List.pairwise_cons.2 ⟨fun e he => ?_, h⟩
      rcases List.mem_cons.1 he with he | he
      · exact he ▸ hlt
      · exact Std.lt_trans hlt (hk e he)
    · split
      · rename_i hlt
        refine List.pairwise_cons.2 ⟨fun e he => ?_, ih hrest⟩
        rcases mem_keys_alterEntries.1 (List.mem_map_of_mem he) with he | he
        · exact he ▸ hlt
        · obtain ⟨e', he', hk'⟩ := List.mem_map.1 he
          exact hk' ▸ hk e' he'
      · exact List.pairwise_cons.2 ⟨hk, hrest⟩

/-- Replaces the value at `key` by `f` of it; `f none` becomes the value of a new key. -/
def alter (m : SortedMap κ ν) (key : κ) (f : Option ν → ν) : SortedMap κ ν :=
  ⟨alterEntries key f m.entries, sorted_alterEntries key f m.sorted⟩

theorem mem_keys_alter {m : SortedMap κ ν} {key k : κ} {f : Option ν → ν} :
    k ∈ (m.alter key f).keys ↔ k = key ∨ k ∈ m.keys :=
  mem_keys_alterEntries

def insert (m : SortedMap κ ν) (key : κ) (value : ν) : SortedMap κ ν := m.alter key fun _ => value

/-- The map of a list of entries; of two with one key the later counts. -/
def ofList (es : List (κ × ν)) : SortedMap κ ν := es.foldl (fun m e => m.insert e.1 e.2) empty

theorem find?_alterEntries [DecidableEq κ] (key k : κ) (f : Option ν → ν) {es : List (κ × ν)}
    (h : es.Pairwise (·.1 < ·.1)) :
    ((alterEntries key f es).find? (·.1 = k)).map (·.2) =
      if k = key then some (f ((es.find? (·.1 = key)).map (·.2)))
      else (es.find? (·.1 = k)).map (·.2) := by
  induction es with
  | nil => by_cases hk : key = k <;> simp [alterEntries, hk, eq_comm]
  | cons d rest ih =>
    obtain ⟨a, v⟩ := d
    have ⟨ha, hrest⟩ := List.pairwise_cons.1 h
    simp only [alterEntries]
    split
    · rename_i hlt
      have hne : ¬a = key := fun e => Std.lt_irrefl (e ▸ hlt)
      have hnone : rest.find? (·.1 = key) = none := by
        refine List.find?_eq_none.2 fun e he hek => ?_
        have : key < e.1 := Std.lt_trans hlt (ha e he)
        simp only [decide_eq_true_eq] at hek
        exact Std.lt_irrefl (hek ▸ this)
      by_cases hk : k = key
      · subst hk; simp [hne, hnone]
      · simp [List.find?_cons, hk, Ne.symm hk]
    · split
      · rename_i hlt
        have hne : ¬a = key := fun e => Std.lt_irrefl (e ▸ hlt)
        have := ih hrest
        by_cases hk : k = key
        · subst hk; simpa [List.find?_cons, hne] using this
        · by_cases hak : a = k <;> simp_all
      · rename_i h1 h2
        have hka : a = key := Std.le_antisymm (Std.not_lt.1 h1) (Std.not_lt.1 h2)
        subst hka
        by_cases hk : k = a
        · subst hk; simp
        · simp [hk, Ne.symm hk]

/-- Changing one entry changes the look-up at its key and no other. -/
theorem find?_alter [DecidableEq κ] (m : SortedMap κ ν) (key k : κ) (f : Option ν → ν) :
    (m.alter key f).find? k = if k = key then some (f (m.find? key)) else m.find? k :=
  find?_alterEntries key k f m.sorted

end SortedMap

end BendersPlanning

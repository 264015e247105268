/-!
# Keyed tables

Finite maps as lists of keyed records in the order of their first insertion. Every operation is told
apart by what a look-up answers afterwards: `find?_insert` and `find?_filterKeys`; `find?_erase` is
an instance of the latter. `keys_insert` tells the order.
-/

namespace Buildpath

/-- Records under distinct keys, in the order in which the keys were first inserted. -/
structure Table (κ α : Type) where
  records : List (κ × α)

namespace Table

variable {κ α : Type} [DecidableEq κ]

/-- The table without records. -/
def empty : Table κ α := ⟨[]⟩

instance : Inhabited (Table κ α) := ⟨empty⟩

/-- The value under a key. -/
def find? (t : Table κ α) (key : κ) : Option α :=
  (t.records.find? fun record => record.1 = key).map Prod.snd

/-- Whether there is a value under a key. -/
def contains (t : Table κ α) (key : κ) : Bool := (t.find? key).isSome

/-- The records with `value` under `key`, in place of the record that was there. -/
def insertRecord (key : κ) (value : α) : List (κ × α) → List (κ × α)
  | [] => [(key, value)]
  | record :: records =>
    if record.1 = key then (key, value) :: records else record :: insertRecord key value records

/-- Puts a value under a key, in place of the one that was there. -/
def insert (t : Table κ α) (key : κ) (value : α) : Table κ α :=
  ⟨insertRecord key value t.records⟩

/-- Puts a value under a key that has none. -/
def insertIfNew (t : Table κ α) (key : κ) (value : α) : Table κ α :=
  if t.contains key then t else t.insert key value

/-- Keeps the records whose key passes a test. -/
def filterKeys (t : Table κ α) (keep : κ → Bool) : Table κ α :=
  ⟨t.records.filter fun record => keep record.1⟩

/-- Drops the record under a key. -/
def erase (t : Table κ α) (key : κ) : Table κ α := t.filterKeys (· ≠ key)

/-- The keys in order of first insertion. -/
def keys (t : Table κ α) : List κ := t.records.map Prod.fst

/-- A value that is found stands in a record under its key. -/
theorem mem_of_find? {t : Table κ α} {key : κ} {value : α} (h : t.find? key = some value) :
    (key, value) ∈ t.records := by
  obtain ⟨record, hrecord, rfl⟩ := Option.map_eq_some_iff.mp h
  have hkey : record.1 = key := by simpa using List.find?_some hrecord
  exact hkey ▸ List.mem_of_find?_eq_some hrecord

/-- What is put is the only new record. -/
theorem mem_records_insert {t : Table κ α} {key : κ} {value : α} {record : κ × α}
    (h : record ∈ (t.insert key value).records) : record = (key, value) ∨ record ∈ t.records := by
  suffices hrecords : ∀ records : List (κ × α), record ∈ insertRecord key value records →
      record = (key, value) ∨ record ∈ records from hrecords t.records h
  intro records
  induction records with
  | nil => exact fun h ↦ .inl (List.mem_singleton.mp h)
  | cons first records ih =>
    intro h
    rw [insertRecord] at h
    split at h
    · rcases List.mem_cons.mp h with h | h
      · exact .inl h
      · exact .inr (List.mem_cons_of_mem first h)
    · rcases List.mem_cons.mp h with h | h
      · exact .inr (h ▸ List.mem_cons_self)
      · exact (ih h).imp_right (List.mem_cons_of_mem first)

/-- Looking up what `insertRecord` leaves. -/
theorem find?_insertRecord (key other : κ) (value : α) (records : List (κ × α)) :
    ((insertRecord key value records).find? fun r => r.1 = other).map Prod.snd =
      if key = other then some value
      else (records.find? fun r => r.1 = other).map Prod.snd := by
  induction records with
  | nil => by_cases h : key = other <;> simp [insertRecord, h]
  | cons record records ih =>
    simp only [insertRecord]
    by_cases hk : record.1 = key
    · by_cases h : key = other <;> simp [hk, h]
    · simp only [hk, if_false]
      by_cases hr : record.1 = other
      · have : key ≠ other := fun h => hk (hr.trans h.symm)
        simp [hr, this]
      · simpa [hr] using ih

/-- A table answers with the value inserted last. -/
theorem find?_insert (t : Table κ α) (key other : κ) (value : α) :
    (t.insert key value).find? other = if key = other then some value else t.find? other :=
  find?_insertRecord key other value t.records

/-- A value is only put under a key that has none. -/
theorem find?_insertIfNew (t : Table κ α) (key other : κ) (value : α) :
    (t.insertIfNew key value).find? other =
      if key = other then some ((t.find? other).getD value) else t.find? other := by
  unfold insertIfNew contains
  cases h : t.find? key with
  | none =>
    rw [Option.isSome_none, if_neg Bool.false_ne_true, find?_insert]
    split
    · next heq => rw [← heq, h, Option.getD_none]
    · rfl
  | some old =>
    rw [Option.isSome_some, if_pos rfl]
    split
    · next heq => rw [← heq, h, Option.getD_some]
    · rfl

/-- Filtering hides the keys that fail the test and no others. -/
theorem find?_filterKeys (t : Table κ α) (keep : κ → Bool) (key : κ) :
    (t.filterKeys keep).find? key = if keep key then t.find? key else none := by
  simp only [find?, filterKeys, List.find?_filter]
  by_cases h : keep key
  · have : (fun r : κ × α => keep r.1 && decide (r.1 = key)) = fun r => decide (r.1 = key) := by
      funext r
      by_cases hr : r.1 = key <;> simp [hr, h]
    simp [this, h]
  · have : (fun r : κ × α => keep r.1 && decide (r.1 = key)) = fun _ => false := by
      funext r
      by_cases hr : r.1 = key <;> simp [hr, h]
    simp [this, h]

/-- A key that was dropped has no value, and the others keep theirs. -/
theorem find?_erase (t : Table κ α) (key other : κ) :
    (t.erase key).find? other = if key = other then none else t.find? other := by
  simp only [erase, find?_filterKeys]
  by_cases h : key = other
  · simp [h]
  · have h' : other ≠ key := fun e => h e.symm
    simp [h, h']

theorem contains_insert (t : Table κ α) (key other : κ) (value : α) :
    (t.insert key value).contains other = (decide (key = other) || t.contains other) := by
  rw [contains, contains, find?_insert]
  by_cases h : key = other <;> simp [h]

/-- The keys are those under which there is a value. -/
theorem mem_keys (t : Table κ α) (key : κ) : key ∈ t.keys ↔ t.contains key := by
  simp [keys, contains, find?]

/-- A value under a new key comes last. -/
theorem keys_insert (t : Table κ α) (key : κ) (value : α) :
    (t.insert key value).keys = if t.contains key then t.keys else t.keys ++ [key] := by
  suffices h : ∀ records : List (κ × α), (insertRecord key value records).map Prod.fst =
      if (records.find? fun r => r.1 = key).isSome then records.map Prod.fst
      else records.map Prod.fst ++ [key] by
    simpa only [keys, insert, contains, find?, Option.isSome_map] using h t.records
  intro records
  induction records with
  | nil => rfl
  | cons record records ih =>
    rw [insertRecord, List.find?_cons]
    by_cases hk : record.1 = key
    · simp [hk]
    · simp only [hk, if_false, decide_false, List.map_cons, ih]
      split <;> rfl

end Table

end Buildpath

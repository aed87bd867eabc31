import Mathlib.Data.Finmap

/-! Hash tables with the insertion rule of `emplace`: a key that is already
present keeps its value. Lookup, overwriting insertion and erasure are those of
`Finmap`. -/
namespace Table

variable {Key Value : Type} [DecidableEq Key] {table : Finmap fun _ : Key => Value}
  {key other : Key} {found value : Value}

/-- Insert a value unless the key is already present. -/
def emplace (table : Finmap fun _ : Key => Value) (key : Key) (value : Value) :
    Finmap fun _ : Key => Value :=
  if key ∈ table then table else table.insert key value

@[simp] theorem mem_emplace (table : Finmap fun _ : Key => Value) (key other : Key)
    (value : Value) : other ∈ emplace table key value ↔ other = key ∨ other ∈ table := by
  unfold emplace
  split
  case isTrue h =>
      constructor
      · exact Or.inr
      · rintro (rfl | hOther)
        · exact h
        · exact hOther
  case isFalse h => exact Finmap.mem_insert

theorem lookup_emplace_self (value : Value) (h : table.lookup key = none) :
    (emplace table key value).lookup key = some value := by
  rw [emplace, if_neg (Finmap.lookup_eq_none.mp h), Finmap.lookup_insert]

theorem lookup_emplace_of_ne (table : Finmap fun _ : Key => Value) (value : Value)
    (h : other ≠ key) : (emplace table key value).lookup other = table.lookup other := by
  unfold emplace
  split
  · rfl
  · exact Finmap.lookup_insert_of_ne table h

/-- A new key hides no value. -/
theorem lookup_insert_of_lookup (hUnused : key ∉ table) (value : Value)
    (h : table.lookup other = some found) : (table.insert key value).lookup other = some found := by
  have hNe : other ≠ key := by
    rintro rfl
    exact hUnused (Finmap.mem_iff.mpr ⟨found, h⟩)
  exact (Finmap.lookup_insert_of_ne _ hNe).trans h

/-- An emplacement hides no value. -/
theorem lookup_emplace_of_lookup (key : Key) (value : Value) (h : table.lookup other = some found) :
    (emplace table key value).lookup other = some found := by
  unfold emplace
  split
  · exact h
  case isFalse hUnused => exact lookup_insert_of_lookup hUnused value h

/-- What is found after an insertion is the new value or was there before. -/
theorem of_lookup_insert (h : (table.insert key value).lookup other = some found) :
    other = key ∧ value = found ∨ other ≠ key ∧ table.lookup other = some found := by
  by_cases hKey : other = key
  · rw [hKey, Finmap.lookup_insert] at h
    exact Or.inl ⟨hKey, Option.some.inj h⟩
  · rw [Finmap.lookup_insert_of_ne _ hKey] at h
    exact Or.inr ⟨hKey, h⟩

/-- The same for an emplacement, whose value may not have been taken. -/
theorem of_lookup_emplace (h : (emplace table key value).lookup other = some found) :
    other = key ∧ value = found ∨ table.lookup other = some found := by
  unfold emplace at h
  split at h
  · exact Or.inr h
  · exact (of_lookup_insert h).imp_right And.right

/-- What is found after an erasure was there before under another key. -/
theorem of_lookup_erase (h : (table.erase key).lookup other = some found) :
    other ≠ key ∧ table.lookup other = some found := by
  by_cases hKey : other = key
  · rw [hKey, Finmap.lookup_erase] at h
    cases h
  · rw [Finmap.lookup_erase_ne hKey] at h
    exact ⟨hKey, h⟩

/-- The same for a table with a value under every key. -/
theorem of_update {table : Key → Value} (h : Function.update table key value other = found) :
    other = key ∧ value = found ∨ other ≠ key ∧ table other = found := by
  by_cases hKey : other = key
  · rw [hKey, Function.update_self] at h
    exact Or.inl ⟨hKey, h⟩
  · rw [Function.update_of_ne hKey] at h
    exact Or.inr ⟨hKey, h⟩

def filterValues (keep : Value → Bool) (table : Finmap fun _ : Key => Value) :
    Finmap fun _ : Key => Value where
  entries := table.entries.filter fun row => keep row.2
  nodupKeys := by
    rw [← Multiset.nodup_keys]
    exact Multiset.nodup_of_le (Multiset.map_le_map (Multiset.filter_le _ _))
      (Multiset.nodup_keys.mpr table.nodupKeys)

theorem lookup_filterValues {keep : Value → Bool} :
    (filterValues keep table).lookup key = some value ↔
      table.lookup key = some value ∧ keep value = true := by
  rw [← Option.mem_def, Finmap.mem_lookup_iff, ← Option.mem_def, Finmap.mem_lookup_iff]
  exact Multiset.mem_filter

def filterKeys (keep : Key → Bool) (table : Finmap fun _ : Key => Value) :
    Finmap fun _ : Key => Value where
  entries := table.entries.filter fun row => keep row.1
  nodupKeys := by
    rw [← Multiset.nodup_keys]
    exact Multiset.nodup_of_le (Multiset.map_le_map (Multiset.filter_le _ _))
      (Multiset.nodup_keys.mpr table.nodupKeys)

theorem lookup_filterKeys {keep : Key → Bool} :
    (filterKeys keep table).lookup key = some value ↔
      table.lookup key = some value ∧ keep key = true := by
  rw [← Option.mem_def, Finmap.mem_lookup_iff, ← Option.mem_def, Finmap.mem_lookup_iff]
  exact Multiset.mem_filter

section All

variable (table : Finmap fun _ : Key => Value) (keys : Multiset Key) (value : Value)

instance rightCommutative_erase :
    RightCommutative fun (table : Finmap fun _ : Key => Value) key => table.erase key where
  right_comm _ _ _ := Finmap.erase_erase

/-- Erase the rows of some keys, in any order. -/
def eraseAll : Finmap fun _ : Key => Value := keys.foldl (fun table key => table.erase key) table

/-- Erasing a number of keys leaves the rows of all other keys. -/
theorem lookup_eraseAll (key : Key) :
    (eraseAll table keys).lookup key = if key ∈ keys then none else table.lookup key := by
  induction keys using Quotient.inductionOn generalizing table with
  | h keys =>
      show (keys.foldl (fun table key => table.erase key) table).lookup key =
        if key ∈ keys then none else table.lookup key
      induction keys generalizing table with
      | nil => simp
      | cons first keys ih =>
          rw [List.foldl_cons, ih]
          by_cases hFirst : key = first
          · subst hFirst
            simp
          · simp [hFirst, Finmap.lookup_erase_ne hFirst]

theorem lookup_emplace (key other : Key) :
    (emplace table key value).lookup other =
      (table.lookup other).or (if other = key then some value else none) := by
  by_cases hKey : other = key
  · subst hKey
    cases hLookup : table.lookup other with
    | none => simp [lookup_emplace_self value hLookup]
    | some found => simp [lookup_emplace_of_lookup other value hLookup]
  · simp [hKey, lookup_emplace_of_ne table value hKey]

instance : RightCommutative fun (table : Finmap fun _ : Key => Value) key =>
    emplace table key value where
  right_comm table first second := by
    apply Finmap.ext_lookup
    intro key
    simp only [lookup_emplace, Option.or_assoc]
    congr 1
    split <;> split <;> rfl

/-- Insert one value under some keys, in any order, unless a key is already
present. -/
def emplaceAll : Finmap fun _ : Key => Value :=
  keys.foldl (fun table key => emplace table key value) table

/-- Emplacing a number of keys gives a row to those that had none. -/
theorem lookup_emplaceAll (key : Key) :
    (emplaceAll table keys value).lookup key =
      (table.lookup key).or (if key ∈ keys then some value else none) := by
  induction keys using Quotient.inductionOn generalizing table with
  | h keys =>
      show (keys.foldl (fun table key => emplace table key value) table).lookup key =
        (table.lookup key).or (if key ∈ keys then some value else none)
      induction keys generalizing table with
      | nil => simp
      | cons first keys ih =>
          rw [List.foldl_cons, ih, lookup_emplace, Option.or_assoc]
          congr 1
          by_cases hFirst : key = first
          · simp [hFirst]
          · simp [hFirst]

end All

def mapValues {Other : Type} (f : Key → Value → Other) (table : Finmap fun _ : Key => Value) :
    Finmap fun _ : Key => Other where
  entries := table.entries.map fun row => ⟨row.1, f row.1 row.2⟩
  nodupKeys := by
    rw [← Multiset.nodup_keys, Multiset.keys, Multiset.map_map]
    exact Multiset.nodup_keys.mpr table.nodupKeys

theorem lookup_mapValues {Other : Type} (f : Key → Value → Other)
    (table : Finmap fun _ : Key => Value) (key : Key) :
    (mapValues f table).lookup key = (table.lookup key).map (f key) := by
  apply Option.ext
  intro other
  simp only [Option.map_eq_some_iff, Finmap.lookup_eq_some_iff, mapValues, Multiset.mem_map]
  constructor
  · rintro ⟨⟨same, value⟩, hRow, hSame⟩
    obtain ⟨rfl, hValue⟩ := Sigma.mk.inj hSame
    exact ⟨value, hRow, eq_of_heq hValue⟩
  · rintro ⟨value, hRow, rfl⟩
    exact ⟨⟨key, value⟩, hRow, rfl⟩

omit [DecidableEq Key] in
theorem all_foldl {test : Key → Value → Bool} {rows : List (Sigma fun _ : Key => Value)}
    {start : Bool} : rows.foldl (fun found row => found && test row.1 row.2) start = true ↔
      start = true ∧ ∀ row ∈ rows, test row.1 row.2 = true := by
  induction rows generalizing start with
  | nil => simp
  | cons row rows ih => simp [ih, and_assoc]

/-- A test of all rows looks at what can be found. -/
theorem all_eq_true_iff {test : Key → Value → Bool} :
    table.all test = true ↔
      ∀ key value, table.lookup key = some value → test key value = true := by
  simp only [Finmap.lookup_eq_some_iff]
  obtain ⟨entries, hNodup⟩ := table
  induction entries using Quotient.inductionOn with
  | h rows =>
      show rows.foldl (fun found row => found && test row.1 row.2) true = true ↔ _
      rw [all_foldl]
      simp [Sigma.forall]

section Related

variable {Other : Type} {R : Value → Other → Prop} {first : Finmap fun _ : Key => Value}
  {second : Finmap fun _ : Key => Other}

/-- Two tables with the same keys and related values. -/
def Related (R : Value → Other → Prop) (first : Finmap fun _ : Key => Value)
    (second : Finmap fun _ : Key => Other) : Prop :=
  ∀ key, Option.Rel R (first.lookup key) (second.lookup key)

theorem related_empty (R : Value → Other → Prop) :
    Related R (∅ : Finmap fun _ : Key => Value) (∅ : Finmap fun _ : Key => Other) := by
  intro key
  simp only [Finmap.lookup_empty]
  exact .none

theorem Related.exists_of_lookup (h : Related R first second) {key : Key} {value : Value}
    (hLookup : first.lookup key = some value) :
    ∃ other, second.lookup key = some other ∧ R value other := by
  have hKey := h key
  rw [hLookup] at hKey
  cases hOther : second.lookup key with
  | none =>
      rw [hOther] at hKey
      cases hKey
  | some other =>
      rw [hOther] at hKey
      cases hKey with
      | some hRelated => exact ⟨other, rfl, hRelated⟩

theorem Related.exists_of_lookup_right (h : Related R first second) {key : Key} {other : Other}
    (hLookup : second.lookup key = some other) :
    ∃ value, first.lookup key = some value ∧ R value other := by
  have hKey := h key
  rw [hLookup] at hKey
  cases hValue : first.lookup key with
  | none =>
      rw [hValue] at hKey
      cases hKey
  | some value =>
      rw [hValue] at hKey
      cases hKey with
      | some hRelated => exact ⟨value, rfl, hRelated⟩

theorem Related.mem_iff (h : Related R first second) (key : Key) :
    key ∈ first ↔ key ∈ second := by
  rw [Finmap.mem_iff, Finmap.mem_iff]
  constructor
  · rintro ⟨value, hLookup⟩
    obtain ⟨other, hOther, _⟩ := h.exists_of_lookup hLookup
    exact ⟨other, hOther⟩
  · rintro ⟨other, hLookup⟩
    obtain ⟨value, hValue, _⟩ := h.exists_of_lookup_right hLookup
    exact ⟨value, hValue⟩

theorem Related.emplace (h : Related R first second) (key : Key) {value : Value} {other : Other}
    (hValue : R value other) :
    Related R (emplace first key value) (emplace second key other) := by
  intro found
  by_cases hIn : key ∈ first
  · rw [Table.emplace, if_pos hIn, Table.emplace, if_pos ((h.mem_iff key).mp hIn)]
    exact h found
  · rw [Table.emplace, if_neg hIn, Table.emplace, if_neg (mt (h.mem_iff key).mpr hIn)]
    by_cases hKey : found = key
    · rw [hKey, Finmap.lookup_insert, Finmap.lookup_insert]
      exact .some hValue
    · rw [Finmap.lookup_insert_of_ne _ hKey, Finmap.lookup_insert_of_ne _ hKey]
      exact h found

theorem Related.erase (h : Related R first second) (key : Key) :
    Related R (first.erase key) (second.erase key) := by
  intro found
  by_cases hKey : found = key
  · rw [hKey, Finmap.lookup_erase, Finmap.lookup_erase]
    exact .none
  · rw [Finmap.lookup_erase_ne hKey, Finmap.lookup_erase_ne hKey]
    exact h found

end Related

end Table

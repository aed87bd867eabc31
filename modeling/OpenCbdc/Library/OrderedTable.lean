import Mathlib.Data.Finset.Max
import OpenCbdc.Library.Table

/-! Tables whose rows are visited in the order of their keys, forwards from the first key,
from the last key, or from the first key that is not below a given one. An iterator is the
key at which it stands. -/
namespace Table

variable {Key Value : Type} [LinearOrder Key]

def firstKey (table : Finmap fun _ : Key => Value) : Option Key := table.keys.min

def lastKey (table : Finmap fun _ : Key => Value) : Option Key := table.keys.max

/-- The first key that is not below the given one. -/
def seek (table : Finmap fun _ : Key => Value) (key : Key) : Option Key :=
  (table.keys.filter (key ≤ ·)).min

/-- The key after the one at which the iterator stands. -/
def nextKey (table : Finmap fun _ : Key => Value) (key : Key) : Option Key :=
  (table.keys.filter (key < ·)).min

section Lemmas

variable {table : Finmap fun _ : Key => Value} {key other : Key}

theorem min_eq_some {keys : Finset Key} (hMem : key ∈ keys) (hLeast : ∀ other ∈ keys, key ≤ other) :
    keys.min = some key :=
  le_antisymm (Finset.min_le hMem)
    (Finset.le_min fun other hOther => WithTop.coe_le_coe.mpr (hLeast other hOther))

theorem firstKey_eq_some (hMem : key ∈ table) (hLeast : ∀ other ∈ table, key ≤ other) :
    firstKey table = some key :=
  min_eq_some (Finmap.mem_keys.mpr hMem) fun other hOther =>
    hLeast other (Finmap.mem_keys.mp hOther)

theorem lastKey_eq_some (hMem : key ∈ table) (hGreatest : ∀ other ∈ table, other ≤ key) :
    lastKey table = some key := by
  have hMax : table.keys.max = (key : WithBot Key) := le_antisymm
    (Finset.max_le fun other hOther =>
      WithBot.coe_le_coe.mpr (hGreatest other (Finmap.mem_keys.mp hOther)))
    (Finset.le_max (Finmap.mem_keys.mpr hMem))
  exact hMax

omit [LinearOrder Key] in
theorem keys_eq_empty (h : ∀ key, key ∉ table) : table.keys = ∅ :=
  Finset.eq_empty_of_forall_notMem fun key hKey => h key (Finmap.mem_keys.mp hKey)

theorem firstKey_eq_none (h : ∀ key, key ∉ table) : firstKey table = none := by
  rw [firstKey, keys_eq_empty h]
  rfl

theorem lastKey_eq_none (h : ∀ key, key ∉ table) : lastKey table = none := by
  rw [lastKey, keys_eq_empty h]
  rfl

theorem seek_of_mem (h : key ∈ table) : seek table key = some key :=
  min_eq_some (Finset.mem_filter.mpr ⟨Finmap.mem_keys.mpr h, le_rfl⟩)
    fun _ hOther => (Finset.mem_filter.mp hOther).2

/-- The iterator moves to a key when there is none between. -/
theorem nextKey_eq_some (hMem : other ∈ table) (hLess : key < other)
    (hBetween : ∀ between ∈ table, key < between → other ≤ between) :
    nextKey table key = some other := by
  apply min_eq_some
  · exact Finset.mem_filter.mpr ⟨Finmap.mem_keys.mpr hMem, hLess⟩
  · intro between hMember
    obtain ⟨hKeys, hGreater⟩ := Finset.mem_filter.mp hMember
    exact hBetween between (Finmap.mem_keys.mp hKeys) hGreater

end Lemmas

end Table

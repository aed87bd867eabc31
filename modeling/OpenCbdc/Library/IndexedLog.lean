import Mathlib.Data.List.Basic
import Mathlib.Tactic.Common

/-! Logs with consecutive indices. An entry that is written over an older one cuts off what
follows it, and a prefix can be deleted. The indices are below a limit, so that the index
after the last entry exists: an operation that would need a larger one is not possible. -/

/-- The entries from the index `start` on. -/
structure IndexedLog (Entry : Type) (limit : Nat) where
  start : Nat
  entries : List Entry
  fits : start + entries.length < limit

namespace IndexedLog

variable {Entry : Type} {limit : Nat}

def next (log : IndexedLog Entry limit) : Nat := log.start + log.entries.length

def entryAt (log : IndexedLog Entry limit) (index : Nat) : Option Entry :=
  if log.start ≤ index then log.entries[index - log.start]? else none

def make (start : Nat) (entries : List Entry) : Option (IndexedLog Entry limit) :=
  if h : start + entries.length < limit then some ⟨start, entries, h⟩ else none

def append (log : IndexedLog Entry limit) (entries : List Entry) :
    Option (IndexedLog Entry limit) :=
  make log.start (log.entries ++ entries)

def writeAt (log : IndexedLog Entry limit) (index : Nat) (entry : Entry) :
    Option (IndexedLog Entry limit) :=
  if log.start ≤ index ∧ index ≤ log.next then
    make log.start (log.entries.take (index - log.start) ++ [entry])
  else none

/-- Delete the entries up to an index, which may be behind the last one. -/
def compact (log : IndexedLog Entry limit) (last : Nat) : Option (IndexedLog Entry limit) :=
  if log.start ≤ last + 1 then make (last + 1) (log.entries.drop (last + 1 - log.start))
  else none

def slice (log : IndexedLog Entry limit) (index count : Nat) : Option (List Entry) :=
  if log.start ≤ index ∧ index + count ≤ log.next then
    some ((log.entries.drop (index - log.start)).take count)
  else none

section Lemmas

variable {log after : IndexedLog Entry limit} {entries : List Entry} {index : Nat}

theorem next_lt (log : IndexedLog Entry limit) : log.next < limit := log.fits

theorem start_lt_next (h : log.entries ≠ []) : log.start < log.next :=
  Nat.lt_add_of_pos_right (List.length_pos_iff.mpr h)

theorem make_eq_some {start : Nat} :
    make start entries = some after ↔ after.start = start ∧ after.entries = entries := by
  unfold make
  constructor
  · intro h
    split at h
    · cases h
      exact ⟨rfl, rfl⟩
    · cases h
  · rintro ⟨rfl, rfl⟩
    exact dif_pos after.fits

theorem append_eq_some :
    log.append entries = some after ↔
      after.start = log.start ∧ after.entries = log.entries ++ entries :=
  make_eq_some

theorem writeAt_eq_some {entry : Entry} :
    log.writeAt index entry = some after ↔ (log.start ≤ index ∧ index ≤ log.next) ∧
      after.start = log.start ∧
      after.entries = log.entries.take (index - log.start) ++ [entry] := by
  rw [writeAt, Option.ite_none_right_eq_some, make_eq_some]

theorem compact_eq_some {last : Nat} :
    log.compact last = some after ↔ log.start ≤ last + 1 ∧ after.start = last + 1 ∧
      after.entries = log.entries.drop (last + 1 - log.start) := by
  rw [compact, Option.ite_none_right_eq_some, make_eq_some]

theorem slice_eq_some {count : Nat} :
    log.slice index count = some entries ↔ (log.start ≤ index ∧ index + count ≤ log.next) ∧
      (log.entries.drop (index - log.start)).take count = entries := by
  rw [slice, Option.ite_none_right_eq_some, Option.some.injEq]

theorem entryAt_eq_none : log.entryAt index = none ↔ ¬(log.start ≤ index ∧ index < log.next) := by
  unfold entryAt next
  split
  · rw [List.getElem?_eq_none_iff]
    omega
  · simp
    omega

theorem entryAt_of_lt_start (h : index < log.start) : log.entryAt index = none :=
  entryAt_eq_none.mpr fun hRange => Nat.not_lt.mpr hRange.1 h

theorem entryAt_of_next_le (h : log.next ≤ index) : log.entryAt index = none :=
  entryAt_eq_none.mpr fun hRange => Nat.not_lt.mpr h hRange.2

theorem isSome_entryAt : (log.entryAt index).isSome ↔ log.start ≤ index ∧ index < log.next := by
  rw [← Option.ne_none_iff_isSome, Ne, entryAt_eq_none, not_not]

theorem entryAt_append (h : log.append entries = some after) (index : Nat) :
    after.entryAt index =
      if index < log.next then log.entryAt index else entries[index - log.next]? := by
  obtain ⟨hStart, hEntries⟩ := append_eq_some.mp h
  unfold entryAt next
  rw [hStart, hEntries, List.getElem?_append]
  grind

theorem entryAt_writeAt {position : Nat} {entry : Entry}
    (h : log.writeAt position entry = some after) (index : Nat) :
    after.entryAt index =
      if index < position then log.entryAt index
      else if index = position then some entry else none := by
  obtain ⟨⟨hFirst, hLast⟩, hStart, hEntries⟩ := writeAt_eq_some.mp h
  unfold next at hLast
  unfold entryAt
  rw [hStart, hEntries, List.getElem?_append, List.length_take, List.getElem?_take]
  grind

theorem entryAt_compact {last : Nat} (h : log.compact last = some after) (index : Nat) :
    after.entryAt index = if index ≤ last then none else log.entryAt index := by
  obtain ⟨hFirst, hStart, hEntries⟩ := compact_eq_some.mp h
  unfold entryAt
  rw [hStart, hEntries, List.getElem?_drop]
  grind

theorem next_append (h : log.append entries = some after) :
    after.next = log.next + entries.length := by
  obtain ⟨hStart, hEntries⟩ := append_eq_some.mp h
  rw [next, hStart, hEntries, List.length_append, next, Nat.add_assoc]

/-- Entries are added one by one. -/
theorem append_cons {entry : Entry} (h : log.append (entry :: entries) = some after) :
    ∃ middle, log.append [entry] = some middle ∧ middle.append entries = some after := by
  obtain ⟨hStart, hEntries⟩ := append_eq_some.mp h
  have hFits : log.start + (log.entries ++ [entry]).length < limit := by
    have hAfter := after.fits
    rw [hStart, hEntries] at hAfter
    simp only [List.length_append, List.length_cons, List.length_nil] at hAfter ⊢
    omega
  refine ⟨⟨log.start, log.entries ++ [entry], hFits⟩, append_eq_some.mpr ⟨rfl, rfl⟩,
    append_eq_some.mpr ⟨hStart, ?_⟩⟩
  rw [hEntries, List.append_assoc, List.singleton_append]

theorem next_writeAt {entry : Entry} (h : log.writeAt index entry = some after) :
    after.next = index + 1 := by
  obtain ⟨⟨hFirst, hLast⟩, hStart, hEntries⟩ := writeAt_eq_some.mp h
  unfold next at hLast
  rw [next, hStart, hEntries, List.length_append, List.length_take, List.length_singleton]
  omega

theorem next_compact {last : Nat} (h : log.compact last = some after) :
    after.next = max log.next (last + 1) := by
  obtain ⟨hFirst, hStart, hEntries⟩ := compact_eq_some.mp h
  rw [next, hStart, hEntries, List.length_drop, next]
  omega

/-- The entries of a slice are found one after the other. -/
theorem slice_succ {count : Nat} (h : log.slice index (count + 1) = some entries) :
    ∃ entry rest, log.entryAt index = some entry ∧ log.slice (index + 1) count = some rest ∧
      entries = entry :: rest := by
  obtain ⟨⟨hFirst, hLast⟩, hEntries⟩ := slice_eq_some.mp h
  unfold next at hLast
  have hIndex : index - log.start < log.entries.length := by omega
  refine ⟨log.entries[index - log.start], (log.entries.drop (index + 1 - log.start)).take count,
    ?_, slice_eq_some.mpr ⟨⟨by omega, by unfold next; omega⟩, rfl⟩, ?_⟩
  · rw [entryAt, if_pos hFirst, List.getElem?_eq_getElem hIndex]
  · rw [← hEntries, List.drop_eq_getElem_cons hIndex, List.take_succ_cons,
      Nat.sub_add_comm hFirst]

theorem length_slice {count : Nat} (h : log.slice index count = some entries) :
    entries.length = count := by
  obtain ⟨⟨hFirst, hLast⟩, rfl⟩ := slice_eq_some.mp h
  unfold next at hLast
  rw [List.length_take, List.length_drop]
  omega

/-- The last entry, if there is one. -/
theorem getLast?_entries (log : IndexedLog Entry limit) :
    log.entries.getLast? = if log.entries = [] then none else log.entryAt (log.next - 1) := by
  unfold entryAt next
  rw [List.getLast?_eq_getElem?]
  grind

end Lemmas

end IndexedLog

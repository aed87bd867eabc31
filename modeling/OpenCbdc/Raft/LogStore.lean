import OpenCbdc.Library.IndexedLog
import OpenCbdc.Library.OrderedTable
import OpenCbdc.Serialization.Codec

/-! The log store of the replicated state machines. The entries are in a LevelDB database
under their indices, which the comparator of the store orders as numbers; the first index
and the next one are kept beside it. -/
namespace OpenCbdc.Raft

open Serialization

/-- `nuraft::log_entry`, as far as the log store uses it. -/
structure EntryFormat (Entry : Type) where
  serialize : Entry → List UInt8
  deserialize : List UInt8 → Option Entry
  term : Entry → Nat
  null : Entry
  term_null : term null = 0
  deserialize_serialize : ∀ entry, deserialize (serialize entry) = some entry
  length_serialize_lt : ∀ entry, (serialize entry).length < 2 ^ 64

abbrev Database := Finmap fun _ : Nat => List UInt8

abbrev indexLimit : Nat := 2 ^ 64

def succIndex (index : Nat) : Nat := (index + 1) % indexLimit

/-- `get_first_or_last_index<true>` -/
def getFirstIndex (db : Database) : Nat := (Table.firstKey db).getD 1

/-- `get_first_or_last_index<false>` -/
def getLastIndex (db : Database) : Nat := (Table.lastKey db).getD 0

/-- `buffer_serializer::get_u64` throws when there are less than eight bytes. -/
def getUInt64 (bytes : List UInt8) : Option (Nat × List UInt8) :=
  if 8 ≤ bytes.length then some (integerOf (bytes.take 8), bytes.drop 8) else none

def getBuffer (len : Nat) (bytes : List UInt8) : Option (List UInt8 × List UInt8) :=
  if len ≤ bytes.length then some (bytes.take len, bytes.drop len) else none

structure LogStore where
  db : Database
  startIdx : Nat
  nextIdx : Nat

namespace LogStore

variable {Entry : Type} (format : EntryFormat Entry)

def load (db : Database) : LogStore :=
  { db := db, startIdx := getFirstIndex db, nextIdx := succIndex (getLastIndex db) }

/-- The assertion that follows the deserialization does not hold for `none`. -/
def logEntryFromSlice (slice : List UInt8) : Option Entry := format.deserialize slice

def lastEntry (store : LogStore) : Option Entry :=
  match Table.lastKey store.db with
  | none => some format.null
  | some key => (store.db.lookup key).bind (logEntryFromSlice format)

def append (store : LogStore) (entry : Entry) : LogStore × Nat :=
  let next := succIndex store.nextIdx
  ({ store with db := store.db.insert store.nextIdx (format.serialize entry), nextIdx := next },
    (next + indexLimit - 1) % indexLimit)

def writeAt (store : LogStore) (index : Nat) (entry : Entry) : LogStore :=
  let first := succIndex index
  { store with
    db := Table.eraseAll (store.db.insert index (format.serialize entry))
      (List.range' first (store.nextIdx - first) : List Nat)
    nextIdx := succIndex index }

/-- The loop of `log_entries`, with the key at which the iterator stands. -/
def readEntries (db : Database) : Nat → Option Nat → Option (List Entry)
  | 0, _ => some []
  -- The assertion that the iterator is valid.
  | _ + 1, none => none
  | count + 1, some key => do
      let slice ← db.lookup key
      let entry ← logEntryFromSlice format slice
      let rest ← readEntries db count (Table.nextKey db key)
      return entry :: rest

/-- The entries from the first index up to the one before the second. -/
def logEntries (store : LogStore) (first last : Nat) : Option (List Entry) :=
  readEntries format store.db ((last + indexLimit - first) % indexLimit)
    (Table.seek store.db first)

def entryAt (store : LogStore) (index : Nat) : Option Entry :=
  match store.db.lookup index with
  | none => some format.null
  | some val => logEntryFromSlice format val

def termAt (store : LogStore) (index : Nat) : Option Nat :=
  (store.entryAt format index).map format.term

def putEntries (entries : List Entry) : List UInt8 :=
  entries.flatMap fun entry =>
    putUInt64 (format.serialize entry).length ++ format.serialize entry

/-- An assertion refuses a negative number of entries. -/
def pack (store : LogStore) (index cnt : Nat) : Option (List UInt8) := do
  let entries ← store.logEntries format index ((index + cnt) % indexLimit)
  return putUInt64 cnt ++ putEntries format entries

/-- The first loop of `apply_pack`. -/
def getEntries : Nat → List UInt8 → Option (List Entry)
  | 0, _ => some []
  | cnt + 1, bytes => do
      let (len, bytes) ← getUInt64 bytes
      let (buf, bytes) ← getBuffer len bytes
      let entry ← format.deserialize buf
      let rest ← getEntries cnt bytes
      return entry :: rest

/-- The second loop of `apply_pack`. -/
def putAll (db : Database) : Nat → List Entry → Database
  | _, [] => db
  | index, entry :: rest =>
      putAll (db.insert index (format.serialize entry)) (succIndex index) rest

def applyPack (store : LogStore) (index : Nat) (pack : List UInt8) : Option LogStore := do
  let (cnt, bytes) ← getUInt64 pack
  let entries ← getEntries format cnt bytes
  let db := putAll format store.db index entries
  return { db := db, startIdx := getFirstIndex db, nextIdx := succIndex (getLastIndex db) }

/-- Nothing is returned where the vector for the deleted keys is refused as too long: its
length wraps around below the first index, and the largest number of 64 bits is no index
that a log can be compacted to. -/
def compact (store : LogStore) (lastLogIndex : Nat) : Option LogStore :=
  if store.startIdx ≤ lastLogIndex + 1 ∧ lastLogIndex + 1 < indexLimit then
    let start := succIndex lastLogIndex
    some { store with
      db := Table.eraseAll store.db
        (List.range' store.startIdx (lastLogIndex + 1 - store.startIdx) : List Nat)
      startIdx := start
      nextIdx := max store.nextIdx start }
  else none

section Lemmas

variable {format} {store : LogStore} {log after : IndexedLog Entry indexLimit} {db : Database}

theorem succIndex_of_lt {index : Nat} (h : index + 1 < indexLimit) :
    succIndex index = index + 1 :=
  Nat.mod_eq_of_lt h

variable (format) in
/-- The database has the entries of a log under their indices. -/
def Contains (db : Database) (log : IndexedLog Entry indexLimit) : Prop :=
  ∀ index, db.lookup index = (log.entryAt index).map format.serialize

theorem Contains.mem_iff (h : Contains format db log) (index : Nat) :
    index ∈ db ↔ log.start ≤ index ∧ index < log.next := by
  rw [← Finmap.lookup_isSome, h index, Option.isSome_map, IndexedLog.isSome_entryAt]

/-- A value written behind the last entry. -/
theorem Contains.insert_next (h : Contains format db log) {entry : Entry}
    (hAppend : log.append [entry] = some after) :
    Contains format (db.insert log.next (format.serialize entry)) after := by
  intro index
  rw [IndexedLog.entryAt_append hAppend]
  by_cases hIndex : index = log.next
  · subst hIndex
    simp
  · rw [Finmap.lookup_insert_of_ne _ hIndex, h index]
    split
    · rfl
    case isFalse hAbove =>
        have hBehind : ([entry] : List Entry)[index - log.next]? = none :=
          List.getElem?_eq_none (by rw [List.length_singleton]; omega)
        rw [IndexedLog.entryAt_of_next_le (Nat.not_lt.mp hAbove), hBehind]

/-- Entries that are put behind the last index are found there, and the others stay. -/
theorem Contains.putAll (h : Contains format db log) {entries : List Entry}
    (hAppend : log.append entries = some after) :
    Contains format (putAll format db log.next entries) after := by
  induction entries generalizing db log with
  | nil =>
      intro index
      rw [LogStore.putAll, h index, IndexedLog.entryAt_append hAppend]
      split
      · rfl
      case isFalse hAbove =>
          rw [IndexedLog.entryAt_of_next_le (Nat.not_lt.mp hAbove), List.getElem?_nil]
  | cons entry rest ih =>
      obtain ⟨middle, hEntry, hRest⟩ := IndexedLog.append_cons hAppend
      have hNext : middle.next = log.next + 1 := IndexedLog.next_append hEntry
      have hLimit : log.next + 1 < indexLimit := hNext ▸ middle.next_lt
      rw [LogStore.putAll, succIndex_of_lt hLimit, ← hNext]
      exact ih (h.insert_next hEntry) hRest

theorem Contains.firstKey_eq (h : Contains format db log) (hEntries : log.entries ≠ []) :
    Table.firstKey db = some log.start := by
  have hLess := IndexedLog.start_lt_next hEntries
  exact Table.firstKey_eq_some ((h.mem_iff _).mpr ⟨Nat.le_refl _, hLess⟩) fun index hIndex =>
    ((h.mem_iff index).mp hIndex).1

theorem Contains.lastKey_eq (h : Contains format db log) (hEntries : log.entries ≠ []) :
    Table.lastKey db = some (log.next - 1) := by
  have hLess := IndexedLog.start_lt_next hEntries
  refine Table.lastKey_eq_some ((h.mem_iff _).mpr (by omega)) fun index hIndex => ?_
  have hIndexLess := ((h.mem_iff index).mp hIndex).2
  omega

/-- The positions are those of the first and of the last key. -/
theorem Contains.positions_eq (h : Contains format db log) (hEntries : log.entries ≠ []) :
    getFirstIndex db = log.start ∧ succIndex (getLastIndex db) = log.next := by
  have hLess := IndexedLog.start_lt_next hEntries
  have hPos : log.next - 1 + 1 = log.next := by omega
  constructor
  · rw [getFirstIndex, h.firstKey_eq hEntries, Option.getD_some]
  · rw [getLastIndex, h.lastKey_eq hEntries, Option.getD_some,
      succIndex_of_lt (hPos.symm ▸ log.next_lt), hPos]

theorem Contains.notMem (h : Contains format db log) (hEntries : log.entries = [])
    (index : Nat) : index ∉ db := by
  rw [h.mem_iff, IndexedLog.next, hEntries, List.length_nil]
  omega

variable (format) in
/-- The store has the entries of a log, and its positions. -/
structure Holds (store : LogStore) (log : IndexedLog Entry indexLimit) : Prop where
  start : store.startIdx = log.start
  next : store.nextIdx = log.next
  contains : Contains format store.db log

theorem Holds.append (h : Holds format store log) {entry : Entry}
    (hAppend : log.append [entry] = some after) :
    Holds format (store.append format entry).1 after := by
  have hNext : after.next = log.next + 1 := IndexedLog.next_append hAppend
  have hLimit : log.next + 1 < indexLimit := hNext ▸ after.next_lt
  constructor
  · exact h.start.trans (IndexedLog.append_eq_some.mp hAppend).1.symm
  · rw [hNext, ← succIndex_of_lt hLimit, ← h.next]
    rfl
  · have hContains := h.contains.insert_next hAppend
    rw [← h.next] at hContains
    exact hContains

/-- Overwriting an index drops the entries after it, in the database as in the log. -/
theorem Holds.writeAt (h : Holds format store log) {index : Nat} {entry : Entry}
    (hWrite : log.writeAt index entry = some after) :
    Holds format (store.writeAt format index entry) after := by
  have hNext : after.next = index + 1 := IndexedLog.next_writeAt hWrite
  have hSucc : succIndex index = index + 1 := succIndex_of_lt (hNext ▸ after.next_lt)
  obtain ⟨⟨_, hLast⟩, hStart, _⟩ := IndexedLog.writeAt_eq_some.mp hWrite
  constructor
  · exact h.start.trans hStart.symm
  · exact hSucc.trans hNext.symm
  · intro other
    simp only [LogStore.writeAt, hSucc, Table.lookup_eraseAll, Multiset.mem_coe,
      List.mem_range'_1, IndexedLog.entryAt_writeAt hWrite]
    rcases Nat.lt_trichotomy other index with hLess | rfl | hGreater
    · rw [if_neg (by omega), Finmap.lookup_insert_of_ne _ hLess.ne, h.contains other,
        if_pos hLess]
    · rw [if_neg (by omega), Finmap.lookup_insert, if_neg (Nat.lt_irrefl other), if_pos rfl,
        Option.map_some]
    · rw [if_neg (Nat.lt_asymm hGreater), if_neg hGreater.ne', Option.map_none]
      split
      · rfl
      case isFalse hKept =>
          have hBehind : log.next ≤ other := by
            rw [← h.next]
            omega
          rw [Finmap.lookup_insert_of_ne _ hGreater.ne', h.contains other,
            IndexedLog.entryAt_of_next_le hBehind, Option.map_none]

/-- Compaction drops the entries up to an index and starts the log behind it. -/
theorem Holds.compact (h : Holds format store log) {last : Nat}
    (hCompact : log.compact last = some after) :
    ∃ next, store.compact last = some next ∧ Holds format next after := by
  have hNext : after.next = max log.next (last + 1) := IndexedLog.next_compact hCompact
  have hLimit : last + 1 < indexLimit :=
    (le_max_right _ _).trans_lt (hNext ▸ after.next_lt)
  have hSucc : succIndex last = last + 1 := succIndex_of_lt hLimit
  obtain ⟨hBelow, hStart, _⟩ := IndexedLog.compact_eq_some.mp hCompact
  refine ⟨_, if_pos ⟨h.start ▸ hBelow, hLimit⟩, hSucc.trans hStart.symm, ?_, ?_⟩
  · rw [hNext, ← h.next, ← hSucc]
  · intro index
    simp only [Table.lookup_eraseAll, Multiset.mem_coe, List.mem_range'_1, h.start,
      IndexedLog.entryAt_compact hCompact, h.contains index]
    by_cases hBelow : index < log.start
    · simp [IndexedLog.entryAt_of_lt_start hBelow]
    · by_cases hIndex : index ≤ last
      · rw [if_pos (by omega), if_pos hIndex, Option.map_none]
      · rw [if_neg (by omega), if_neg hIndex]

theorem getUInt64_putUInt64 {value : Nat} (h : value < 2 ^ 64) (rest : List UInt8) :
    getUInt64 (putUInt64 value ++ rest) = some (value, rest) := by
  have hLength : (putUInt64 value).length = 8 := length_putInteger 8 value
  have hValue : integerOf (putUInt64 value) = value := @integerOf_putInteger 8 value h
  rw [getUInt64, if_pos (by rw [List.length_append]; omega), List.take_left' hLength,
    List.drop_left' hLength, hValue]

theorem getBuffer_append (buf rest : List UInt8) :
    getBuffer buf.length (buf ++ rest) = some (buf, rest) := by
  rw [getBuffer, if_pos (by rw [List.length_append]; omega), List.take_left, List.drop_left]

/-- What was packed is what is unpacked. -/
theorem getEntries_putEntries (entries : List Entry) :
    getEntries format entries.length (putEntries format entries) = some entries := by
  induction entries with
  | nil => rfl
  | cons entry rest ih =>
      have hBytes : putEntries format (entry :: rest) =
          putUInt64 (format.serialize entry).length ++
            (format.serialize entry ++ putEntries format rest) := by
        simp [putEntries]
      simp [getEntries, hBytes, getUInt64_putUInt64 (format.length_serialize_lt entry),
        getBuffer_append, format.deserialize_serialize, ih]

/-- A pack is applied by putting the entries that it was packed from. -/
theorem Holds.applyPack (h : Holds format store log) {entries : List Entry}
    (hEntries : entries ≠ []) (hAppend : log.append entries = some after) :
    ∃ next, store.applyPack format store.nextIdx
        (putUInt64 entries.length ++ putEntries format entries) = some next ∧
      Holds format next after := by
  have hNext : after.next = log.next + entries.length := IndexedLog.next_append hAppend
  have hCount : entries.length < 2 ^ 64 := by
    have hLimit : after.next < 2 ^ 64 := after.next_lt
    omega
  have hContains := h.contains.putAll hAppend
  have hSome : after.entries ≠ [] := by
    rw [(IndexedLog.append_eq_some.mp hAppend).2]
    exact List.append_ne_nil_of_right_ne_nil _ hEntries
  obtain ⟨hFirst, hLast⟩ := hContains.positions_eq hSome
  rw [h.next]
  refine ⟨load (putAll format store.db log.next entries), ?_, hFirst, hLast, hContains⟩
  simp [LogStore.applyPack, getUInt64_putUInt64 hCount, getEntries_putEntries, load]

/-- The iterator stands at the entries of a slice one after the other. -/
theorem readEntries_slice (h : Contains format db log) {index count : Nat} {entries : List Entry}
    (hSlice : log.slice index count = some entries) {iterator : Option Nat}
    (hIterator : 0 < count → iterator = some index) :
    readEntries format db count iterator = some entries := by
  induction count generalizing index entries iterator with
  | zero =>
      rw [List.length_eq_zero_iff.mp (IndexedLog.length_slice hSlice), readEntries]
  | succ count ih =>
      obtain ⟨entry, rest, hEntry, hRest, rfl⟩ := IndexedLog.slice_succ hSlice
      have hNext : 0 < count → Table.nextKey db index = some (index + 1) := by
        intro hCount
        obtain ⟨⟨hFirst, hLast⟩, _⟩ := IndexedLog.slice_eq_some.mp hRest
        refine Table.nextKey_eq_some ((h.mem_iff _).mpr ⟨hFirst, ?_⟩) (Nat.lt_succ_self index)
          fun between _ hLess => hLess
        omega
      rw [hIterator (Nat.succ_pos count)]
      simp [readEntries, h index, hEntry, logEntryFromSlice, format.deserialize_serialize,
        ih hRest hNext]

theorem Holds.logEntries (h : Holds format store log) {index count : Nat} {entries : List Entry}
    (hSlice : log.slice index count = some entries) :
    store.logEntries format index (index + count) = some entries := by
  obtain ⟨⟨hFirst, hLast⟩, _⟩ := IndexedLog.slice_eq_some.mp hSlice
  have hLimit := log.next_lt
  have hCount : (index + count + indexLimit - index) % indexLimit = count := by
    rw [show index + count + indexLimit - index = count + indexLimit by omega,
      Nat.add_mod_right, Nat.mod_eq_of_lt (by omega)]
  rw [LogStore.logEntries, hCount]
  refine readEntries_slice h.contains hSlice fun hSome => Table.seek_of_mem ?_
  exact (h.contains.mem_iff index).mpr ⟨hFirst, by omega⟩

theorem Holds.pack (h : Holds format store log) {index count : Nat} {entries : List Entry}
    (hSlice : log.slice index count = some entries) :
    store.pack format index count =
      some (putUInt64 entries.length ++ putEntries format entries) := by
  obtain ⟨⟨_, hLast⟩, _⟩ := IndexedLog.slice_eq_some.mp hSlice
  have hMod : (index + count) % indexLimit = index + count :=
    Nat.mod_eq_of_lt (hLast.trans_lt log.next_lt)
  rw [LogStore.pack, hMod, h.logEntries hSlice, IndexedLog.length_slice hSlice]
  rfl

theorem Holds.entryAt (h : Holds format store log) (index : Nat) :
    store.entryAt format index = some ((log.entryAt index).getD format.null) := by
  rw [LogStore.entryAt, h.contains index]
  cases log.entryAt index with
  | none => rfl
  | some entry => exact format.deserialize_serialize entry

theorem Holds.lastEntry (h : Holds format store log) :
    store.lastEntry format = some (log.entries.getLast?.getD format.null) := by
  by_cases hEntries : log.entries = []
  · rw [LogStore.lastEntry, Table.lastKey_eq_none (h.contains.notMem hEntries), hEntries]
    rfl
  · have hLess := IndexedLog.start_lt_next hEntries
    have hRange : log.start ≤ log.next - 1 ∧ log.next - 1 < log.next := by omega
    obtain ⟨entry, hEntry⟩ := Option.isSome_iff_exists.mp (IndexedLog.isSome_entryAt.mpr hRange)
    rw [IndexedLog.getLast?_entries, if_neg hEntries, hEntry, LogStore.lastEntry,
      h.contains.lastKey_eq hEntries]
    simp only [h.contains (log.next - 1), hEntry]
    exact format.deserialize_serialize entry

end Lemmas

end LogStore

end OpenCbdc.Raft

import OpenCbdc.Library.Run
import OpenCbdc.Raft.LogStore

/-! Log stores of several nodes, between which packs are carried. The same calls are made
on indexed logs: entries written over older ones cut off what follows them, and compaction
deletes a prefix. -/
namespace OpenCbdc.Raft

open Serialization TransitionSystem

variable {Name Entry : Type} [DecidableEq Name]

/-- The calls of the stores. A pack is kept, so that it can be applied later and more than
once. -/
inductive Call (Name Entry : Type) where
  | append (name : Name) (entry : Entry)
  | writeAt (name : Name) (index : Nat) (entry : Entry)
  | compact (name : Name) (lastLogIndex : Nat)
  | pack (name : Name) (index cnt : Nat)
  | applyPack (name : Name) (taken : Nat)

/-- The stores and the packs that were taken from them. -/
structure LogStores (Name : Type) where
  stores : Name → LogStore
  packs : List (List UInt8)

namespace LogStores

/-- Every store has been loaded from an empty directory. -/
def start : LogStores Name := { stores := fun _ => LogStore.load ∅, packs := [] }

def set (system : LogStores Name) (name : Name) (store : LogStore) : LogStores Name :=
  { system with stores := Function.update system.stores name store }

/-- A pack is applied at the next slot. -/
def step (format : EntryFormat Entry) (system : LogStores Name) :
    Call Name Entry → Option (LogStores Name)
  | .append name entry =>
      some (system.set name ((system.stores name).append format entry).1)
  | .writeAt name index entry =>
      some (system.set name ((system.stores name).writeAt format index entry))
  | .compact name lastLogIndex =>
      ((system.stores name).compact lastLogIndex).map (system.set name)
  | .pack name index cnt =>
      ((system.stores name).pack format index cnt).map fun bytes =>
        { system with packs := system.packs ++ [bytes] }
  | .applyPack name taken => do
      let bytes ← system.packs[taken]?
      let store := system.stores name
      let next ← store.applyPack format store.nextIdx bytes
      return system.set name next

end LogStores

/-- What the stores are for: a log for each of them, and the entries of the packs. -/
structure Logs (Name Entry : Type) where
  logs : Name → IndexedLog Entry indexLimit
  packs : List (List Entry)

namespace Logs

def start : Logs Name Entry :=
  { logs := fun _ => { start := 1, entries := [], fits := Nat.one_lt_two_pow (by decide) }
    packs := [] }

def set (logs : Logs Name Entry) (name : Name) (log : IndexedLog Entry indexLimit) :
    Logs Name Entry :=
  { logs with logs := Function.update logs.logs name log }

/-- The calls within their preconditions. -/
def step (logs : Logs Name Entry) : Call Name Entry → Option (Logs Name Entry)
  | .append name entry => ((logs.logs name).append [entry]).map (logs.set name)
  | .writeAt name index entry => ((logs.logs name).writeAt index entry).map (logs.set name)
  | .compact name lastLogIndex => ((logs.logs name).compact lastLogIndex).map (logs.set name)
  | .pack name index cnt =>
      ((logs.logs name).slice index cnt).map fun entries =>
        { logs with packs := logs.packs ++ [entries] }
  | .applyPack name taken => do
      let entries ← logs.packs[taken]?
      if entries = [] then none else ((logs.logs name).append entries).map (logs.set name)

end Logs

section Simulation

variable {format : EntryFormat Entry} {system : LogStores Name} {logs after : Logs Name Entry}
  {call : Call Name Entry} {calls : List (Call Name Entry)}

variable (format) in
/-- Every store holds its log, and every pack the entries that were taken. -/
structure Simulates (system : LogStores Name) (logs : Logs Name Entry) : Prop where
  stores : ∀ name, (system.stores name).Holds format (logs.logs name)
  packs : system.packs = logs.packs.map fun entries =>
    putUInt64 entries.length ++ LogStore.putEntries format entries

omit [DecidableEq Name] in
theorem simulates_start : Simulates format (LogStores.start : LogStores Name) Logs.start where
  stores _ := {
    start := rfl
    next := rfl
    contains := by
      intro index
      rw [IndexedLog.entryAt_eq_none.mpr fun hRange => Nat.not_lt.mpr hRange.1 hRange.2]
      exact Finmap.lookup_empty index }
  packs := rfl

theorem Simulates.set (h : Simulates format system logs) {name : Name} {store : LogStore}
    {log : IndexedLog Entry indexLimit} (hStore : store.Holds format log) :
    Simulates format (system.set name store) (logs.set name log) where
  stores other := by
    by_cases hName : other = name
    · subst hName
      simpa only [LogStores.set, Logs.set, Function.update_self] using hStore
    · simpa only [LogStores.set, Logs.set, Function.update_of_ne hName] using h.stores other
  packs := h.packs

/-- A call that is within its precondition returns, and does to the store what it does to
the log. -/
theorem Simulates.step (h : Simulates format system logs) (hStep : logs.step call = some after) :
    ∃ next, system.step format call = some next ∧ Simulates format next after := by
  cases call with
  | append name entry =>
      obtain ⟨log, hLog, rfl⟩ := Option.map_eq_some_iff.mp hStep
      exact ⟨_, rfl, h.set ((h.stores name).append hLog)⟩
  | writeAt name index entry =>
      obtain ⟨log, hLog, rfl⟩ := Option.map_eq_some_iff.mp hStep
      exact ⟨_, rfl, h.set ((h.stores name).writeAt hLog)⟩
  | compact name lastLogIndex =>
      obtain ⟨log, hLog, rfl⟩ := Option.map_eq_some_iff.mp hStep
      obtain ⟨store, hStore, hHolds⟩ := (h.stores name).compact hLog
      exact ⟨_, Option.map_eq_some_iff.mpr ⟨store, hStore, rfl⟩, h.set hHolds⟩
  | pack name index cnt =>
      obtain ⟨entries, hSlice, rfl⟩ := Option.map_eq_some_iff.mp hStep
      refine ⟨_, Option.map_eq_some_iff.mpr ⟨_, (h.stores name).pack hSlice, rfl⟩, h.stores, ?_⟩
      rw [List.map_append, ← h.packs]
      rfl
  | applyPack name taken =>
      obtain ⟨entries, hTaken, hApply⟩ := Option.bind_eq_some_iff.mp hStep
      obtain ⟨hEntries, hAppend⟩ := Option.ite_none_left_eq_some.mp hApply
      obtain ⟨log, hLog, rfl⟩ := Option.map_eq_some_iff.mp hAppend
      obtain ⟨store, hStore, hHolds⟩ := (h.stores name).applyPack hEntries hLog
      refine ⟨system.set name store, ?_, h.set hHolds⟩
      have hBytes : system.packs[taken]? =
          some (putUInt64 entries.length ++ LogStore.putEntries format entries) := by
        rw [h.packs, List.getElem?_map, hTaken, Option.map_some]
      simp [LogStores.step, hBytes, hStore]

variable (format) in
theorem simulates_run (hRun : run Logs.step Logs.start calls = some logs) :
    ∃ system, run (LogStores.step format) LogStores.start calls = some system ∧
      Simulates format system logs := by
  refine run_simulation (R := fun logs system => Simulates format system logs)
    simulates_start ?_ hRun
  intro logs call after system hSimulates hStep
  exact hSimulates.step hStep

end Simulation

section Results

variable (format : EntryFormat Entry)

/-- The database has the indices of the log, and every call that reads returns what is in
the log. -/
structure Refines (store : LogStore) (log : IndexedLog Entry indexLimit) : Prop where
  startIdx : store.startIdx = log.start
  nextIdx : store.nextIdx = log.next
  keys : ∀ index, index ∈ store.db ↔ store.startIdx ≤ index ∧ index < store.nextIdx
  entryAt : ∀ index, store.entryAt format index = some ((log.entryAt index).getD format.null)
  termAt : ∀ index,
    store.termAt format index = some (((log.entryAt index).map format.term).getD 0)
  lastEntry : store.lastEntry format = some (log.entries.getLast?.getD format.null)
  logEntries : ∀ index count entries, log.slice index count = some entries →
    store.logEntries format index (index + count) = some entries
  pack : ∀ index count entries, log.slice index count = some entries →
    store.pack format index count =
      some (putUInt64 count ++ LogStore.putEntries format entries)

variable {format}

theorem LogStore.Holds.refines {store : LogStore} {log : IndexedLog Entry indexLimit}
    (h : store.Holds format log) : Refines format store log where
  startIdx := h.start
  nextIdx := h.next
  keys index := by rw [h.contains.mem_iff, h.start, h.next]
  entryAt := h.entryAt
  termAt index := by
    rw [LogStore.termAt, h.entryAt, Option.map_some]
    cases log.entryAt index with
    | none => exact congrArg some format.term_null
    | some entry => rfl
  lastEntry := h.lastEntry
  logEntries _ _ _ := h.logEntries
  pack _ _ _ hSlice := by rw [h.pack hSlice, IndexedLog.length_slice hSlice]

/-- However the calls follow each other, each of them returns, the stores have the entries
of the logs under their indices and give them back, and a pack of one store adds to another
one what it was taken from. -/
theorem stores_refine_logs (format : EntryFormat Entry) {calls : List (Call Name Entry)}
    {logs : Logs Name Entry}
    (hRun : run Logs.step Logs.start calls = some logs) :
    ∃ system, run (LogStores.step format) LogStores.start calls = some system ∧
      (∀ name, Refines format (system.stores name) (logs.logs name)) ∧
      ∀ source target index count entries after, entries ≠ [] →
        (logs.logs source).slice index count = some entries →
        (logs.logs target).append entries = some after →
        ∃ bytes store, (system.stores source).pack format index count = some bytes ∧
          (system.stores target).applyPack format (system.stores target).nextIdx bytes =
            some store ∧
          Refines format store after := by
  obtain ⟨system, hSystem, hSimulates⟩ := simulates_run format hRun
  refine ⟨system, hSystem, fun name => (hSimulates.stores name).refines, ?_⟩
  intro source target index count entries after hEntries hSlice hAppend
  obtain ⟨store, hStore, hHolds⟩ := (hSimulates.stores target).applyPack hEntries hAppend
  exact ⟨_, store, (hSimulates.stores source).pack hSlice, hStore, hHolds.refines⟩

def byteEntries : EntryFormat UInt8 where
  serialize entry := [entry]
  deserialize
    | [entry] => some entry
    | _ => none
  term entry := entry.toNat
  null := 0
  term_null := rfl
  deserialize_serialize _ := rfl
  length_serialize_lt _ := Nat.one_lt_two_pow (by decide)

/-- The first store is overwritten and compacted, and the second one, which has been
compacted behind its end, gets two of its entries. -/
def packedCalls : List (Call Bool UInt8) :=
  [.append false 1, .append false 2, .append false 3, .writeAt false 3 4, .append false 5,
    .pack false 3 2, .compact false 3, .append true 9, .compact true 6, .applyPack true 0]

theorem stores_refine_logs_packedCalls :
    ∃ system,
      run (LogStores.step byteEntries) LogStores.start packedCalls =
        some system ∧
      (system.stores false).startIdx = 4 ∧ (system.stores false).entryAt byteEntries 4 = some 5 ∧
      (system.stores true).startIdx = 7 ∧ (system.stores true).nextIdx = 9 ∧
      (system.stores true).logEntries byteEntries 7 9 = some [4, 5] := by
  have hTest : (run Logs.step (Logs.start : Logs Bool UInt8) packedCalls).any
      (fun logs => decide ((logs.logs false).start = 4 ∧ (logs.logs false).entryAt 4 = some 5 ∧
        (logs.logs true).start = 7 ∧ (logs.logs true).next = 9 ∧
        (logs.logs true).slice 7 2 = some [4, 5])) = true := by
    decide +kernel
  obtain ⟨logs, hRun, hValues⟩ := exists_run_of_test hTest
  obtain ⟨hFirst, hEntry, hStart, hNext, hSlice⟩ := of_decide_eq_true hValues
  obtain ⟨system, hSystem, hRefines, _⟩ := stores_refine_logs byteEntries hRun
  refine ⟨system, hSystem, (hRefines false).startIdx.trans hFirst, ?_,
    (hRefines true).startIdx.trans hStart, (hRefines true).nextIdx.trans hNext,
    (hRefines true).logEntries 7 2 _ hSlice⟩
  rw [(hRefines false).entryAt, hEntry, Option.getD_some]

/-- Loading the directory again. -/
theorem LogStore.Holds.load_iff {store : LogStore} {log : IndexedLog Entry indexLimit}
    (h : store.Holds format log) :
    (load store.db).startIdx = store.startIdx ∧ (load store.db).nextIdx = store.nextIdx ↔
      (∃ index, index ∈ store.db) ∨ store.startIdx = 1 := by
  by_cases hEntries : log.entries = []
  · have hNone : ∀ index, index ∉ store.db := h.contains.notMem hEntries
    have hFirst : (load store.db).startIdx = 1 := by
      rw [load, getFirstIndex, Table.firstKey_eq_none hNone, Option.getD_none]
    have hNext : (load store.db).nextIdx = 1 := by
      rw [load, getLastIndex, Table.lastKey_eq_none hNone, Option.getD_none]
      rfl
    have hSame : store.nextIdx = store.startIdx := by
      rw [h.next, IndexedLog.next, hEntries, h.start, List.length_nil, Nat.add_zero]
    rw [hFirst, hNext, hSame, and_self, eq_comm, or_iff_right fun hSome => hSome.elim hNone]
  · obtain ⟨hFirst, hNext⟩ := h.contains.positions_eq hEntries
    have hMem : log.start ∈ store.db :=
      (h.contains.mem_iff _).mpr ⟨Nat.le_refl _, IndexedLog.start_lt_next hEntries⟩
    exact iff_of_true ⟨hFirst.trans h.start.symm, hNext.trans h.next.symm⟩
      (Or.inl ⟨log.start, hMem⟩)

/-- The positions are the same after a restart exactly when the database has an entry or
the log starts at the index 1. -/
theorem restart_keeps_positions_iff {calls : List (Call Name Entry)} {logs : Logs Name Entry}
    {system : LogStores Name}
    (hRun : run Logs.step Logs.start calls = some logs)
    (hSystem : run (LogStores.step format) LogStores.start calls = some system)
    (name : Name) :
    (LogStore.load (system.stores name).db).startIdx = (system.stores name).startIdx ∧
        (LogStore.load (system.stores name).db).nextIdx = (system.stores name).nextIdx ↔
      (∃ index, index ∈ (system.stores name).db) ∨ (system.stores name).startIdx = 1 := by
  obtain ⟨other, hOther, hSimulates⟩ := simulates_run format hRun
  cases hSystem.symm.trans hOther
  exact (hSimulates.stores name).load_iff

def compactedCalls : List (Call Unit UInt8) := [.append () 1, .append () 2, .compact () 1]

theorem restart_keeps_positions_compactedCalls :
    ∃ system,
      run (LogStores.step byteEntries) LogStores.start compactedCalls =
        some system ∧
      (LogStore.load (system.stores ()).db).startIdx = 2 ∧
      (LogStore.load (system.stores ()).db).nextIdx = 3 := by
  have hLogs : (run Logs.step (Logs.start : Logs Unit UInt8)
      compactedCalls).any (fun _ => true) = true := by
    decide +kernel
  have hTest : (run (LogStores.step byteEntries) LogStores.start
      compactedCalls).any (fun system => decide (2 ∈ (system.stores ()).db ∧
        (system.stores ()).startIdx = 2 ∧ (system.stores ()).nextIdx = 3)) = true := by
    decide +kernel
  obtain ⟨logs, hRun, _⟩ := exists_run_of_test hLogs
  obtain ⟨system, hSystem, hValues⟩ := exists_run_of_test hTest
  obtain ⟨hMem, hStart, hNext⟩ := of_decide_eq_true hValues
  have hKept := (restart_keeps_positions_iff hRun hSystem ()).mpr (Or.inl ⟨2, hMem⟩)
  exact ⟨system, hSystem, hKept.1.trans hStart, hKept.2.trans hNext⟩

def emptiedCalls : List (Call Unit UInt8) := [.append () 1, .compact () 1]

/-- After the restart the next entry gets the index 1 a second time. -/
theorem restart_forgets_compaction :
    ∃ logs system,
      run Logs.step (Logs.start : Logs Unit UInt8) emptiedCalls = some logs ∧
      run (LogStores.step byteEntries) LogStores.start emptiedCalls =
        some system ∧
      ((system.stores ()).startIdx = 2 ∧ (system.stores ()).nextIdx = 2) ∧
      (LogStore.load (system.stores ()).db).startIdx = 1 ∧
      (LogStore.load (system.stores ()).db).nextIdx = 1 := by
  have hLogs : (run Logs.step (Logs.start : Logs Unit UInt8)
      emptiedCalls).any (fun _ => true) = true := by
    decide +kernel
  have hTest : (run (LogStores.step byteEntries) LogStores.start
      emptiedCalls).any (fun system => decide (
        ((system.stores ()).startIdx = 2 ∧ (system.stores ()).nextIdx = 2) ∧
        (LogStore.load (system.stores ()).db).startIdx = 1 ∧
        (LogStore.load (system.stores ()).db).nextIdx = 1)) = true := by
    decide +kernel
  obtain ⟨logs, hRun, _⟩ := exists_run_of_test hLogs
  obtain ⟨system, hSystem, hValues⟩ := exists_run_of_test hTest
  exact ⟨logs, system, hRun, hSystem, of_decide_eq_true hValues⟩

end Results

end OpenCbdc.Raft

import OpenCbdc.Atomizer.Messages
import OpenCbdc.Library.Slots

/-! The atomizer: the transactions of the next block and the inputs that the
last blocks have spent. -/
namespace OpenCbdc

/-- `atomizer::atomizer`. Both caches have a slot for each offset from the
best height. A map that is keyed by compact transactions is keyed by their IDs,
since these alone are hashed and compared. -/
structure Atomizer where
  txs : List (Finmap fun _ : Hash => CompactTx × Finset Nat)
  completeTxs : List CompactTx
  spent : List (Finset Hash)
  bestHeight : Nat
  spentCacheDepth : Nat
  txs_length : txs.length = spentCacheDepth + 1
  spent_length : spent.length = spentCacheDepth + 1

namespace Atomizer

/-- What ends the process or keeps it busy for ever: a slot outside a cache is
read, or a loop counter of 64 bits never exceeds its bound. -/
inductive Fault where
  | outOfBounds
  | endlessLoop
deriving DecidableEq

def new (bestHeight stxoCacheDepth : Nat) : Atomizer where
  txs := List.replicate (stxoCacheDepth + 1) ∅
  completeTxs := []
  spent := List.replicate (stxoCacheDepth + 1) ∅
  bestHeight := bestHeight
  spentCacheDepth := stxoCacheDepth
  txs_length := List.length_replicate
  spent_length := List.length_replicate

/-- `atomizer::make_block`. The errors stand in no particular order, since
the slot they come from is an unordered map. -/
def makeBlock (atomizer : Atomizer) : Atomizer × Block × Finset TxError :=
  let errs := ((atomizer.txs[atomizer.spentCacheDepth]?).elim ∅ Finmap.keys).image
    fun txId => ⟨txId, .incomplete⟩
  ({ txs := (Slots.shiftUp atomizer.txs atomizer.spentCacheDepth).set 0 ∅
     completeTxs := []
     spent := (Slots.shiftUp atomizer.spent atomizer.spentCacheDepth).set 0 ∅
     bestHeight := atomizer.bestHeight + 1
     spentCacheDepth := atomizer.spentCacheDepth
     txs_length := by rw [List.length_set, Slots.length_shiftUp, atomizer.txs_length]
     spent_length := by rw [List.length_set, Slots.length_shiftUp, atomizer.spent_length] },
   ⟨atomizer.bestHeight + 1, atomizer.completeTxs⟩, errs)

/-- `atomizer::get_notification_offset`. The subtraction of 64-bit integers
wraps around for a height that is ahead of the best one. -/
def getNotificationOffset (atomizer : Atomizer) (blockHeight : Nat) : Nat :=
  if blockHeight ≤ atomizer.bestHeight then atomizer.bestHeight - blockHeight
  else 2 ^ 64 - (blockHeight - atomizer.bestHeight)

def checkNotificationOffset (atomizer : Atomizer) (heightOffset : Nat) (tx : CompactTx) :
    Option TxError :=
  if atomizer.spentCacheDepth < heightOffset ∧ tx.inputs ≠ [] then some ⟨tx.id, .stxoRange⟩
  else none

/-- The inner loop of `check_stxo_cache`. The slot is read once per input, so
not at all for a transaction without inputs. -/
def checkSlot (slot : Option (Finset Hash)) : List Hash → Finset Hash → Except Fault (Finset Hash)
  | [], errSet => .ok errSet
  | inp :: rest, errSet =>
      match slot with
      | none => .error .outOfBounds
      | some spent => checkSlot slot rest (if inp ∈ spent then insert inp errSet else errSet)

/-- The outer loop of `check_stxo_cache` over a list of offsets. -/
def checkSlots (atomizer : Atomizer) (tx : CompactTx) :
    List Nat → Finset Hash → Except Fault (Finset Hash)
  | [], errSet => .ok errSet
  | offset :: rest, errSet =>
      match checkSlot atomizer.spent[offset]? tx.inputs errSet with
      | .error fault => .error fault
      | .ok found => checkSlots atomizer tx rest found

/-- `atomizer::check_stxo_cache`. Without inputs no slot is read, and the loop
over the offsets ends only if its bound is not the last 64-bit integer. -/
def checkStxoCache (atomizer : Atomizer) (tx : CompactTx) (cacheCheckRange : Nat) :
    Except Fault (Option TxError) :=
  if tx.inputs = [] ∧ 2 ^ 64 ≤ cacheCheckRange + 1 then .error .endlessLoop
  else
    match atomizer.checkSlots tx (List.range (cacheCheckRange + 1)) ∅ with
    | .error fault => .error fault
    | .ok errSet => .ok (if errSet = ∅ then none else some ⟨tx.id, .inputsSpent errSet⟩)

def addTxToStxoCache (atomizer : Atomizer) (tx : CompactTx) : Atomizer :=
  { atomizer with
    spent := atomizer.spent.modify 0 (· ∪ tx.inputs.toFinset)
    spent_length := by rw [List.length_modify, atomizer.spent_length] }

/-- `m_complete_txs.push_back`. -/
def pushComplete (atomizer : Atomizer) (tx : CompactTx) : Atomizer :=
  { atomizer with completeTxs := atomizer.completeTxs ++ [tx] }

/-- `m_txs[offset].find(tx)`: the transaction that is the key of the entry, and
the attested indices. Keys are equal if their IDs are. -/
def pendingAt (atomizer : Atomizer) (offset : Nat) (txId : Hash) :
    Option (CompactTx × Finset Nat) :=
  (atomizer.txs[offset]?).bind fun slot => slot.lookup txId

/-- The entry of a transaction after a notification, given the one before. A key
that is there already stays, and the attestations are merged. -/
def mergeEntry (known : Option (CompactTx × Finset Nat)) (tx : CompactTx)
    (attestations : Finset Nat) : CompactTx × Finset Nat :=
  match known with
  | none => (tx, attestations)
  | some (key, attested) => (key, attested ∪ attestations)

/-- The pending transactions with an entry of a slot replaced. -/
def putEntry (atomizer : Atomizer) (offset : Nat)
    (slot : Finmap fun _ : Hash => CompactTx × Finset Nat) (txId : Hash)
    (entry : CompactTx × Finset Nat) : Atomizer :=
  { atomizer with
    txs := atomizer.txs.set offset (slot.insert txId entry)
    txs_length := by rw [List.length_set, atomizer.txs_length] }

/-- What the loop of `insert` over the offsets has gathered. The offsets stand
for the iterators of `tx_its`. -/
structure Gathered where
  totalAttestations : Finset Nat
  oldestAttestation : Nat
  txIts : List Nat
deriving DecidableEq

/-- The body of the loop of `insert` over the offsets. -/
def gatherAt (atomizer : Atomizer) (txId : Hash) (gathered : Gathered) (offset : Nat) : Gathered :=
  match atomizer.pendingAt offset txId with
  | none => gathered
  | some (_, attestations) =>
      { totalAttestations := gathered.totalAttestations ∪ attestations
        oldestAttestation := offset
        txIts := gathered.txIts ++ [offset] }

/-- The loop of `insert` over the offsets, all of which are in the cache. -/
def gather (atomizer : Atomizer) (txId : Hash) : Gathered :=
  (List.range (atomizer.spentCacheDepth + 1)).foldl (atomizer.gatherAt txId) ⟨∅, 0, []⟩

/-- The body of the loop of `insert` that clears the pending entries. The key of
the oldest entry is moved to the complete transactions. -/
def takePending (txId : Hash) (oldestAttestation : Nat) (atomizer : Atomizer) (offset : Nat) :
    Atomizer :=
  let erased : Atomizer :=
    { atomizer with
      txs := atomizer.txs.modify offset fun slot => slot.erase txId
      txs_length := by rw [List.length_modify, atomizer.txs_length] }
  if offset = oldestAttestation then
    match atomizer.pendingAt offset txId with
    | none => erased
    | some (tx, _) => erased.pushComplete tx
  else erased

/-- `atomizer::insert` from the loop over the offsets on, once the notification
is filed. The transaction is the key in the slot of the notification; it is
checked against the cache and added to it. -/
def completePending (atomizer : Atomizer) (tx : CompactTx) (txId : Hash) :
    Except Fault (Atomizer × Option TxError) :=
  let gathered := atomizer.gather txId
  if gathered.totalAttestations.card = tx.inputs.length then
    match atomizer.checkStxoCache tx gathered.oldestAttestation with
    | .error fault => .error fault
    | .ok (some err) => .ok (atomizer, some err)
    | .ok none =>
        .ok (gathered.txIts.foldl (takePending txId gathered.oldestAttestation)
          (atomizer.addTxToStxoCache tx), none)
  else .ok (atomizer, none)

protected def insert (atomizer : Atomizer) (blockHeight : Nat) (tx : CompactTx)
    (attestations : Finset Nat) : Except Fault (Atomizer × Option TxError) :=
  let heightOffset := atomizer.getNotificationOffset blockHeight
  match atomizer.checkNotificationOffset heightOffset tx with
  | some err => .ok (atomizer, some err)
  | none =>
      match atomizer.txs[heightOffset]? with
      | none => .error .outOfBounds
      | some slot =>
          let entry := mergeEntry (slot.lookup tx.id) tx attestations
          (atomizer.putEntry heightOffset slot tx.id entry).completePending entry.1 tx.id

def insertComplete (atomizer : Atomizer) (oldestAttestation : Nat) (tx : CompactTx) :
    Except Fault (Atomizer × Option TxError) :=
  let heightOffset := atomizer.getNotificationOffset oldestAttestation
  match atomizer.checkNotificationOffset heightOffset tx with
  | some err => .ok (atomizer, some err)
  | none =>
      match atomizer.checkStxoCache tx heightOffset with
      | .error fault => .error fault
      | .ok (some err) => .ok (atomizer, some err)
      | .ok none => .ok ((atomizer.addTxToStxoCache tx).pushComplete tx, none)

section Lookup

variable {atomizer : Atomizer} {tx : CompactTx}

/-- The inner loop reports the inputs it finds and forgets none. -/
theorem checkSlot_ok {slot : Option (Finset Hash)} {inputs : List Hash} {errSet found : Finset Hash}
    (h : checkSlot slot inputs errSet = .ok found) :
    errSet ⊆ found ∧ ∀ inp ∈ inputs, ∃ spent, slot = some spent ∧ (inp ∈ spent → inp ∈ found) := by
  induction inputs generalizing errSet with
  | nil =>
      cases h
      exact ⟨Finset.Subset.refl _, by simp⟩
  | cons first rest ih =>
      cases slot with
      | none => cases h
      | some spent =>
          obtain ⟨hSubset, hRest⟩ := ih h
          have hGrow : errSet ⊆ if first ∈ spent then insert first errSet else errSet := by
            split
            · exact Finset.subset_insert _ _
            · exact Finset.Subset.refl _
          refine ⟨hGrow.trans hSubset, ?_⟩
          intro inp hInp
          rcases List.mem_cons.mp hInp with rfl | hLater
          · exact ⟨spent, rfl, fun hSpent => hSubset (by simp [hSpent])⟩
          · exact hRest inp hLater

/-- An input that stands in a slot the loop has read is reported. -/
theorem checkSlots_ok {offsets : List Nat} {errSet found : Finset Hash}
    (h : atomizer.checkSlots tx offsets errSet = .ok found) :
    errSet ⊆ found ∧ ∀ offset ∈ offsets, ∀ inp ∈ tx.inputs, ∃ spent,
      atomizer.spent[offset]? = some spent ∧ (inp ∈ spent → inp ∈ found) := by
  induction offsets generalizing errSet with
  | nil =>
      cases h
      exact ⟨Finset.Subset.refl _, by simp⟩
  | cons first rest ih =>
      rw [checkSlots] at h
      split at h
      · cases h
      case h_2 middle hFirst =>
          obtain ⟨hBefore, hSlot⟩ := checkSlot_ok hFirst
          obtain ⟨hAfter, hRest⟩ := ih h
          refine ⟨hBefore.trans hAfter, ?_⟩
          intro offset hOffset inp hInp
          rcases List.mem_cons.mp hOffset with rfl | hLater
          · obtain ⟨spent, hSpent, hFound⟩ := hSlot inp hInp
            exact ⟨spent, hSpent, fun hMem => hAfter (hFound hMem)⟩
          · exact hRest offset hLater inp hInp

/-- A transaction that passes spends nothing that the searched slots hold, and
all of these slots exist. -/
theorem unspent_of_checkStxoCache {cacheCheckRange : Nat}
    (h : atomizer.checkStxoCache tx cacheCheckRange = .ok none) :
    ∀ offset ≤ cacheCheckRange, ∀ inp ∈ tx.inputs, ∃ spent,
      atomizer.spent[offset]? = some spent ∧ inp ∉ spent := by
  intro offset hOffset inp hInp
  rw [checkStxoCache] at h
  split at h
  · cases h
  · split at h
    · cases h
    case h_2 found hFound =>
        have hEmpty : found = ∅ := by simpa using h
        obtain ⟨_, hSlots⟩ := checkSlots_ok hFound
        obtain ⟨spent, hSpent, hReported⟩ :=
          hSlots offset (List.mem_range.mpr (by omega)) inp hInp
        refine ⟨spent, hSpent, fun hMem => ?_⟩
        have hNone := hReported hMem
        rw [hEmpty] at hNone
        exact absurd hNone (Finset.notMem_empty _)

end Lookup

section Effect

variable {atomizer next : Atomizer} {tx : CompactTx} {oldestAttestation : Nat}

/-- A transaction that is refused changes nothing. -/
theorem insertComplete_refused {err : TxError}
    (h : atomizer.insertComplete oldestAttestation tx = .ok (next, some err)) :
    next = atomizer := by
  rw [insertComplete] at h
  split at h
  · exact (Prod.mk.inj (Except.ok.inj h)).1.symm
  · split at h
    · cases h
    · exact (Prod.mk.inj (Except.ok.inj h)).1.symm
    · simp at h

/-- What is known of a transaction that enters the next block, and what it
changes. -/
theorem insertComplete_accepted
    (h : atomizer.insertComplete oldestAttestation tx = .ok (next, none)) :
    next = (atomizer.addTxToStxoCache tx).pushComplete tx ∧
      ∀ offset ≤ atomizer.getNotificationOffset oldestAttestation, ∀ inp ∈ tx.inputs, ∃ spent,
        atomizer.spent[offset]? = some spent ∧ inp ∉ spent := by
  rw [insertComplete] at h
  split at h
  · simp at h
  · split at h
    · cases h
    · simp at h
    case h_3 hCache =>
        have hNext := (Prod.mk.inj (Except.ok.inj h)).1
        exact ⟨hNext.symm, unspent_of_checkStxoCache hCache⟩

/-- An insertion touches neither the pending transactions nor the height. -/
theorem insertComplete_kept {err : Option TxError}
    (h : atomizer.insertComplete oldestAttestation tx = .ok (next, err)) :
    next.txs = atomizer.txs ∧ next.bestHeight = atomizer.bestHeight ∧
      next.spentCacheDepth = atomizer.spentCacheDepth := by
  cases err with
  | none =>
      rw [(insertComplete_accepted h).1]
      exact ⟨rfl, rfl, rfl⟩
  | some err =>
      rw [insertComplete_refused h]
      exact ⟨rfl, rfl, rfl⟩

theorem makeBlock_txs :
    atomizer.makeBlock.1.txs = ∅ :: atomizer.txs.take atomizer.spentCacheDepth :=
  Slots.shiftUp_set_zero atomizer.txs_length ∅

theorem makeBlock_spent :
    atomizer.makeBlock.1.spent = ∅ :: atomizer.spent.take atomizer.spentCacheDepth :=
  Slots.shiftUp_set_zero atomizer.spent_length ∅

end Effect

end Atomizer
end OpenCbdc

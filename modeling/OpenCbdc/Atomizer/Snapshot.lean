import Mathlib.Order.Lattice.Nat
import OpenCbdc.Atomizer.StateMachine
import OpenCbdc.Library.Transcript
import OpenCbdc.Serialization.Messages

/-! The snapshots of the replicated atomizer. A file of the snapshot directory
holds the state at a log index, and a state machine that is started later goes
on from the last one. An `istream_serializer` reads bytes that are there like a
`buffer_serializer`. -/
namespace OpenCbdc

open Decoder Serialization Transcript

instance : Inhabited CompactTx := ⟨⟨default, [], [], ∅⟩⟩

instance : Inhabited Block := ⟨⟨0, []⟩⟩

/-- The fields of an atomizer, in the order of `atomizer::serialize`. -/
structure AtomizerImage where
  spentCacheDepth : Nat
  bestHeight : Nat
  completeTxs : List CompactTx
  spent : List (Finset Hash)
  txs : List (Finmap fun _ : Hash => CompactTx × Finset Nat)

namespace Serialization.Codec

/-- A slot of `m_spent`. -/
def spentSlot : Element (Finset Hash) :=
  (unorderedSet hash).element 56 (by decide) (by decide) (by decide)

/-- A slot of `m_txs`. The key of a row is the transaction itself, of which only
the ID is hashed and compared. -/
def pendingSlot : Element (Finmap fun _ : Hash => CompactTx × Finset Nat) :=
  (container (.table fun entry : CompactTx × Finset Nat => (entry.1.id, entry))
    (pair compactTx.toCodec
      (unorderedSet (uint32.element 4 (by decide) (by decide) (by decide)))) (136 + 56)
    (by decide) (by decide) (by decide)).element 56 (by decide) (by decide) (by decide)

theorem pendingSlot_fits_empty : pendingSlot.Fits ∅ :=
  ⟨by simp [Collection.table], by simp [Collection.table]⟩

/-- `atomizer::serialize` and `atomizer::deserialize`. -/
def atomizerImage : Codec AtomizerImage where
  Fits image := uint64.Fits image.spentCacheDepth ∧ uint64.Fits image.bestHeight ∧
    (vector compactTx).Fits image.completeTxs ∧ (vector spentSlot).Fits image.spent ∧
    (vector pendingSlot).Fits image.txs
  put image := uint64.put image.spentCacheDepth * uint64.put image.bestHeight *
    (vector compactTx).put image.completeTxs * (vector spentSlot).put image.spent *
    (vector pendingSlot).put image.txs
  get := AtomizerImage.mk <$> uint64.get <*> uint64.get <*> (vector compactTx).get <*>
    (vector spentSlot).get <*> (vector pendingSlot).get
  least := uint64.least + uint64.least + (vector compactTx).least + (vector spentSlot).least +
    (vector pendingSlot).least
  writable _ h := exists_mem_mul (exists_mem_mul (exists_mem_mul (exists_mem_mul
    (uint64.writable _ h.1) (uint64.writable _ h.2.1)) ((vector compactTx).writable _ h.2.2.1))
    ((vector spentSlot).writable _ h.2.2.2.1)) ((vector pendingSlot).writable _ h.2.2.2.2)
  reads _ h := (((((uint64.reads _ h.1).map AtomizerImage.mk).seq (uint64.reads _ h.2.1)).seq
    ((vector compactTx).reads _ h.2.2.1)).seq ((vector spentSlot).reads _ h.2.2.2.1)).seq
    ((vector pendingSlot).reads _ h.2.2.2.2)
  checked := ((((uint64.checked.map _).seq uint64.checked).seq (vector compactTx).checked).seq
    (vector spentSlot).checked).seq (vector pendingSlot).checked

theorem blockSize_pos : 0 < 32 := by decide

theorem blockSize_le : 32 ≤ maximumReservation := by decide

/-- `blockstore_t`. -/
def blockstore : Codec (Finmap fun _ : Nat => Block) :=
  unorderedMap (uint64.element 8 least_uint64_pos wordSize_pos wordSize_le)
    (block.element 32 (by decide) blockSize_pos blockSize_le) (by decide)

end Serialization.Codec

namespace Atomizer

def image (atomizer : Atomizer) : AtomizerImage where
  spentCacheDepth := atomizer.spentCacheDepth
  bestHeight := atomizer.bestHeight
  completeTxs := atomizer.completeTxs
  spent := atomizer.spent
  txs := atomizer.txs

/-- The atomizer with these fields, if its caches have a slot for each offset. -/
def ofImage (image : AtomizerImage) : Option Atomizer :=
  if h : image.txs.length = image.spentCacheDepth + 1 ∧
      image.spent.length = image.spentCacheDepth + 1 then
    some {
      txs := image.txs
      completeTxs := image.completeTxs
      spent := image.spent
      bestHeight := image.bestHeight
      spentCacheDepth := image.spentCacheDepth
      txs_length := h.1
      spent_length := h.2 }
  else none

theorem ofImage_image (atomizer : Atomizer) : ofImage atomizer.image = some atomizer :=
  dif_pos ⟨atomizer.txs_length, atomizer.spent_length⟩

end Atomizer

/-- The metadata of a snapshot, `nuraft::snapshot`, with an encoding of its own. -/
structure NuraftSnapshot (Snp : Type) where
  serialize : Snp → List UInt8
  deserialize : List UInt8 → Snp
  getLastLogIdx : Snp → Nat
  deserialize_serialize : ∀ snp, deserialize (serialize snp) = snp

/-- `state_machine::snapshot`, with the fields of its atomizer. -/
structure Snapshot (Snp : Type) where
  snp : Snp
  atomizer : AtomizerImage
  blocks : Finmap fun _ : Nat => Block

/-- The files of the snapshot directory, by the log index that is their name. -/
abbrev SnapshotDir := Finmap fun _ : Nat => Buffer

namespace Snapshot

variable {Snp : Type} (nuraft : NuraftSnapshot Snp)

def put (snapshot : Snapshot Snp) : Language UInt8 :=
  {putUInt64 (nuraft.serialize snapshot.snp).length} * {nuraft.serialize snapshot.snp} *
    Codec.atomizerImage.put snapshot.atomizer * Codec.blockstore.put snapshot.blocks

/-- The metadata at the start of a snapshot, behind its size. -/
def getSnp : Get Snp := do
  let size ← getInteger 8
  (fun data => nuraft.deserialize (data.getD (List.replicate size 0))) <$> read size

def get : Get (Snapshot Snp) :=
  Snapshot.mk <$> getSnp nuraft <*> Codec.atomizerImage.get <*> Codec.blockstore.get

/-- The numbers in the snapshot are of the widths of their types. -/
def Fits (snapshot : Snapshot Snp) : Prop :=
  Codec.atomizerImage.Fits snapshot.atomizer ∧ Codec.blockstore.Fits snapshot.blocks

theorem writable {snapshot : Snapshot Snp} (h : snapshot.Fits) :
    ∃ bytes, bytes ∈ snapshot.put nuraft :=
  exists_mem_mul (exists_mem_mul (exists_mem_mul ⟨_, rfl⟩ ⟨_, rfl⟩)
    (Codec.atomizerImage.writable _ h.1)) (Codec.blockstore.writable _ h.2)

theorem reads_snp (snp : Snp) :
    Reads (getSnp nuraft)
      ({putUInt64 (nuraft.serialize snp).length} * {nuraft.serialize snp}) snp := by
  intro bytes hBytes
  obtain ⟨size, hSize, data, hData, rfl⟩ := Language.mem_mul.mp hBytes
  cases Set.mem_singleton_iff.mp hSize
  cases Set.mem_singleton_iff.mp hData
  apply Decodes.of_small
  intro hSmall
  rw [List.length_append] at hSmall
  have hLength : Codec.uint64.Fits (nuraft.serialize snp).length := by
    show (nuraft.serialize snp).length < 256 ^ 8
    omega
  have hRead := (Decodes.read (nuraft.serialize snp)).map fun data =>
    nuraft.deserialize (data.getD (List.replicate (nuraft.serialize snp).length 0))
  rw [Option.getD_some, nuraft.deserialize_serialize] at hRead
  exact (Codec.uint64.reads _ hLength _ rfl).bind hRead

/-- A snapshot file is read as it was written. -/
theorem reads {snapshot : Snapshot Snp} (h : snapshot.Fits) :
    Reads (get nuraft) (snapshot.put nuraft) snapshot :=
  (((reads_snp nuraft snapshot.snp).map Snapshot.mk).seq
    (Codec.atomizerImage.reads _ h.1)).seq (Codec.blockstore.reads _ h.2)

end Snapshot

/-- How a state machine can end on a snapshot. With `badSlots` the source goes on
with an atomizer whose caches lack slots. -/
inductive SnapshotFailure where
  | exit
  | decoder (fault : Decoder.Fault)
  | badSlots

namespace AtomizerStateMachine

section Files

variable {Snp : Type} (nuraft : NuraftSnapshot Snp)

def loadSnapshot (file : Buffer) : Except SnapshotFailure (Snapshot Snp) :=
  match Snapshot.get nuraft (Reader.ofBuffer file) with
  | .ok snapshot after => if after.valid then .ok snapshot else .error .exit
  | .error fault _ => .error (.decoder fault)

/-- `state_machine::read_snapshot`. The index zero stands for the last snapshot. -/
def readSnapshot (dir : SnapshotDir) (idx : Nat) :
    Except SnapshotFailure (Option (Snapshot Snp)) :=
  if idx = 0 then
    let maxIdx := dir.keys.sup id
    if maxIdx = 0 then .ok none
    else
      match dir.lookup maxIdx with
      | none => .error .exit
      | some file => (loadSnapshot nuraft file).map some
  else
    match dir.lookup idx with
    | none => .ok none
    | some file => (loadSnapshot nuraft file).map some

/-- What `create_snapshot` writes. -/
def snapshot (sm : AtomizerStateMachine) (snp : Snp) : Snapshot Snp :=
  ⟨snp, sm.atomizer.image, sm.blocks⟩

/-- The directory after `state_machine::create_snapshot` has written the file:
the files before it are removed. -/
def createSnapshot (dir : SnapshotDir) (snp : Snp) (file : Buffer) : SnapshotDir :=
  Table.filterKeys (fun idx => !decide (idx < nuraft.getLastLogIdx snp))
    (dir.insert (nuraft.getLastLogIdx snp) file)

def applySnapshot (sm : AtomizerStateMachine) (dir : SnapshotDir) (snp : Snp) :
    Except SnapshotFailure (AtomizerStateMachine × Bool) :=
  match readSnapshot nuraft dir (nuraft.getLastLogIdx snp) with
  | .error failure => .error failure
  | .ok none => .ok (sm, false)
  | .ok (some found) =>
      match Atomizer.ofImage found.atomizer with
      | none => .error .badSlots
      | some atomizer => .ok ({ sm with atomizer := atomizer, blocks := found.blocks }, true)

/-- The constructor of a `state_machine`, which looks for the last snapshot. -/
def new (stxoCacheDepth : Nat) (dir : SnapshotDir) :
    Except SnapshotFailure AtomizerStateMachine :=
  match readSnapshot nuraft dir 0 with
  | .error failure => .error failure
  | .ok none => .ok (initial stxoCacheDepth)
  | .ok (some found) =>
      match (initial stxoCacheDepth).applySnapshot nuraft dir found.snp with
      | .error failure => .error failure
      | .ok (sm, true) => .ok sm
      | .ok (_, false) => .error .exit

variable {nuraft} {dir : SnapshotDir} {snp : Snp} {file : Buffer}

theorem loadSnapshot_of_mem {written : Snapshot Snp} (hFits : written.Fits)
    (hFile : file.bytes ∈ written.put nuraft) : loadSnapshot nuraft file = .ok written := by
  obtain ⟨after, hGet, hValid, _⟩ := Snapshot.reads nuraft hFits file.bytes hFile
    (Reader.ofBuffer file) [] rfl (by simp [Reader.ofBuffer])
  -- the equation lemma of the definition is slow to derive
  show (match Snapshot.get nuraft (Reader.ofBuffer file) with
    | .ok snapshot after =>
        if after.valid then Except.ok snapshot else .error SnapshotFailure.exit
    | .error fault _ => .error (SnapshotFailure.decoder fault)) = _
  rw [hGet]
  simp [hValid]

theorem lookup_createSnapshot (dir : SnapshotDir) :
    (createSnapshot nuraft dir snp file).lookup (nuraft.getLastLogIdx snp) = some file := by
  rw [createSnapshot, Table.lookup_filterKeys]
  simp

/-- No file of an earlier log index is left. -/
theorem sup_keys_createSnapshot (hLast : ∀ idx ∈ dir, idx ≤ nuraft.getLastLogIdx snp) :
    (createSnapshot nuraft dir snp file).keys.sup id = nuraft.getLastLogIdx snp := by
  apply le_antisymm
  · apply Finset.sup_le
    intro idx hIdx
    rw [Finmap.mem_keys] at hIdx
    obtain ⟨other, hOther⟩ := Finmap.mem_iff.mp hIdx
    rw [createSnapshot, Table.lookup_filterKeys] at hOther
    have hIn : idx ∈ dir.insert (nuraft.getLastLogIdx snp) file :=
      Finmap.mem_of_lookup_eq_some hOther.1
    rcases Finmap.mem_insert.mp hIn with hSame | hOld
    · exact hSame.le
    · exact hLast idx hOld
  · apply Finset.le_sup (f := id)
    exact Finmap.mem_keys.mpr (Finmap.mem_of_lookup_eq_some (lookup_createSnapshot dir))

/-- Any state machine takes the snapshot over. -/
theorem applySnapshot_eq (sm : AtomizerStateMachine) {written : AtomizerStateMachine}
    (hFits : (written.snapshot snp).Fits) (hIdx : 0 < nuraft.getLastLogIdx snp)
    (hLookup : dir.lookup (nuraft.getLastLogIdx snp) = some file)
    (hFile : file.bytes ∈ (written.snapshot snp).put nuraft) :
    sm.applySnapshot nuraft dir snp =
      .ok ({ sm with atomizer := written.atomizer, blocks := written.blocks }, true) := by
  have hRead : readSnapshot nuraft dir (nuraft.getLastLogIdx snp) =
      .ok (some (written.snapshot snp)) := by
    simp only [readSnapshot, if_neg hIdx.ne', hLookup, loadSnapshot_of_mem hFits hFile]
    rfl
  rw [applySnapshot, hRead]
  simp [snapshot, Atomizer.ofImage_image]

/-- A state machine that is started takes the last snapshot over. -/
theorem new_createSnapshot (stxoCacheDepth : Nat) {written : AtomizerStateMachine}
    (hFits : (written.snapshot snp).Fits) (hIdx : 0 < nuraft.getLastLogIdx snp)
    (hLast : ∀ idx ∈ dir, idx ≤ nuraft.getLastLogIdx snp)
    (hFile : file.bytes ∈ (written.snapshot snp).put nuraft) :
    new nuraft stxoCacheDepth (createSnapshot nuraft dir snp file) =
      .ok ⟨written.atomizer, written.blocks, 0⟩ := by
  have hRead : readSnapshot nuraft (createSnapshot nuraft dir snp file) 0 =
      .ok (some (written.snapshot snp)) := by
    rw [readSnapshot, if_pos rfl, sup_keys_createSnapshot hLast]
    simp only [if_neg hIdx.ne', lookup_createSnapshot, loadSnapshot_of_mem hFits hFile]
    rfl
  have hApply := applySnapshot_eq (initial stxoCacheDepth) hFits hIdx
    (lookup_createSnapshot dir) hFile
  simp only [new, hRead, snapshot, hApply]
  rfl

end Files

section Replay

/-- What later requests depend on. The count of notifications is not part of a
snapshot. -/
def observe (sm : AtomizerStateMachine) : Atomizer × Finmap fun _ : Nat => Block :=
  (sm.atomizer, sm.blocks)

/-- Requests are answered from the atomizer and the blocks alone. -/
theorem commit_observe (first second : AtomizerStateMachine) (request : Request)
    (h : first.observe = second.observe) :
    (first.commit request).map (Prod.map observe id) =
      (second.commit request).map (Prod.map observe id) := by
  obtain ⟨hAtomizer, hBlocks⟩ := Prod.mk.inj h
  cases request with
  | aggregateTxNotify aggTxs =>
      simp only [commit, hAtomizer]
      cases insertAll second.atomizer aggTxs with
      | error fault => rfl
      | ok result => simp [Except.map, observe, hBlocks]
  | makeBlock => simp [commit, Except.map, observe, hAtomizer, hBlocks]
  | getBlock blockHeight => simp [commit, Except.map, observe, hAtomizer, hBlocks]
  | prune blockHeight => simp [commit, Except.map, observe, hAtomizer, hBlocks]

/-- A state machine at this log index has numbers that fit their types. -/
structure Bounded (stxoCacheDepth count : Nat) (sm : AtomizerStateMachine) : Prop where
  spentCacheDepth : sm.atomizer.spentCacheDepth = stxoCacheDepth
  bestHeight : sm.atomizer.bestHeight ≤ count
  txs : ∀ slot ∈ sm.atomizer.txs, Codec.pendingSlot.Fits slot
  blocks : ∀ height blk, sm.blocks.lookup height = some blk → height ≤ count ∧ blk.height ≤ count

variable {sm next : AtomizerStateMachine} {stxoCacheDepth count : Nat} {request : Request}
  {reply : Option Response}

theorem bounded_initial (stxoCacheDepth : Nat) :
    (initial stxoCacheDepth).Bounded stxoCacheDepth 0 := by
  refine ⟨rfl, le_rfl, ?_, ?_⟩
  · intro slot hSlot
    rw [List.eq_of_mem_replicate hSlot]
    exact Codec.pendingSlot_fits_empty
  · simp [initial]

/-- A request adds at most one block, so the heights stay below the number of entries in the
log. -/
theorem Bounded.commit (h : sm.Bounded stxoCacheDepth count)
    (hCommit : sm.commit request = .ok (next, reply)) :
    next.Bounded stxoCacheDepth (count + 1) := by
  have hBlocks : ∀ height blk, sm.blocks.lookup height = some blk →
      height ≤ count + 1 ∧ blk.height ≤ count + 1 := by
    intro height blk hLookup
    have hOld := h.blocks height blk hLookup
    omega
  have hHeight : sm.atomizer.bestHeight ≤ count + 1 := h.bestHeight.trans (Nat.le_succ _)
  cases request with
  | aggregateTxNotify aggTxs =>
      rw [AtomizerStateMachine.commit] at hCommit
      split at hCommit
      · cases hCommit
      case h_2 atomizer errs hInsert =>
          obtain ⟨hTxs, hSame, hDepth⟩ := insertAll_kept hInsert
          cases hCommit
          refine ⟨hDepth.trans h.spentCacheDepth, hSame.trans_le hHeight, ?_, hBlocks⟩
          rw [hTxs]
          exact h.txs
  | makeBlock =>
      cases hCommit
      refine ⟨h.spentCacheDepth, Nat.succ_le_succ h.bestHeight, ?_, ?_⟩
      · intro slot hSlot
        have hShifted : slot ∈ ∅ :: sm.atomizer.txs.take sm.atomizer.spentCacheDepth :=
          Atomizer.makeBlock_txs ▸ hSlot
        cases List.mem_cons.mp hShifted with
        | inl hNew =>
            rw [hNew]
            exact Codec.pendingSlot_fits_empty
        | inr hOld => exact h.txs slot (List.mem_of_mem_take hOld)
      · intro height blk hLookup
        rcases Table.of_lookup_emplace hLookup with ⟨rfl, rfl⟩ | hOld
        · exact ⟨Nat.succ_le_succ h.bestHeight, Nat.succ_le_succ h.bestHeight⟩
        · exact hBlocks height blk hOld
  | getBlock blockHeight =>
      cases hCommit
      exact ⟨h.spentCacheDepth, hHeight, h.txs, hBlocks⟩
  | prune blockHeight =>
      cases hCommit
      refine ⟨h.spentCacheDepth, hHeight, h.txs, ?_⟩
      intro height blk hLookup
      exact hBlocks height blk (Table.lookup_filterValues.mp hLookup).1

/-- The log index is of 64 bits, so a snapshot can be written. -/
theorem Bounded.fits {Snp : Type} (h : sm.Bounded stxoCacheDepth count)
    (hDepth : stxoCacheDepth < 2 ^ 64) (hCount : count < 2 ^ 64) (snp : Snp) :
    (sm.snapshot snp).Fits := by
  have hWidth : ∀ {value}, value ≤ count → Codec.uint64.Fits value := by
    intro value hValue
    show value < 256 ^ 8
    omega
  have hTxs : ∀ txs, (Codec.vector Codec.compactTx).Fits txs :=
    fun txs => ⟨trivial, fun tx _ => Codec.compactTx_fits tx⟩
  refine ⟨⟨?_, hWidth h.bestHeight, hTxs _, ⟨trivial, ?_⟩, trivial, h.txs⟩, ?_, ?_⟩
  · show sm.atomizer.spentCacheDepth < 256 ^ 8
    rw [h.spentCacheDepth]
    exact hDepth
  · exact fun slot _ => ⟨trivial, fun _ _ => trivial⟩
  · exact Collection.proper_table_id _
  · intro entry hLookup
    obtain ⟨hKey, hBlk⟩ := h.blocks entry.1 entry.2 hLookup
    exact ⟨hWidth hKey, hWidth hBlk, hTxs _⟩

/-- All numbers are bounded by the length of the log that was replayed. -/
theorem bounded_of_replay {log : List Request} {replies : List (Option Response)}
    (h : replay commit (initial stxoCacheDepth) log = (replies, .ok sm)) :
    sm.Bounded stxoCacheDepth log.length := by
  have hRun := run_of_replay h
  refine TransitionSystem.run_induction
    (motive := fun log sm => Bounded stxoCacheDepth log.length sm) (bounded_initial _) ?_ hRun
  intro log before request after _ hBefore hStep
  rw [List.length_append, List.length_singleton]
  cases hCommit : before.commit request with
  | error fault =>
      rw [hCommit] at hStep
      cases hStep
  | ok result =>
      rw [hCommit] at hStep
      cases hStep
      exact hBefore.commit hCommit

end Replay

/-- A state machine that is started from a snapshot answers the rest of the log
as one that has replayed all of it, and ends in the same atomizer with the same
blocks. -/
theorem snapshot_replay_eq_replay {Snp : Type} (nuraft : NuraftSnapshot Snp)
    {stxoCacheDepth : Nat} {before : List Request} {replies : List (Option Response)}
    {sm : AtomizerStateMachine} (hDepth : stxoCacheDepth < 2 ^ 64)
    (hLog : before.length < 2 ^ 64)
    (hCut : replay commit (initial stxoCacheDepth) before = (replies, .ok sm)) (snp : Snp)
    (hIdx : 0 < nuraft.getLastLogIdx snp) :
    (∃ bytes, bytes ∈ (sm.snapshot snp).put nuraft) ∧
      ∀ file : Buffer, file.bytes ∈ (sm.snapshot snp).put nuraft →
        ∀ dir : SnapshotDir, (∀ idx ∈ dir, idx ≤ nuraft.getLastLogIdx snp) →
          ∀ freshDepth, ∃ restored,
            new nuraft freshDepth (createSnapshot nuraft dir snp file) = .ok restored ∧
            ∀ after, (replay commit (initial stxoCacheDepth) (before ++ after)).1 =
                replies ++ (replay commit restored after).1 ∧
              (replay commit (initial stxoCacheDepth) (before ++ after)).2.map observe =
                (replay commit restored after).2.map observe := by
  have hFits := (bounded_of_replay hCut).fits hDepth hLog snp
  refine ⟨Snapshot.writable nuraft hFits, ?_⟩
  intro file hFile dir hLast freshDepth
  refine ⟨⟨sm.atomizer, sm.blocks, 0⟩, new_createSnapshot freshDepth hFits hIdx hLast hFile, ?_⟩
  intro after
  obtain ⟨hReplies, hFinish⟩ := replay_eq_of_observe commit_observe
    (show sm.observe = observe ⟨sm.atomizer, sm.blocks, 0⟩ from rfl) after
  rw [replay_append hCut]
  exact ⟨congrArg (replies ++ ·) hReplies, hFinish⟩

def plainSnapshot : NuraftSnapshot (List UInt8) := ⟨id, id, List.length, fun _ => rfl⟩

def firstBlockState : AtomizerStateMachine :=
  ⟨(Atomizer.new 0 0).makeBlock.1, Table.emplace ∅ 1 ⟨1, []⟩, 0⟩

def firstBlockFile : Buffer where
  bytes := putUInt64 1 ++ [7] ++ (putUInt64 0 ++ putUInt64 1 ++ putUInt64 0 ++
    (putUInt64 1 ++ putUInt64 0) ++ (putUInt64 1 ++ putUInt64 0)) ++
    (putUInt64 1 ++ (putUInt64 1 ++ (putUInt64 1 ++ putUInt64 0)))
  size_lt := by decide

theorem firstBlockFile_mem :
    firstBlockFile.bytes ∈ (firstBlockState.snapshot [7]).put plainSnapshot := by
  have hTxs : putUInt64 0 ∈ (Codec.vector Codec.compactTx).put [] := mem_putContainer_nil rfl
  have hSpentSlot : putUInt64 0 ∈ Codec.spentSlot.put ∅ := mem_putContainer_nil rfl
  have hSpent : putUInt64 1 ++ putUInt64 0 ∈ (Codec.vector Codec.spentSlot).put [∅] :=
    mem_putContainer_singleton rfl hSpentSlot
  have hPendingSlot : putUInt64 0 ∈ Codec.pendingSlot.put ∅ := mem_putContainer_nil rfl
  have hPending : putUInt64 1 ++ putUInt64 0 ∈ (Codec.vector Codec.pendingSlot).put [∅] :=
    mem_putContainer_singleton rfl hPendingSlot
  have hBlk : putUInt64 1 ++ (putUInt64 1 ++ putUInt64 0) ∈
      (Codec.pair Codec.uint64 Codec.block).put (1, ⟨1, []⟩) :=
    Language.append_mem_mul rfl (Language.append_mem_mul rfl hTxs)
  have hOrder : (Collection.table (id : Nat × Block → Nat × Block)).Order firstBlockState.blocks
      [(1, ⟨1, []⟩)] := rfl
  have hBlocks : putUInt64 1 ++ (putUInt64 1 ++ (putUInt64 1 ++ putUInt64 0)) ∈
      Codec.blockstore.put firstBlockState.blocks := mem_putContainer_singleton hOrder hBlk
  exact Language.append_mem_mul (Language.append_mem_mul (Language.append_mem_mul rfl rfl)
    (Language.append_mem_mul (Language.append_mem_mul (Language.append_mem_mul
      (Language.append_mem_mul rfl rfl) hTxs) hSpent) hPending)) hBlocks

theorem snapshot_replay_eq_replay_firstBlock :
    ∃ restored, new plainSnapshot 5 (createSnapshot plainSnapshot ∅ [7] firstBlockFile) =
        .ok restored ∧
      ∀ after, (replay commit (initial 0) (.makeBlock :: after)).1 =
          some (.makeBlock ⟨1, []⟩ ∅) :: (replay commit restored after).1 ∧
        (replay commit (initial 0) (.makeBlock :: after)).2.map observe =
          (replay commit restored after).2.map observe := by
  have hCut : replay commit (initial 0) [.makeBlock] =
      ([some (.makeBlock ⟨1, []⟩ ∅)], .ok firstBlockState) := rfl
  exact (snapshot_replay_eq_replay plainSnapshot (by decide) (by decide) hCut [7]
    (by decide)).2 firstBlockFile firstBlockFile_mem ∅
    (fun _ hIdx => absurd hIdx Finmap.notMem_empty) 5

end AtomizerStateMachine
end OpenCbdc

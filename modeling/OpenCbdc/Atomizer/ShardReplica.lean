import OpenCbdc.Atomizer.Shard
import OpenCbdc.Library.Run

/-! A shard whose blocks and transactions are digested on different threads.
Its database is a fold over the blocks it has accepted, and every answer is made
from that fold at one height. -/
namespace OpenCbdc.Shard

open TransitionSystem

/-- `shard::open_db` on a database that holds UHS IDs and a block height. -/
def reopenDb (prefixRange : ShardRange) (uhsIds : Finset Hash) (bestBlockHeight : Nat) : Shard :=
  updateSnapshot
    { prefixRange := prefixRange
      db := uhsIds.filter fun uhsHash => hashInShardRange prefixRange uhsHash
      bestBlockHeight := bestBlockHeight
      snp := ∅
      snpHeight := 0 }

/-- One thread digests blocks, the others check transactions. Between the write
of a batch and `update_snapshot` the database is ahead of the snapshot. A call of
`digest_transaction` keeps the snapshot that it has taken. -/
structure Threads where
  shard : Shard
  publishing : Bool
  readers : List (Shard × CompactTx)

inductive Event where
  | digestBlock (blk : Block)
  | updateSnapshot
  | takeSnapshot (tx : CompactTx)

def step (threads : Threads) : Event → Option Threads
  | .digestBlock blk =>
      if threads.publishing then none
      else if blk.height = threads.shard.bestBlockHeight + 1 then
        some { threads with shard := threads.shard.commitBlock blk, publishing := true }
      else some threads
  | .updateSnapshot =>
      if threads.publishing then
        some { threads with shard := threads.shard.updateSnapshot, publishing := false }
      else none
  | .takeSnapshot tx =>
      some { threads with readers := threads.readers ++ [(threads.shard, tx)] }

def opened (prefixRange : ShardRange) (uhsIds : Finset Hash) (bestBlockHeight : Nat) : Threads :=
  { shard := reopenDb prefixRange uhsIds bestBlockHeight, publishing := false, readers := [] }

section Specification

/-- Of the blocks that are offered, those that fit the height so far. -/
def acceptedBlocks : Nat → List Block → List Block
  | _, [] => []
  | bestBlockHeight, blk :: rest =>
      if blk.height = bestBlockHeight + 1 then blk :: acceptedBlocks (bestBlockHeight + 1) rest
      else acceptedBlocks bestBlockHeight rest

/-- The unspent hash set after some blocks: each transaction adds its outputs,
and then removes its inputs. -/
def uhsAfter (uhsIds : Finset Hash) (blks : List Block) : Finset Hash :=
  CompactTx.moves.unspent uhsIds (blks.flatMap Block.transactions)

/-- The answer to a transaction for an unspent hash set: the positions of all
inputs in range, or those that the set does not hold. -/
def answerFor (prefixRange : ShardRange) (uhsIds : Finset Hash) (height : Nat) (tx : CompactTx) :
    Except TxError TxNotifyRequest :=
  let missing := tx.inputs.filter fun inp => hashInShardRange prefixRange inp && inp ∉ uhsIds
  if missing = [] then
    .ok { tx := tx
          attestations := (tx.inputs.zipIdx.filter fun place =>
            hashInShardRange prefixRange place.1 && place.1 ∈ uhsIds).map Prod.snd
          blockHeight := height }
  else .error ⟨tx.id, .inputsDne missing⟩

theorem acceptedBlocks_concat (bestBlockHeight : Nat) (blks : List Block) (blk : Block) :
    acceptedBlocks bestBlockHeight (blks ++ [blk]) = acceptedBlocks bestBlockHeight blks ++
      if blk.height = bestBlockHeight + (acceptedBlocks bestBlockHeight blks).length + 1 then [blk]
      else [] := by
  induction blks generalizing bestBlockHeight with
  | nil => simp [acceptedBlocks]
  | cons first rest ih =>
      rw [List.cons_append, acceptedBlocks, acceptedBlocks]
      split
      · rw [ih, List.length_cons, List.cons_append, Nat.add_right_comm bestBlockHeight 1,
          Nat.add_assoc bestBlockHeight]
      · exact ih bestBlockHeight

theorem uhsAfter_append (uhsIds : Finset Hash) (first second : List Block) :
    uhsAfter uhsIds (first ++ second) = uhsAfter (uhsAfter uhsIds first) second := by
  rw [uhsAfter, List.flatMap_append, Ledger.Moves.unspent_append]
  rfl

end Specification

section Answers

end Answers

section Runs

variable {prefixRange : ShardRange} {uhsIds : Finset Hash} {bestBlockHeight : Nat}
  {chain : List Block} {shard : Shard} {threads next : Threads} {events : List Event}

/-- The blocks that are offered in a run, whether they fit or not. -/
def Event.block? : Event → Option Block
  | .digestBlock blk => some blk
  | .updateSnapshot | .takeSnapshot _ => none

def chainOf (bestBlockHeight : Nat) (events : List Event) : List Block :=
  acceptedBlocks bestBlockHeight (events.filterMap Event.block?)

/-- The snapshot is the fold over the first of the accepted blocks. -/
structure Sees (prefixRange : ShardRange) (uhsIds : Finset Hash) (bestBlockHeight : Nat)
    (chain : List Block) (shard : Shard) : Prop where
  range : shard.prefixRange = prefixRange
  bounds : bestBlockHeight ≤ shard.snpHeight ∧
    shard.snpHeight ≤ bestBlockHeight + chain.length
  snp : shard.snp = (uhsAfter uhsIds (chain.take (shard.snpHeight - bestBlockHeight))).filter
    fun uhsHash => hashInShardRange prefixRange uhsHash

theorem Sees.later (h : Sees prefixRange uhsIds bestBlockHeight chain shard) (more : List Block) :
    Sees prefixRange uhsIds bestBlockHeight (chain ++ more) shard where
  range := h.range
  bounds := by
    obtain ⟨hLow, hHigh⟩ := h.bounds
    exact ⟨hLow, by rw [List.length_append]; omega⟩
  snp := by
    obtain ⟨_, hHigh⟩ := h.bounds
    rw [List.take_append_of_le_length (by omega)]
    exact h.snp

/-- What holds at every point of a run. -/
structure Replicates (prefixRange : ShardRange) (uhsIds : Finset Hash) (bestBlockHeight : Nat)
    (chain : List Block) (threads : Threads) : Prop where
  height : threads.shard.bestBlockHeight = bestBlockHeight + chain.length
  stored : threads.shard.db = (uhsAfter uhsIds chain).filter
    fun uhsHash => hashInShardRange prefixRange uhsHash
  snapshot : Sees prefixRange uhsIds bestBlockHeight chain threads.shard
  readers : ∀ reader ∈ threads.readers, Sees prefixRange uhsIds bestBlockHeight chain reader.1

theorem Replicates.opened :
    Replicates prefixRange uhsIds bestBlockHeight []
      (opened prefixRange uhsIds bestBlockHeight) where
  height := rfl
  stored := rfl
  snapshot :=
    { range := rfl
      bounds := ⟨Nat.le_refl _, Nat.le_refl _⟩
      snp := by
        rw [List.take_nil]
        rfl }
  readers := by simp [Shard.opened]

/-- A block that is stored extends the chain, while the readers keep their snapshots. -/
theorem Replicates.commitBlock (h : Replicates prefixRange uhsIds bestBlockHeight chain threads)
    (blk : Block) (publishing : Bool) :
    Replicates prefixRange uhsIds bestBlockHeight (chain ++ [blk])
      { threads with shard := threads.shard.commitBlock blk, publishing := publishing } where
  height := by
    rw [List.length_append, ← Nat.add_assoc, ← h.height]
    rfl
  stored := by
    have hRange := h.snapshot.range
    simp only [Shard.commitBlock]
    rw [hRange, h.stored, foldl_writeTx, uhsAfter_append]
    simp [uhsAfter]
  snapshot :=
    have hLater := h.snapshot.later [blk]
    ⟨hLater.range, hLater.bounds, hLater.snp⟩
  readers reader hReader := (h.readers reader hReader).later [blk]

theorem Replicates.updateSnapshot (h : Replicates prefixRange uhsIds bestBlockHeight chain threads)
    (publishing : Bool) :
    Replicates prefixRange uhsIds bestBlockHeight chain
      { threads with shard := threads.shard.updateSnapshot, publishing := publishing } where
  height := h.height
  stored := h.stored
  snapshot := by
    refine ⟨h.snapshot.range, ?_, ?_⟩
    · simp only [Shard.updateSnapshot, h.height]
      omega
    · simp only [Shard.updateSnapshot, h.height, Nat.add_sub_cancel_left, List.take_length]
      exact h.stored
  readers := h.readers

/-- A replica follows the chain of blocks that it has digested, whatever the threads that
read its snapshots do in between. -/
theorem Replicates.step {event : Event}
    (h : Replicates prefixRange uhsIds bestBlockHeight (chainOf bestBlockHeight events) threads)
    (hStep : step threads event = some next) :
    Replicates prefixRange uhsIds bestBlockHeight
      (chainOf bestBlockHeight (events ++ [event])) next := by
  rw [chainOf, List.filterMap_append]
  cases event with
  | digestBlock blk =>
      have hChain := acceptedBlocks_concat bestBlockHeight (events.filterMap Event.block?) blk
      rw [← chainOf, ← h.height] at hChain
      simp only [List.filterMap_cons, Event.block?, List.filterMap_nil]
      rw [hChain]
      simp only [Shard.step] at hStep
      split at hStep
      · cases hStep
      · split at hStep
        case isTrue hHeight =>
            rw [if_pos hHeight, ← Option.some.inj hStep]
            exact h.commitBlock blk true
        case isFalse hHeight =>
            rw [if_neg hHeight, List.append_nil, ← Option.some.inj hStep]
            exact h
  | updateSnapshot =>
      simp only [List.filterMap_cons, Event.block?, List.filterMap_nil, List.append_nil]
      simp only [Shard.step] at hStep
      split at hStep
      · rw [← Option.some.inj hStep]
        exact h.updateSnapshot false
      · cases hStep
  | takeSnapshot tx =>
      simp only [List.filterMap_cons, Event.block?, List.filterMap_nil, List.append_nil]
      rw [← Option.some.inj hStep]
      exact ⟨h.height, h.stored, h.snapshot, Slots.forall_mem_concat h.readers h.snapshot⟩

/-- The shard as a view of the unspent hash set: the database is the fold over
the accepted blocks, in the range of the shard, and a transaction that is being
checked is answered from the fold at the height that the answer names. -/
structure Refines (prefixRange : ShardRange) (uhsIds : Finset Hash) (bestBlockHeight : Nat)
    (chain : List Block) (threads : Threads) : Prop where
  contiguous : chain.map Block.height = List.range' (bestBlockHeight + 1) chain.length
  height : threads.shard.bestBlockHeight = bestBlockHeight + chain.length
  stored : threads.shard.db = (uhsAfter uhsIds chain).filter
    fun uhsHash => hashInShardRange prefixRange uhsHash
  answers : ∀ reader ∈ threads.readers, 1 ≤ reader.1.snpHeight → reader.2.inputs ≠ [] →
    bestBlockHeight ≤ reader.1.snpHeight ∧
    reader.1.snpHeight ≤ threads.shard.bestBlockHeight ∧
    reader.1.digestTransaction reader.2 = answerFor prefixRange
      (uhsAfter uhsIds (chain.take (reader.1.snpHeight - bestBlockHeight)))
      reader.1.snpHeight reader.2

/-- A block that fits, a transaction that is checked before the snapshot is
updated and after it, and a block that does not fit. -/
def overtaken : List Event :=
  let spend := .unattested (.ofByte 4) [.ofByte 2] []
  [.digestBlock ⟨1, [.unattested (.ofByte 3) [.ofByte 1] [.ofByte 2]]⟩, .takeSnapshot spend,
    .updateSnapshot, .takeSnapshot spend, .digestBlock ⟨3, []⟩]

end Runs

end OpenCbdc.Shard

import OpenCbdc.Atomizer.Messages
import OpenCbdc.Library.Ledger

/-! A shard of the atomizer architecture. It follows the blocks and attests
the inputs of transactions that are in its range. -/
namespace OpenCbdc

/-- What a transaction does to the unspent hash set. -/
def CompactTx.moves : Ledger.Moves CompactTx Hash :=
  { consumed := CompactTx.inputs, created := CompactTx.uhsOutputs }

/-- `shard::shard`. The database is a set of UHS IDs; the snapshot is what
transactions are checked against. -/
structure Shard where
  prefixRange : ShardRange
  db : Finset Hash
  bestBlockHeight : Nat
  snp : Finset Hash
  snpHeight : Nat

namespace Shard

def isOutputOnShard (shard : Shard) (uhsHash : Hash) : Bool :=
  hashInShardRange shard.prefixRange uhsHash

def updateSnapshot (shard : Shard) : Shard :=
  { shard with snp := shard.db, snpHeight := shard.bestBlockHeight }

/-- `shard::open_db` on a database that holds UHS IDs but no block height. -/
def openDb (prefixRange : ShardRange) (uhsIds : Finset Hash) : Shard :=
  updateSnapshot
    { prefixRange := prefixRange
      db := uhsIds.filter fun uhsHash => hashInShardRange prefixRange uhsHash
      bestBlockHeight := 0
      snp := ∅
      snpHeight := 0 }

/-- The writes of `digest_block` for one transaction. -/
def writeTx (prefixRange : ShardRange) (db : Finset Hash) (tx : CompactTx) : Finset Hash :=
  (db ∪ inRange prefixRange tx.uhsOutputs) \ inRange prefixRange tx.inputs

/-- `digest_block` for a block that fits, up to the write of the batch. -/
def commitBlock (shard : Shard) (blk : Block) : Shard :=
  { shard with
    db := blk.transactions.foldl (writeTx shard.prefixRange) shard.db
    bestBlockHeight := shard.bestBlockHeight + 1 }

def digestBlock (shard : Shard) (blk : Block) : Shard × Bool :=
  if blk.height = shard.bestBlockHeight + 1 then
    (updateSnapshot (commitBlock shard blk), true)
  else (shard, false)

/-- The loop of `digest_transaction` from an input index on: the attested
indices and the inputs that do not exist. -/
def checkInputs (shard : Shard) : Nat → List Hash → List Nat × List Hash
  | _, [] => ([], [])
  | i, inp :: rest =>
      let (attestations, dneInputs) := checkInputs shard (i + 1) rest
      if shard.isOutputOnShard inp then
        if inp ∈ shard.snp then (i :: attestations, dneInputs)
        else (attestations, inp :: dneInputs)
      else (attestations, dneInputs)

def digestTransaction (shard : Shard) (tx : CompactTx) : Except TxError TxNotifyRequest :=
  if shard.snpHeight = 0 then .error ⟨tx.id, .sync⟩
  else if tx.inputs = [] then .error ⟨tx.id, .inputsDne []⟩
  else
    let (attestations, dneInputs) := shard.checkInputs 0 tx.inputs
    if dneInputs = [] then
      .ok { tx := tx, attestations := attestations, blockHeight := shard.snpHeight }
    else .error ⟨tx.id, .inputsDne dneInputs⟩

variable {shard : Shard}

/-- An attested index belongs to an input that the snapshot holds. -/
theorem of_mem_checkInputs {start index : Nat} {inputs : List Hash}
    (h : index ∈ (shard.checkInputs start inputs).1) :
    start ≤ index ∧ ∃ inp ∈ shard.snp, inputs[index - start]? = some inp := by
  induction inputs generalizing start with
  | nil => cases h
  | cons first rest ih =>
      have hRest : index ∈ (shard.checkInputs (start + 1) rest).1 →
          start ≤ index ∧ ∃ inp ∈ shard.snp, (first :: rest)[index - start]? = some inp := by
        intro hIndex
        obtain ⟨hLe, inp, hInp, hPlace⟩ := ih hIndex
        have hSub : index - start = index - (start + 1) + 1 := by omega
        rw [hSub, List.getElem?_cons_succ]
        exact ⟨by omega, inp, hInp, hPlace⟩
      simp only [checkInputs] at h
      split at h
      · split at h
        case isTrue hSnp =>
            rcases List.mem_cons.mp h with rfl | hLater
            · exact ⟨Nat.le_refl _, first, hSnp, by simp⟩
            · exact hRest hLater
        case isFalse => exact hRest h
      · exact hRest h

/-- What a notification says about the snapshot it was made from. -/
theorem digestTransaction_ok {tx : CompactTx} {notif : TxNotifyRequest}
    (h : shard.digestTransaction tx = .ok notif) :
    notif.tx = tx ∧ 0 < shard.snpHeight ∧ notif.blockHeight = shard.snpHeight ∧
      ∀ index ∈ notif.attestations, ∃ inp ∈ shard.snp, tx.inputs[index]? = some inp := by
  rw [digestTransaction] at h
  split at h
  · cases h
  case isFalse hHeight =>
      split at h
      · cases h
      · simp only at h
        split at h
        · obtain rfl := Except.ok.inj h
          refine ⟨rfl, Nat.pos_of_ne_zero hHeight, rfl, ?_⟩
          intro index hIndex
          exact (of_mem_checkInputs hIndex).2
        · cases h

/-- The writes of a block are the moves of its transactions, as far as they
concern the range of the shard. -/
theorem foldl_writeTx (range : ShardRange) (coins : Finset Hash) (txs : List CompactTx) :
    txs.foldl (writeTx range) (coins.filter fun uhsHash => hashInShardRange range uhsHash) =
      (CompactTx.moves.unspent coins txs).filter fun uhsHash => hashInShardRange range uhsHash := by
  induction txs generalizing coins with
  | nil => rfl
  | cons tx rest ih =>
      have hTx : writeTx range (coins.filter fun uhsHash => hashInShardRange range uhsHash) tx =
          (CompactTx.moves.spend coins tx).filter
            fun uhsHash => hashInShardRange range uhsHash := by
        ext uhsHash
        by_cases hRange : hashInShardRange range uhsHash = true <;>
          simp [writeTx, Ledger.Moves.spend, CompactTx.moves, hRange]
      rw [List.foldl_cons, hTx]
      exact ih (CompactTx.moves.spend coins tx)

/-- The shard has digested the blocks of a ledger up to its best height. -/
structure Follows (genesis : Finset Hash) (ledger : Ledger CompactTx) (shard : Shard) : Prop where
  height_le : shard.bestBlockHeight ≤ ledger.blocks.length
  db : shard.db = (ledger.asOf CompactTx.moves genesis shard.bestBlockHeight).filter
    fun uhsHash => hashInShardRange shard.prefixRange uhsHash
  snp : shard.snp = shard.db
  snpHeight : shard.snpHeight = shard.bestBlockHeight

variable {genesis : Finset Hash} {ledger longer : Ledger CompactTx}

theorem Follows.openDb (range : ShardRange) : Follows genesis ledger (openDb range genesis) where
  height_le := Nat.zero_le _
  db := rfl
  snp := rfl
  snpHeight := rfl

/-- Growth of the ledger leaves a shard behind, but not wrong. -/
theorem Follows.later (h : Follows genesis ledger shard)
    (hPrefix : ledger.blocks <+: longer.blocks) : Follows genesis longer shard where
  height_le := h.height_le.trans hPrefix.length_le
  db := by rw [Ledger.asOf_eq_of_prefix hPrefix h.height_le, h.db]
  snp := h.snp
  snpHeight := h.snpHeight

/-- A shard that digests a block of the ledger follows it. -/
theorem Follows.digestBlock (h : Follows genesis ledger shard) {blk : Block}
    (hBlock : ledger.blocks[blk.height - 1]? = some blk.transactions) :
    Follows genesis ledger (shard.digestBlock blk).1 := by
  rw [Shard.digestBlock]
  split
  case isTrue hHeight =>
      rw [hHeight, Nat.add_sub_cancel] at hBlock
      have hTake : ledger.blocks.take (shard.bestBlockHeight + 1) =
          ledger.blocks.take shard.bestBlockHeight ++ [blk.transactions] := by
        rw [List.take_add_one, hBlock, Option.toList_some]
      refine ⟨(List.getElem?_eq_some_iff.mp hBlock).1, ?_, rfl, rfl⟩
      simp only [updateSnapshot, commitBlock]
      rw [h.db, foldl_writeTx, Ledger.asOf, Ledger.asOf, hTake, List.flatten_append,
        Ledger.Moves.unspent_append]
      simp
  case isFalse => exact h

end Shard
end OpenCbdc

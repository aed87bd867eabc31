import OpenCbdc.LockingShard.Shard

/-! One distributed transaction of a coordinator: the batch it is built from,
its three phases and the requests it sends to the shards. A phase launches its
requests at once and then waits for them in the order of the shards. -/
namespace OpenCbdc

inductive DtxState where
  | start
  | prepare
  | commit
  | discard
  | done
  | failed
deriving DecidableEq

/-- `distributed_tx`. Of the shard interfaces only the ranges are kept; what the
shards answer and which callbacks are set comes from the environment. -/
structure DistributedTx where
  dtxId : Hash
  shardRanges : List ShardRange
  txs : List (List CompactTx)
  fullTxs : List CompactTx
  txIdxs : List (List Nat)
  state : DtxState
  completeTxs : List Bool
deriving DecidableEq

/-- A request on its way to the shard with this index. -/
structure Rpc where
  shard : Nat
  request : LockingShard.Request
deriving DecidableEq

namespace DistributedTx

/-- The branches of a coordinator that end its process. -/
inductive Fatal where
  | notEnoughStatuses (dtxId : Hash) (expected got : Nat)
  | incorrectStatusCount (dtxId : Hash) (expected got : Nat)
deriving DecidableEq

/-- The callbacks that are set, and the answers of the shard interfaces. -/
structure Env where
  prepareCb : Option (Hash → List CompactTx → Bool)
  commitCb : Option (Hash → List Bool → List (List Nat) → Bool)
  discardCb : Option (Hash → Bool)
  doneCb : Option (Hash → Bool)
  lockOutputs : Nat → List CompactTx → Hash → Option (List Bool)
  applyOutputs : Nat → List Bool → Hash → Bool
  discardDtx : Nat → Hash → Bool

/-- What a phase leaves behind: the dtx, the requests sent and the result. -/
structure Outcome (α : Type) where
  dtx : DistributedTx
  sent : List Rpc
  result : α

def new (dtxId : Hash) (shardRanges : List ShardRange) : DistributedTx :=
  { dtxId := dtxId
    shardRanges := shardRanges
    txs := shardRanges.map fun _ => []
    fullTxs := []
    txIdxs := shardRanges.map fun _ => []
    state := .start
    completeTxs := [] }

/-- The flag `active` of `add_tx`. -/
def active (range : ShardRange) (tx : CompactTx) : Bool :=
  hashInShardRange range tx.id || tx.inputs.any (hashInShardRange range) ||
    tx.uhsOutputs.any (hashInShardRange range)

def addTx (dtx : DistributedTx) (tx : CompactTx) : DistributedTx × Nat :=
  ({ dtx with
      txs := List.zipWith (fun range txs => if active range tx then txs ++ [tx] else txs)
        dtx.shardRanges dtx.txs
      txIdxs := List.zipWith
        (fun range idxs => if active range tx then idxs ++ [dtx.fullTxs.length] else idxs)
        dtx.shardRanges dtx.txIdxs
      fullTxs := dtx.fullTxs ++ [tx] }, dtx.fullTxs.length)

/-- Add the transactions of a batch one after the other and keep the indices
that are returned. -/
def addTxs (dtx : DistributedTx) (batch : List CompactTx) : DistributedTx × List Nat :=
  batch.foldl (fun sofar tx =>
    let next := sofar.1.addTx tx
    (next.1, sofar.2 ++ [next.2])) (dtx, [])

def recoverPrepare (dtx : DistributedTx) (txs : List CompactTx) : DistributedTx :=
  ({ dtx with state := .prepare }.addTxs txs).1

def recoverCommit (dtx : DistributedTx) (completeTxs : List Bool)
    (txIdxs : List (List Nat)) : DistributedTx :=
  { dtx with state := .commit, txIdxs := txIdxs, completeTxs := completeTxs }

/-- `recover_discard`: neither the transactions nor their shards are known. -/
def recoverDiscard (dtx : DistributedTx) : DistributedTx := { dtx with state := .discard }

/-- The shards that the loops of the three phases do not skip. -/
def participants (dtx : DistributedTx) : List Nat :=
  (List.range dtx.shardRanges.length).filter fun shard => !(dtx.txIdxs.getD shard []).isEmpty

def lockRpc (dtx : DistributedTx) (shard : Nat) : Rpc :=
  ⟨shard, ⟨dtx.dtxId, .lock (dtx.txs.getD shard [])⟩⟩

/-- `shard_complete_txs`: the decisions of the transactions of one shard. -/
def shardCompleteTxs (dtx : DistributedTx) (completeTxs : List Bool) (shard : Nat) : List Bool :=
  (dtx.txIdxs.getD shard []).map fun idx => completeTxs.getD idx false

def applyRpc (dtx : DistributedTx) (completeTxs : List Bool) (shard : Nat) : Rpc :=
  ⟨shard, ⟨dtx.dtxId, .apply (dtx.shardCompleteTxs completeTxs shard)⟩⟩

def discardRpc (dtx : DistributedTx) (shard : Nat) : Rpc :=
  ⟨shard, ⟨dtx.dtxId, .discard⟩⟩

/-- The inner loop of `prepare` over the statuses of one shard. -/
def tally (ret : List Bool) (idxs : List Nat) (statuses : List Bool) : List Bool :=
  (idxs.zip statuses).foldl
    (fun ret entry => if entry.2 then ret else ret.set entry.1 false) ret

/-- The loop of `prepare` over its futures. -/
def gather (dtxId : Hash) :
    List Bool → List (List Nat × Option (List Bool)) → Except Fatal (Option (List Bool))
  | ret, [] => .ok (some ret)
  | _, (_, none) :: _ => .ok none
  | ret, (idxs, some statuses) :: rest =>
      if statuses.length = idxs.length then gather dtxId (tally ret idxs statuses) rest
      else .error (.notEnoughStatuses dtxId idxs.length statuses.length)

/-- The loop of `prepare` over the answers to its lock requests. -/
def combine (dtx : DistributedTx) (answers : Nat → Option (List Bool)) :
    Except Fatal (Option (List Bool)) :=
  gather dtx.dtxId (List.replicate dtx.fullTxs.length true)
    (dtx.participants.map fun shard => (dtx.txIdxs.getD shard [], answers shard))

/-- `prepare`. The transactions are moved out of `m_txs` here; nothing reads
them afterwards. -/
def prepare (env : Env) (dtx : DistributedTx) :
    Except Fatal (Outcome (Option (List Bool))) :=
  if env.prepareCb.all fun cb => cb dtx.dtxId dtx.fullTxs then
    let sent := dtx.participants.map dtx.lockRpc
    match dtx.combine fun shard => env.lockOutputs shard (dtx.txs.getD shard []) dtx.dtxId with
    | .error fatal => .error fatal
    | .ok none => .ok ⟨{ dtx with state := .failed }, sent, none⟩
    | .ok (some ret) => .ok ⟨{ dtx with state := .commit }, sent, some ret⟩
  else .ok ⟨{ dtx with state := .failed }, [], none⟩

def commit (env : Env) (dtx : DistributedTx) (completeTxs : List Bool) : Outcome Bool :=
  if env.commitCb.all fun cb => cb dtx.dtxId completeTxs dtx.txIdxs then
    let sent := dtx.participants.map (dtx.applyRpc completeTxs)
    if dtx.participants.all fun shard =>
        env.applyOutputs shard (dtx.shardCompleteTxs completeTxs shard) dtx.dtxId then
      ⟨{ dtx with state := .discard }, sent, true⟩
    else ⟨{ dtx with state := .failed }, sent, false⟩
  else ⟨{ dtx with state := .failed }, [], false⟩

def discard (env : Env) (dtx : DistributedTx) : Outcome Bool :=
  if env.discardCb.all fun cb => cb dtx.dtxId then
    let sent := dtx.participants.map dtx.discardRpc
    if (dtx.participants.all fun shard => env.discardDtx shard dtx.dtxId) &&
        env.doneCb.all fun cb => cb dtx.dtxId then
      ⟨{ dtx with state := .done }, sent, true⟩
    else ⟨{ dtx with state := .failed }, sent, false⟩
  else ⟨{ dtx with state := .failed }, [], false⟩

/-- The first block of `execute`; the result tells whether to go on. -/
def executePrepare (env : Env) (dtx : DistributedTx) : Except Fatal (Outcome Bool) :=
  if dtx.state = .prepare ∨ dtx.state = .start then
    match dtx.prepare env with
    | .error fatal => .error fatal
    | .ok ⟨after, sent, none⟩ => .ok ⟨after, sent, false⟩
    | .ok ⟨after, sent, some ret⟩ =>
        if ret.length = after.fullTxs.length then
          .ok ⟨{ after with completeTxs := ret }, sent, true⟩
        else .error (.incorrectStatusCount dtx.dtxId after.fullTxs.length ret.length)
  else .ok ⟨dtx, [], true⟩

/-- The second block of `execute`. -/
def executeCommit (env : Env) (dtx : DistributedTx) : Outcome Bool :=
  if dtx.state = .commit then dtx.commit env dtx.completeTxs else ⟨dtx, [], true⟩

/-- The third block of `execute`. -/
def executeDiscard (env : Env) (dtx : DistributedTx) : Outcome Bool :=
  if dtx.state = .discard then dtx.discard env else ⟨dtx, [], true⟩

def execute (env : Env) (dtx : DistributedTx) :
    Except Fatal (Outcome (Option (List Bool))) :=
  match dtx.executePrepare env with
  | .error fatal => .error fatal
  | .ok ⟨prepared, locks, false⟩ => .ok ⟨prepared, locks, none⟩
  | .ok ⟨prepared, locks, true⟩ =>
      match prepared.executeCommit env with
      | ⟨committed, applies, false⟩ => .ok ⟨committed, locks ++ applies, none⟩
      | ⟨committed, applies, true⟩ =>
          match committed.executeDiscard env with
          | ⟨discarded, discards, false⟩ => .ok ⟨discarded, locks ++ applies ++ discards, none⟩
          | ⟨discarded, discards, true⟩ =>
              .ok ⟨discarded, locks ++ applies ++ discards, some discarded.completeTxs⟩

end DistributedTx
end OpenCbdc

import OpenCbdc.Common.CacheSet
import OpenCbdc.Library.Table
import OpenCbdc.Transaction.CompactTx

/-! The in-memory locking shard and the requests its replicated state machine
processes. Every method that changes the tables takes the shard's mutex for its
whole body, and `check_tx_id` reads only the cache of completed transactions, so
a call is one atomic transition. Assertions are left out, as they are in a
release build.
A call of `fatal` ends the process; the value it carries is what it logs. -/
namespace OpenCbdc

/-- `locking_shard::prepared_dtx`. A `locking_shard::tx` holds nothing but its
compact transaction. -/
structure PreparedDtx where
  txs : List CompactTx
  results : List Bool
deriving DecidableEq

/-- `locking_shard::locking_shard` with the range of its interface class. -/
structure LockingShard where
  outputRange : ShardRange
  running : Bool
  uhs : Finset Hash
  locked : Finset Hash
  preparedDtxs : Finmap fun _ : Hash => PreparedDtx
  appliedDtxs : Finset Hash
  completedTxs : CacheSet Hash
  opts : Options

namespace LockingShard

/-- The branches of `apply_outputs` that end the process. -/
inductive Fatal where
  | dtxNotFound (dtxId : Hash)
  | wrongFlagCount (dtxId : Hash) (flags txs : Nat)
deriving DecidableEq

/-- A shard after its constructor and the reading of a pre-seed file. -/
def initial (outputRange : ShardRange) (completedTxsCacheSize : Nat) (opts : Options)
    (preseed : Finset Hash) : LockingShard :=
  { outputRange := outputRange
    running := true
    uhs := preseed
    locked := ∅
    preparedDtxs := ∅
    appliedDtxs := ∅
    completedTxs := CacheSet.empty completedTxsCacheSize
    opts := opts }

def relevantInputs (shard : LockingShard) (tx : CompactTx) : Finset Hash :=
  inRange shard.outputRange tx.inputs

def relevantOutputs (shard : LockingShard) (tx : CompactTx) : Finset Hash :=
  inRange shard.outputRange tx.uhsOutputs

/-- One round of the locking loop: the ID moves from the UHS to the lock set. -/
def lockInput (shard : LockingShard) (uhsId : Hash) : LockingShard :=
  if hashInShardRange shard.outputRange uhsId then
    { shard with uhs := shard.uhs.erase uhsId, locked := insert uhsId shard.locked }
  else shard

/-- `check_and_lock_tx`. Nothing is locked unless every relevant input is
present and unlocked. -/
def checkAndLockTx (crypto : Crypto) (shard : LockingShard) (tx : CompactTx) :
    LockingShard × Bool :=
  if checkAttestations crypto tx shard.opts &&
      tx.inputs.all (fun uhsId =>
        !(hashInShardRange shard.outputRange uhsId && decide (uhsId ∉ shard.uhs))) then
    (tx.inputs.foldl lockInput shard, true)
  else (shard, false)

/-- The loop of `lock_outputs` over the batch. -/
def lockTxs (crypto : Crypto) : LockingShard → List CompactTx → LockingShard × List Bool
  | shard, [] => (shard, [])
  | shard, tx :: rest =>
      let first := checkAndLockTx crypto shard tx
      let later := lockTxs crypto first.1 rest
      (later.1, first.2 :: later.2)

/-- `lock_outputs`. A dtx that is still prepared answers with its stored
results; nothing else remembers that a dtx was locked before. -/
def lockOutputs (crypto : Crypto) (shard : LockingShard) (txs : List CompactTx)
    (dtxId : Hash) : LockingShard × Option (List Bool) :=
  if shard.running then
    match shard.preparedDtxs.lookup dtxId with
    | some prepared => (shard, some prepared.results)
    | none =>
        let result := lockTxs crypto shard txs
        ({ result.1 with
            preparedDtxs := Table.emplace result.1.preparedDtxs dtxId
              { txs := txs, results := result.2 } }, some result.2)
  else (shard, none)

/-- One round of the output loop of `apply_outputs`. -/
def applyOutput (complete : Bool) (shard : LockingShard) (uhsId : Hash) : LockingShard :=
  if hashInShardRange shard.outputRange uhsId && complete then
    { shard with uhs := insert uhsId shard.uhs }
  else shard

/-- One round of the input loop of `apply_outputs`. The lock is removed whoever
took it; an aborted transaction puts the ID back if there was a lock at all. -/
def applyInput (complete : Bool) (shard : LockingShard) (uhsId : Hash) : LockingShard :=
  if hashInShardRange shard.outputRange uhsId then
    let wasLocked := decide (uhsId ∈ shard.locked)
    { shard with
      locked := shard.locked.erase uhsId
      uhs := if !complete && wasLocked then insert uhsId shard.uhs else shard.uhs }
  else shard

/-- The body of the loop of `apply_outputs`. The transaction ID is cached
without a look at the completion flag. -/
def applyTx (shard : LockingShard) (entry : CompactTx × Bool) : LockingShard :=
  let cached :=
    if hashInShardRange shard.outputRange entry.1.id then
      { shard with completedTxs := (shard.completedTxs.add entry.1.id).1 }
    else shard
  entry.1.inputs.foldl (applyInput entry.2)
    (entry.1.uhsOutputs.foldl (applyOutput entry.2) cached)

/-- The loop of `apply_outputs` over the transactions and their flags. -/
def applyTxs (shard : LockingShard) (entries : List (CompactTx × Bool)) : LockingShard :=
  entries.foldl applyTx shard

def applyOutputs (shard : LockingShard) (completeTxs : List Bool) (dtxId : Hash) :
    Except Fatal (LockingShard × Bool) :=
  if shard.running then
    match shard.preparedDtxs.lookup dtxId with
    | none =>
        if dtxId ∈ shard.appliedDtxs then .ok (shard, true)
        else .error (.dtxNotFound dtxId)
    | some dtx =>
        if completeTxs.length = dtx.txs.length then
          let applied := shard.applyTxs (dtx.txs.zip completeTxs)
          .ok ({ applied with
            preparedDtxs := applied.preparedDtxs.erase dtxId
            appliedDtxs := insert dtxId applied.appliedDtxs }, true)
        else .error (.wrongFlagCount dtxId completeTxs.length dtx.txs.length)
  else .ok (shard, false)

def discardDtx (shard : LockingShard) (dtxId : Hash) : LockingShard × Bool :=
  if shard.running then
    ({ shard with appliedDtxs := shard.appliedDtxs.erase dtxId }, true)
  else (shard, false)

def checkUnspent (shard : LockingShard) (uhsId : Hash) : Option Bool :=
  some (decide (uhsId ∈ shard.uhs) || decide (uhsId ∈ shard.locked))

def checkTxId (shard : LockingShard) (txId : Hash) : Option Bool :=
  some (shard.completedTxs.contains txId)

/-- The parameters of an `rpc::request`. -/
inductive Params where
  | lock (txs : List CompactTx)
  | apply (completeTxs : List Bool)
  | discard
deriving DecidableEq

structure Request where
  dtxId : Hash
  params : Params
deriving DecidableEq

/-- What the three methods return. -/
inductive Reply where
  | lock (results : Option (List Bool))
  | apply (success : Bool)
  | discard (success : Bool)
deriving DecidableEq

/-- The dispatch of `state_machine::process_request` on the parameters. -/
def processRequest (crypto : Crypto) (shard : LockingShard) (request : Request) :
    Except Fatal (LockingShard × Reply) :=
  match request.params with
  | .lock txs =>
      let result := shard.lockOutputs crypto txs request.dtxId
      .ok (result.1, .lock result.2)
  | .apply completeTxs =>
      match shard.applyOutputs completeTxs request.dtxId with
      | .error fatal => .error fatal
      | .ok result => .ok (result.1, .apply result.2)
  | .discard =>
      let result := shard.discardDtx request.dtxId
      .ok (result.1, .discard result.2)

/-- A request as a transition of the running process. A process that a request
ended takes no further request. -/
def step (crypto : Crypto) (shard : LockingShard) (request : Request) : Option LockingShard :=
  match shard.processRequest crypto request with
  | .error _ => none
  | .ok result => some result.1

end LockingShard
end OpenCbdc

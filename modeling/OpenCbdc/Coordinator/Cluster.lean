import OpenCbdc.Coordinator.Commitment
import OpenCbdc.Coordinator.StateMachine
import OpenCbdc.Library.ReplicatedLog

/-! Coordinators, their replicated log and the locking shards they drive. A
dtx is run by an executor, a thread of one node. Nodes are deposed and elected
at any time, and an executor of a deposed node goes on until `stop` has joined
it. A request that was sent stays deliverable for ever, any number of times, so
late messages and the retries of the shard client are both covered. -/
namespace OpenCbdc

/-- Who handed an entry to the log: an executor, or the recovery of a node,
whose `get` commands are numbered. -/
inductive Author where
  | executor (id : Nat)
  | recovery (node id : Nat)
deriving DecidableEq

/-- A command in the log. Its author stands for the log index by which
`replicate_sync` finds the result of its own command. -/
structure Entry where
  author : Author
  command : SmCommand
deriving DecidableEq

/-- Where `execute` is. A callback is about to be called, its command waits to
be replicated, or the answers of the shards are awaited. -/
inductive Stage where
  | prepareCb
  | prepareWait
  | locking (answers : Nat → Option (List Bool))
  | commitCb
  | commitWait
  | applying (acks : Finset Nat)
  | discardCb
  | discardWait
  | discarding (acks : Finset Nat)
  | doneCb
  | doneWait
  | done
  | failed

/-- A thread that executes a dtx. The term is the one in which its dtx entered
the log or was read back from it. The stage stands for `m_state`. -/
structure Executor where
  node : Nat
  term : Nat
  dtx : DistributedTx
  stage : Stage

namespace Executor

/-- The command of the callback that is about to be called or is waiting. -/
def command (executor : Executor) : Option SmCommand :=
  let dtx := executor.dtx
  match executor.stage with
  | .prepareCb | .prepareWait => some (.prepare dtx.dtxId dtx.fullTxs)
  | .commitCb | .commitWait => some (.commit dtx.dtxId dtx.completeTxs dtx.txIdxs)
  | .discardCb | .discardWait => some (.discard dtx.dtxId)
  | .doneCb | .doneWait => some (.done dtx.dtxId)
  | _ => none

/-- The leader has accepted the command of a callback. -/
def accepted (executor : Executor) (term : Nat) : Option Executor :=
  match executor.stage with
  | .prepareCb => some { executor with term := term, stage := .prepareWait }
  | .commitCb => some { executor with stage := .commitWait }
  | .discardCb => some { executor with stage := .discardWait }
  | .doneCb => some { executor with stage := .doneWait }
  | _ => none

/-- The callback returns true. -/
def replicated (executor : Executor) : Option Executor :=
  match executor.stage with
  | .prepareWait => some { executor with stage := .locking fun _ => none }
  | .commitWait => some { executor with stage := .applying ∅ }
  | .discardWait => some { executor with stage := .discarding ∅ }
  | .doneWait => some { executor with stage := .done }
  | _ => none

/-- The requests that are launched on entering a stage. -/
def rpcs (executor : Executor) : List Rpc :=
  let dtx := executor.dtx
  match executor.stage with
  | .locking _ => dtx.participants.map dtx.lockRpc
  | .applying _ => dtx.participants.map (dtx.applyRpc dtx.completeTxs)
  | .discarding _ => dtx.participants.map dtx.discardRpc
  | _ => []

/-- The reply of a shard reaches the executor. -/
def answered (executor : Executor) (shard : Nat) (reply : LockingShard.Reply) : Executor :=
  match executor.stage, reply with
  | .locking answers, .lock (some results) =>
      { executor with stage := .locking (Function.update answers shard (some results)) }
  | .applying acks, .apply true => { executor with stage := .applying (insert shard acks) }
  | .discarding acks, .discard true => { executor with stage := .discarding (insert shard acks) }
  | _, _ => executor

/-- Every participant has answered and `execute` goes on. A wrong number of
statuses ends the process. -/
def finished (executor : Executor) : Option Executor :=
  let dtx := executor.dtx
  match executor.stage with
  | .locking answers =>
      if dtx.participants.all fun shard => (answers shard).isSome then
        match dtx.combine answers with
        | .ok (some ret) =>
            some { executor with dtx := { dtx with completeTxs := ret }, stage := .commitCb }
        | _ => some { executor with stage := .failed }
      else none
  | .applying acks =>
      if dtx.participants.all fun shard => decide (shard ∈ acks) then
        some { executor with stage := .discardCb }
      else none
  | .discarding acks =>
      if dtx.participants.all fun shard => decide (shard ∈ acks) then
        some { executor with stage := .doneCb }
      else none
  | _ => none

/-- The thread has ended, so joining it does not block. -/
def ended (executor : Executor) : Bool :=
  match executor.stage with
  | .done | .failed => true
  | _ => false

end Executor

/-- `recovery_func` of a node: its `get` waits to be replicated, or the state
it was answered with is being worked off. -/
inductive Recovery where
  | idle
  | awaiting (id term : Nat)
  | snapshot (term : Nat) (state : CoordinatorState)

structure ShardConfig where
  outputRange : ShardRange
  completedTxsCacheSize : Nat
  opts : Options
  preseed : Finset Hash

def ShardConfig.start (config : ShardConfig) : LockingShard :=
  .initial config.outputRange config.completedTxsCacheSize config.opts config.preseed

/-- A request together with the executor that waits for its answer. -/
structure Message where
  executor : Nat
  rpc : Rpc
deriving DecidableEq

/-- The whole system. `batches` holds the dtx IDs that were ever drawn, with the
transactions of their batch; `halted` tells that a command reached a fatal
branch of the state machine. -/
structure Cluster where
  shardRanges : List ShardRange
  shards : List LockingShard
  raft : ReplicatedLog Nat Entry
  sm : CoordinatorState
  halted : Bool
  batches : Finmap fun _ : Hash => List CompactTx
  executors : List Executor
  recoveries : Nat → Recovery
  gets : Nat
  sent : List Message

namespace Cluster

/-- Shards that know no dtx and coordinators without a leader's history. -/
def initial (configs : List ShardConfig) : Cluster :=
  { shardRanges := configs.map ShardConfig.outputRange
    shards := configs.map ShardConfig.start
    raft := { leader := 0, term := 0, log := [], tails := fun _ => [] }
    sm := .empty
    halted := false
    batches := ∅
    executors := []
    recoveries := fun _ => .idle
    gets := 0
    sent := [] }

/-- Replace an executor and send what its new stage launches. -/
def proceed (cluster : Cluster) (id : Nat) (executor : Executor) : Cluster :=
  { cluster with
    executors := cluster.executors.set id executor
    sent := cluster.sent ++ executor.rpcs.map fun rpc => ⟨id, rpc⟩ }

/-- Add an executor, which starts with the requests of its stage. -/
def spawn (cluster : Cluster) (executor : Executor) : Cluster :=
  { cluster with
    executors := cluster.executors ++ [executor]
    sent := cluster.sent ++ executor.rpcs.map fun rpc => ⟨cluster.executors.length, rpc⟩ }

/-- A batch with a new ID starts to execute. -/
def submit (cluster : Cluster) (node : Nat) (dtxId : Hash) (batch : List CompactTx) :
    Option Cluster :=
  if dtxId ∈ cluster.batches then none
  else some ({ cluster with batches := cluster.batches.insert dtxId batch }.spawn
    ⟨node, cluster.raft.term, .built dtxId cluster.shardRanges batch, .prepareCb⟩)

/-- An executor calls a callback and the log accepts its command. -/
def append (cluster : Cluster) (id : Nat) : Option Cluster :=
  match cluster.executors[id]? with
  | none => none
  | some executor =>
      if executor.node = cluster.raft.leader then
        match executor.command, executor.accepted cluster.raft.term with
        | some command, some after =>
            some { cluster with
              raft := cluster.raft.accept ⟨.executor id, command⟩
              executors := cluster.executors.set id after }
        | _, _ => none
      else none

/-- `recovery_func` asks for the outstanding dtxs. All executors of the node
have been joined before, by `stop` or by the recovery that failed. -/
def appendGet (cluster : Cluster) (node : Nat) : Option Cluster :=
  if node = cluster.raft.leader ∧
      ∀ executor ∈ cluster.executors, executor.node = node → executor.ended = true then
    some { cluster with
      raft := cluster.raft.accept ⟨.recovery node cluster.gets, .get⟩
      recoveries := Function.update cluster.recoveries node
        (.awaiting cluster.gets cluster.raft.term)
      gets := cluster.gets + 1 }
  else none

/-- The dtx that `recovery_func` sets up next, the stage that `execute` enters
with the callbacks that `batch_set_cbs` registers, and what is left to do. -/
def nextRecovered (shardRanges : List ShardRange) (state : CoordinatorState) (dtxId : Hash) :
    Option (DistributedTx × Stage × CoordinatorState) :=
  let fresh := DistributedTx.new dtxId shardRanges
  match state.prepareTxs.lookup dtxId, state.commitTxs.lookup dtxId with
  | some txs, _ => some (fresh.recoverPrepare txs, .locking fun _ => none,
      { state with prepareTxs := state.prepareTxs.erase dtxId })
  | none, some (completeTxs, txIdxs) => some (fresh.recoverCommit completeTxs txIdxs,
      .applying ∅, { state with commitTxs := state.commitTxs.erase dtxId })
  | none, none =>
      if dtxId ∈ state.discardTxs then
        some (fresh.recoverDiscard, .discarding ∅,
          { state with discardTxs := state.discardTxs.erase dtxId })
      else none

/-- `recovery_func` starts the executor of a dtx it was told about. -/
def recover (cluster : Cluster) (node : Nat) (dtxId : Hash) : Option Cluster :=
  match cluster.recoveries node with
  | .snapshot term state =>
      match nextRecovered cluster.shardRanges state dtxId with
      | none => none
      | some (dtx, stage, left) =>
          some ({ cluster with
            recoveries := Function.update cluster.recoveries node (.snapshot term left) }.spawn
              ⟨node, term, dtx, stage⟩)
  | _ => none

/-- A shard processes a request that was sent. A request that ends the shard's
process is no step; nothing of that shard moves afterwards. -/
def deliver (crypto : Crypto) (cluster : Cluster) (message : Message) (respond : Bool) :
    Option Cluster :=
  if message ∈ cluster.sent then
    match cluster.shards[message.rpc.shard]?, cluster.executors[message.executor]? with
    | some shard, some executor =>
        match shard.processRequest crypto message.rpc.request with
        | .error _ => none
        | .ok (next, reply) =>
            some { cluster with
              shards := cluster.shards.set message.rpc.shard next
              executors :=
                if respond then
                  cluster.executors.set message.executor
                    (executor.answered message.rpc.shard reply)
                else cluster.executors }
    | _, _ => none
  else none

/-- An executor has all its answers. -/
def finishRpc (cluster : Cluster) (id : Nat) : Option Cluster :=
  match cluster.executors[id]? with
  | none => none
  | some executor =>
      match executor.finished with
      | none => none
      | some after => some { cluster with executors := cluster.executors.set id after }

/-- An executor gives up or its process ends. -/
def fail (cluster : Cluster) (id : Nat) : Option Cluster :=
  match cluster.executors[id]? with
  | none => none
  | some executor =>
      if executor.ended then none
      else some { cluster with
        executors := cluster.executors.set id { executor with stage := .failed } }

/-- The author of a processed command learns of it. -/
def notify (cluster : Cluster) (entry : Entry) (reply : Option CoordinatorState) : Cluster :=
  match entry.author with
  | .executor id =>
      match cluster.executors[id]? with
      | none => cluster
      | some executor =>
          if executor.command = some entry.command then
            match executor.replicated with
            | none => cluster
            | some after => cluster.proceed id after
          else cluster
  | .recovery node id =>
      match cluster.recoveries node, reply with
      | .awaiting awaited term, some state =>
          if awaited = id then
            { cluster with
              recoveries := Function.update cluster.recoveries node (.snapshot term state) }
          else cluster
      | _, _ => cluster

/-- The state machine processes the next entry. Its author may be told of the
success or not. A fatal branch stops the state machine for good. -/
def commitNext (cluster : Cluster) (report : Bool) : Option Cluster :=
  if cluster.halted then none
  else
    match cluster.raft.commitNext with
    | none => none
    | some (entry, raft) =>
        match cluster.sm.commit entry.command with
        | .error _ => some { cluster with halted := true }
        | .ok (sm, reply) =>
            let processed := { cluster with raft := raft, sm := sm }
            some (if report then processed.notify entry reply else processed)

inductive Event where
  | elect (node : Nat)
  | copyLog (node count : Nat)
  | commitNext (report : Bool)
  | submit (node : Nat) (dtxId : Hash) (batch : List CompactTx)
  | append (id : Nat)
  | appendGet (node : Nat)
  | recover (node : Nat) (dtxId : Hash)
  | deliver (message : Message) (respond : Bool)
  | finishRpc (id : Nat)
  | fail (id : Nat)

def step (crypto : Crypto) (cluster : Cluster) : Event → Option Cluster
  | .elect node => some { cluster with raft := cluster.raft.elect node }
  | .copyLog node count =>
      if node = cluster.raft.leader then none
      else some { cluster with raft := cluster.raft.copyTo node count }
  | .commitNext report => cluster.commitNext report
  | .submit node dtxId batch => cluster.submit node dtxId batch
  | .append id => cluster.append id
  | .appendGet node => cluster.appendGet node
  | .recover node dtxId => cluster.recover node dtxId
  | .deliver message respond => cluster.deliver crypto message respond
  | .finishRpc id => cluster.finishRpc id
  | .fail id => cluster.fail id

end Cluster
end OpenCbdc

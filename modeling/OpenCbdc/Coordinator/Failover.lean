import OpenCbdc.Coordinator.PhaseLog
import OpenCbdc.LockingShard.Runs

/-! Agreement across leader changes. Whatever leaders crash, are deposed or
recover dtxs, and however late their requests arrive, the apply requests of a
dtx all carry the decision of the one commit command that was processed for it,
and that decision rests on lock results which the shards have stored. -/
namespace OpenCbdc.Cluster

open CoordinatorState DistributedTx TransitionSystem

/-- Lock results that a shard has stored at some time: the dtx, the shard, its
transactions and their results. -/
abbrev Record := Hash → Nat → List CompactTx → List Bool → Prop

section Facts

variable (shardRanges : List ShardRange) (batches : Finmap fun _ : Hash => List CompactTx)
variable (record : Record) (log : List SmCommand)

/-- The dtx has the lists that `add_tx` builds for the batch. -/
structure IsBuilt (batch : List CompactTx) (dtx : DistributedTx) : Prop where
  ranges : dtx.shardRanges = shardRanges
  txs : dtx.txs = shardRanges.map fun range => relevantTxs range batch
  fullTxs : dtx.fullTxs = batch
  txIdxs : dtx.txIdxs = shardRanges.map fun range => relevantIdxs range batch

/-- A transaction is completed only if every shard that takes part in it has
stored a true result for it. -/
def Backed (dtxId : Hash) (batch : List CompactTx) (decision : List Bool) : Prop :=
  ∀ (place : Nat) (tx : CompactTx), batch[place]? = some tx → decision[place]? = some true →
    ∀ (shard : Nat) (range : ShardRange), shardRanges[shard]? = some range →
      active range tx = true →
        ∃ results, record dtxId shard (relevantTxs range batch) results ∧
          results[position range batch place]? = some true

/-- What a command carries is what was submitted and answered. -/
def Grounded : SmCommand → Prop
  | .prepare dtxId txs => batches.lookup dtxId = some txs
  | .commit dtxId completeTxs txIdxs => ∃ batch, batches.lookup dtxId = some batch ∧
      completeTxs.length = batch.length ∧
      txIdxs = shardRanges.map (fun range => relevantIdxs range batch) ∧
      Backed shardRanges record dtxId batch completeTxs
  | _ => True

/-- What an executor has gathered before its decision is in the log. -/
def Progress (batch : List CompactTx) (executor : Executor) : Prop :=
  match executor.stage with
  | .locking answers => ∀ (shard : Nat) (results : List Bool) (range : ShardRange),
      answers shard = some results → shardRanges[shard]? = some range →
        record executor.dtx.dtxId shard (relevantTxs range batch) results
  | .commitCb | .commitWait => executor.dtx.completeTxs.length = batch.length ∧
      Backed shardRanges record executor.dtx.dtxId batch executor.dtx.completeTxs
  | _ => True

/-- The stages up to the replication of the decision. -/
def Undecided (executor : Executor) : Prop :=
  match executor.stage with
  | .prepareCb | .prepareWait | .locking _ | .commitCb | .commitWait => True
  | _ => False

def StageOk (executor : Executor) : Prop :=
  Undecided executor → ∃ batch, batches.lookup executor.dtx.dtxId = some batch ∧
    IsBuilt shardRanges batch executor.dtx ∧ Progress shardRanges record batch executor

/-- A lock request carries the part of the batch that concerns the shard; an
apply request carries the decision of a processed commit command. -/
def RpcOk (rpc : Rpc) : Prop :=
  match rpc.request.params with
  | .lock txs => ∃ batch range, batches.lookup rpc.request.dtxId = some batch ∧
      shardRanges[rpc.shard]? = some range ∧ txs = relevantTxs range batch
  | .apply flags => rpc.shard < shardRanges.length ∧ ∃ completeTxs txIdxs,
      SmCommand.commit rpc.request.dtxId completeTxs txIdxs ∈ log ∧
        flags = (txIdxs.getD rpc.shard []).map fun idx => completeTxs.getD idx false
  | .discard => True

end Facts

section Monotone

variable {shardRanges : List ShardRange} {batches larger : Finmap fun _ : Hash => List CompactTx}
variable {record later : Record} {log longer : List SmCommand}
variable (hBatches : ∀ dtxId batch, batches.lookup dtxId = some batch →
  larger.lookup dtxId = some batch)
variable (hRecord : ∀ dtxId shard txs results, record dtxId shard txs results →
  later dtxId shard txs results)

include hRecord in
theorem Backed.mono {dtxId : Hash} {batch : List CompactTx} {decision : List Bool}
    (h : Backed shardRanges record dtxId batch decision) :
    Backed shardRanges later dtxId batch decision := by
  intro place tx hTx hTrue shard range hRange hActive
  obtain ⟨results, hStored, hResult⟩ := h place tx hTx hTrue shard range hRange hActive
  exact ⟨results, hRecord _ _ _ _ hStored, hResult⟩

include hBatches hRecord

theorem Grounded.mono {command : SmCommand} (h : Grounded shardRanges batches record command) :
    Grounded shardRanges larger later command := by
  cases command with
  | prepare dtxId txs => exact hBatches dtxId txs h
  | commit dtxId completeTxs txIdxs =>
      obtain ⟨batch, hBatch, hLength, hIdxs, hBacked⟩ := h
      exact ⟨batch, hBatches dtxId batch hBatch, hLength, hIdxs, hBacked.mono hRecord⟩
  | discard dtxId => trivial
  | done dtxId => trivial
  | get => trivial

/-- What is known of an executor stays true as batches are submitted and results are stored.
-/
theorem StageOk.mono {executor : Executor}
    (h : StageOk shardRanges batches record executor) :
    StageOk shardRanges larger later executor := by
  intro hUndecided
  obtain ⟨batch, hBatch, hBuilt, hProgress⟩ := h hUndecided
  refine ⟨batch, hBatches _ batch hBatch, hBuilt, ?_⟩
  unfold Progress at hProgress ⊢
  split
  case h_1 answers hStage =>
      rw [hStage] at hProgress
      exact fun shard results range hAnswer hRange =>
        hRecord _ _ _ _ (hProgress shard results range hAnswer hRange)
  case h_2 hStage =>
      rw [hStage] at hProgress
      exact ⟨hProgress.1, hProgress.2.mono hRecord⟩
  case h_3 hStage =>
      rw [hStage] at hProgress
      exact ⟨hProgress.1, hProgress.2.mono hRecord⟩
  case h_4 => trivial

omit hRecord in
theorem RpcOk.mono (hLog : log ⊆ longer) {rpc : Rpc}
    (h : RpcOk shardRanges batches log rpc) : RpcOk shardRanges larger longer rpc := by
  unfold RpcOk at h ⊢
  split
  case h_1 txs hParams =>
      rw [hParams] at h
      obtain ⟨batch, range, hBatch, hRange, hTxs⟩ := h
      exact ⟨batch, range, hBatches _ batch hBatch, hRange, hTxs⟩
  case h_2 flags hParams =>
      rw [hParams] at h
      obtain ⟨hShard, completeTxs, txIdxs, hCommit, hFlags⟩ := h
      exact ⟨hShard, completeTxs, txIdxs, hLog hCommit, hFlags⟩
  case h_3 hParams => trivial

end Monotone

section Built

variable {shardRanges : List ShardRange} {batches : Finmap fun _ : Hash => List CompactTx}
variable {record : Record} {log : List SmCommand} {batch : List CompactTx} {dtx : DistributedTx}

theorem isBuilt_built (dtxId : Hash) (shardRanges : List ShardRange) (batch : List CompactTx) :
    IsBuilt shardRanges batch (built dtxId shardRanges batch) := by
  rw [built_eq]
  exact ⟨rfl, rfl, rfl, rfl⟩

theorem IsBuilt.participants (h : IsBuilt shardRanges batch dtx) :
    dtx.participants = (built dtx.dtxId shardRanges batch).participants := by
  rw [built_eq, DistributedTx.participants, h.ranges, h.txIdxs]
  rfl

theorem IsBuilt.combine (h : IsBuilt shardRanges batch dtx)
    (answers : Nat → Option (List Bool)) :
    dtx.combine answers = (built dtx.dtxId shardRanges batch).combine answers := by
  rw [DistributedTx.combine, h.participants, h.fullTxs, h.txIdxs, DistributedTx.combine]
  simp only [built_eq]

theorem IsBuilt.lockRpc_ok (h : IsBuilt shardRanges batch dtx)
    (hBatch : batches.lookup dtx.dtxId = some batch) :
    ∀ rpc ∈ dtx.participants.map dtx.lockRpc, RpcOk shardRanges batches log rpc := by
  rw [List.forall_mem_map]
  intro shard hShard
  rw [h.participants] at hShard
  obtain ⟨range, hRange, _⟩ := mem_participants_built.mp hShard
  exact ⟨batch, range, hBatch, hRange, by simp [h.txs, hRange]⟩

theorem applyRpc_ok {completeTxs : List Bool} (hRanges : dtx.shardRanges = shardRanges)
    (hCommit : SmCommand.commit dtx.dtxId completeTxs dtx.txIdxs ∈ log) :
    ∀ rpc ∈ dtx.participants.map (dtx.applyRpc completeTxs),
      RpcOk shardRanges batches log rpc := by
  rw [List.forall_mem_map]
  intro shard hShard
  rw [participants, List.mem_filter, List.mem_range, hRanges] at hShard
  exact ⟨hShard.1, completeTxs, dtx.txIdxs, hCommit, rfl⟩

theorem discardRpc_ok : ∀ rpc ∈ dtx.participants.map dtx.discardRpc,
    RpcOk shardRanges batches log rpc := by
  rw [List.forall_mem_map]
  exact fun _ _ => trivial

/-- The decision of an executor rests on the answers it was given. -/
theorem IsBuilt.backed (h : IsBuilt shardRanges batch dtx)
    {answers : Nat → Option (List Bool)} {decision : List Bool}
    (hAnswers : ∀ (shard : Nat) (results : List Bool) (range : ShardRange),
      answers shard = some results → shardRanges[shard]? = some range →
        record dtx.dtxId shard (relevantTxs range batch) results)
    (hCombine : dtx.combine answers = .ok (some decision)) :
    decision.length = batch.length ∧ Backed shardRanges record dtx.dtxId batch decision := by
  rw [h.combine] at hCombine
  constructor
  · have hLength := (gather_eq_some hCombine).1
    rw [built_eq] at hLength
    simpa using hLength
  · intro place tx hTx hTrue shard range hRange hActive
    obtain ⟨statuses, hStatuses, hStatus⟩ :=
      (combine_built_iff hCombine hTx).mp hTrue shard range hRange hActive
    exact ⟨statuses, hAnswers shard statuses range hStatuses hRange, hStatus⟩

/-- An executor goes on to a phase whose command has been processed. -/
theorem StageOk.replicated {before after : Executor} {command : SmCommand}
    (h : StageOk shardRanges batches record before)
    (hRanges : before.dtx.shardRanges = shardRanges)
    (hWaiting : before.command = some command) (hMoved : before.replicated = some after)
    (hLog : command ∈ log) :
    after.dtx = before.dtx ∧ StageOk shardRanges batches record after ∧
      ∀ rpc ∈ after.rpcs, RpcOk shardRanges batches log rpc := by
  unfold Executor.replicated at hMoved
  split at hMoved
  case h_1 hStage =>
      cases hMoved
      obtain ⟨batch, hBatch, hBuilt, _⟩ := h (by simp [Undecided, hStage])
      refine ⟨rfl, fun _ => ⟨batch, hBatch, hBuilt, ?_⟩, hBuilt.lockRpc_ok hBatch⟩
      intro shard results range hAnswer
      cases hAnswer
  case h_2 hStage =>
      cases hMoved
      simp only [Executor.command, hStage, Option.some_inj] at hWaiting
      subst hWaiting
      exact ⟨rfl, fun hUndecided => hUndecided.elim, applyRpc_ok hRanges hLog⟩
  case h_3 hStage =>
      cases hMoved
      exact ⟨rfl, fun hUndecided => hUndecided.elim, discardRpc_ok⟩
  case h_4 hStage =>
      cases hMoved
      exact ⟨rfl, fun hUndecided => hUndecided.elim, fun rpc hRpc => by cases hRpc⟩
  case h_5 => cases hMoved

/-- An executor hands over only what it was given and what it has gathered. -/
theorem StageOk.accepted {before after : Executor} {command : SmCommand} {term : Nat}
    (h : StageOk shardRanges batches record before) (hCalls : before.command = some command)
    (hMoved : before.accepted term = some after) :
    StageOk shardRanges batches record after ∧ Grounded shardRanges batches record command := by
  unfold Executor.accepted at hMoved
  split at hMoved
  case h_1 hStage =>
      cases hMoved
      simp only [Executor.command, hStage, Option.some_inj] at hCalls
      subst hCalls
      obtain ⟨batch, hBatch, hBuilt, _⟩ := h (by simp [Undecided, hStage])
      refine ⟨fun _ => ⟨batch, hBatch, hBuilt, trivial⟩, ?_⟩
      rw [Grounded, hBuilt.fullTxs]
      exact hBatch
  case h_2 hStage =>
      cases hMoved
      simp only [Executor.command, hStage, Option.some_inj] at hCalls
      subst hCalls
      obtain ⟨batch, hBatch, hBuilt, hProgress⟩ := h (by simp [Undecided, hStage])
      simp only [Progress, hStage] at hProgress
      exact ⟨fun _ => ⟨batch, hBatch, hBuilt, hProgress⟩,
        batch, hBatch, hProgress.1, hBuilt.txIdxs, hProgress.2⟩
  case h_3 hStage =>
      cases hMoved
      simp only [Executor.command, hStage, Option.some_inj] at hCalls
      subst hCalls
      exact ⟨fun hUndecided => hUndecided.elim, trivial⟩
  case h_4 hStage =>
      cases hMoved
      simp only [Executor.command, hStage, Option.some_inj] at hCalls
      subst hCalls
      exact ⟨fun hUndecided => hUndecided.elim, trivial⟩
  case h_5 => cases hMoved

/-- An answer to a lock request is recorded as the result of the shard for its part of the
batch. -/
theorem StageOk.answered {before : Executor} (h : StageOk shardRanges batches record before)
    {shard : Nat} {reply : LockingShard.Reply}
    (hReply : ∀ results, reply = .lock (some results) → ∀ batch range,
      batches.lookup before.dtx.dtxId = some batch → shardRanges[shard]? = some range →
        record before.dtx.dtxId shard (relevantTxs range batch) results) :
    StageOk shardRanges batches record (before.answered shard reply) := by
  unfold Executor.answered
  split
  case h_1 answers results hStage =>
      intro _
      obtain ⟨batch, hBatch, hBuilt, hProgress⟩ := h (by simp [Undecided, hStage])
      simp only [Progress, hStage] at hProgress
      refine ⟨batch, hBatch, hBuilt, fun other statuses range hAnswer hRange => ?_⟩
      rcases Table.of_update hAnswer with ⟨rfl, hNew⟩ | ⟨_, hOld⟩
      · cases hNew
        exact hReply results rfl batch range hBatch hRange
      · exact hProgress other statuses range hOld hRange
  case h_2 acks hStage => exact fun hUndecided => hUndecided.elim
  case h_3 acks hStage => exact fun hUndecided => hUndecided.elim
  case h_4 => exact h

/-- When the answers are complete, the decision that is combined from them rests on recorded
results only. -/
theorem StageOk.finished {before after : Executor}
    (h : StageOk shardRanges batches record before) (hMoved : before.finished = some after) :
    after.dtx.shardRanges = before.dtx.shardRanges ∧
      StageOk shardRanges batches record after := by
  unfold Executor.finished at hMoved
  dsimp only at hMoved
  split at hMoved
  case h_1 answers hStage =>
      split at hMoved
      case isFalse hWaiting => cases hMoved
      case isTrue hAnswered =>
          split at hMoved
          case h_1 ret hDecision =>
              cases hMoved
              obtain ⟨batch, hBatch, hBuilt, hProgress⟩ := h (by simp [Undecided, hStage])
              simp only [Progress, hStage] at hProgress
              exact ⟨rfl, fun _ => ⟨batch, hBatch,
                ⟨hBuilt.ranges, hBuilt.txs, hBuilt.fullTxs, hBuilt.txIdxs⟩,
                hBuilt.backed hProgress hDecision⟩⟩
          case h_2 hFatal =>
              cases hMoved
              exact ⟨rfl, fun hUndecided => hUndecided.elim⟩
  case h_2 acks hStage =>
      split at hMoved
      case isFalse hWaiting => cases hMoved
      case isTrue hAnswered =>
          cases hMoved
          exact ⟨rfl, fun hUndecided => hUndecided.elim⟩
  case h_3 acks hStage =>
      split at hMoved
      case isFalse hWaiting => cases hMoved
      case isTrue hAnswered =>
          cases hMoved
          exact ⟨rfl, fun hUndecided => hUndecided.elim⟩
  case h_4 => cases hMoved

/-- What is recovered from a snapshot that agrees with the log. -/
theorem StageOk.recovered (record : Record) {state left : CoordinatorState} {dtxId : Hash}
    {stage : Stage}
    (h : Recovered shardRanges state dtxId dtx stage left)
    (hPrepare : ∀ dtxId txs, state.prepareTxs.lookup dtxId = some txs →
      batches.lookup dtxId = some txs)
    (hCommit : ∀ dtxId data, state.commitTxs.lookup dtxId = some data →
      SmCommand.commit dtxId data.1 data.2 ∈ log) (node term : Nat) :
    dtx.shardRanges = shardRanges ∧
      StageOk shardRanges batches record ⟨node, term, dtx, stage⟩ ∧
      ∀ rpc ∈ (Executor.mk node term dtx stage).rpcs, RpcOk shardRanges batches log rpc := by
  cases h with
  | @prepare txs found =>
      have hBuilt : IsBuilt shardRanges txs ((new dtxId shardRanges).recoverPrepare txs) := by
        rw [recoverPrepare_new, built_eq]
        exact ⟨rfl, rfl, rfl, rfl⟩
      have hId : ((new dtxId shardRanges).recoverPrepare txs).dtxId = dtxId := by
        rw [recoverPrepare_new, built_eq]
      have hBatch : batches.lookup ((new dtxId shardRanges).recoverPrepare txs).dtxId =
          some txs := by
        rw [hId]
        exact hPrepare dtxId txs found
      refine ⟨hBuilt.ranges, fun _ => ⟨txs, hBatch, hBuilt, ?_⟩, hBuilt.lockRpc_ok hBatch⟩
      intro shard results range hAnswer
      cases hAnswer
  | @commit completeTxs txIdxs found =>
      exact ⟨rfl, fun hUndecided => hUndecided.elim,
        applyRpc_ok rfl (hCommit dtxId (completeTxs, txIdxs) found)⟩
  | discard found => exact ⟨rfl, fun hUndecided => hUndecided.elim, discardRpc_ok⟩

end Built

/-- What executors, log entries, messages and shards hold agrees with the
submitted batches and the stored results. -/
structure Decided (record : Record) (cluster : Cluster) : Prop where
  shaped : ∀ executor ∈ cluster.executors,
    executor.dtx.shardRanges = cluster.shardRanges ∧
      StageOk cluster.shardRanges cluster.batches record executor
  grounded : cluster.raft.Histories fun history => ∀ command ∈ commands history,
    Grounded cluster.shardRanges cluster.batches record command
  snapshots : ∀ node term state, cluster.recoveries node = .snapshot term state →
    (∀ dtxId txs, state.prepareTxs.lookup dtxId = some txs →
      cluster.batches.lookup dtxId = some txs) ∧
    ∀ dtxId data, state.commitTxs.lookup dtxId = some data →
      SmCommand.commit dtxId data.1 data.2 ∈ commands cluster.raft.log
  messages : ∀ message ∈ cluster.sent,
    RpcOk cluster.shardRanges cluster.batches (commands cluster.raft.log) message.rpc ∧
      ∃ executor, cluster.executors[message.executor]? = some executor ∧
        executor.dtx.dtxId = message.rpc.request.dtxId
  running : ∀ shard ∈ cluster.shards, shard.running = true
  stored : ∀ (place : Nat) (shard : LockingShard) (dtxId : Hash) (dtx : PreparedDtx),
    cluster.shards[place]? = some shard → shard.preparedDtxs.lookup dtxId = some dtx →
      ∃ batch range, cluster.batches.lookup dtxId = some batch ∧
        cluster.shardRanges[place]? = some range ∧ dtx.txs = relevantTxs range batch ∧
        record dtxId place dtx.txs dtx.results

section Steps

variable {record later : Record} {cluster : Cluster}

/-- Recording more results contradicts nothing that was decided before. -/
theorem Decided.mono (h : Decided record cluster)
    (hRecord : ∀ dtxId shard txs results, record dtxId shard txs results →
      later dtxId shard txs results) : Decided later cluster where
  shaped := fun executor hIn =>
    ⟨(h.shaped executor hIn).1, (h.shaped executor hIn).2.mono (fun _ _ hOld => hOld) hRecord⟩
  grounded := fun node command hIn =>
    (h.grounded node command hIn).mono (fun _ _ hOld => hOld) hRecord
  snapshots := h.snapshots
  messages := h.messages
  running := h.running
  stored := by
    intro place shard dtxId dtx hShard hDtx
    obtain ⟨batch, range, hBatch, hRange, hTxs, hStored⟩ :=
      h.stored place shard dtxId dtx hShard hDtx
    exact ⟨batch, range, hBatch, hRange, hTxs, hRecord _ _ _ _ hStored⟩

theorem grounded_prefix {property : SmCommand → Prop} (first second : List Entry)
    (h : ∀ command ∈ commands (first ++ second), property command) :
    ∀ command ∈ commands first, property command := by
  intro command hIn
  apply h
  rw [commands_append]
  exact List.mem_append_left _ hIn

/-- The log changes, but keeps what was processed. -/
theorem Decided.withRaft (h : Decided record cluster) (raft : ReplicatedLog Nat Entry)
    (hGrounded : raft.Histories fun history => ∀ command ∈ commands history,
      Grounded cluster.shardRanges cluster.batches record command)
    (hLog : commands cluster.raft.log ⊆ commands raft.log) (sm : CoordinatorState)
    (halted : Bool) :
    Decided record { cluster with raft := raft, sm := sm, halted := halted } where
  shaped := h.shaped
  grounded := hGrounded
  snapshots := fun node term state hSnapshot =>
    ⟨(h.snapshots node term state hSnapshot).1, fun dtxId data hFound =>
      hLog ((h.snapshots node term state hSnapshot).2 dtxId data hFound)⟩
  messages := fun message hIn =>
    ⟨(h.messages message hIn).1.mono (fun _ _ hOld => hOld) hLog, (h.messages message hIn).2⟩
  running := h.running
  stored := h.stored

/-- One executor may be replaced by a later state of itself. -/
theorem Decided.replace (h : Decided record cluster) {id : Nat} {before after : Executor}
    (hFound : cluster.executors[id]? = some before)
    (hId : after.dtx.dtxId = before.dtx.dtxId)
    (hRanges : after.dtx.shardRanges = cluster.shardRanges)
    (hOk : StageOk cluster.shardRanges cluster.batches record after) :
    Decided record { cluster with executors := cluster.executors.set id after } where
  shaped := Slots.forall_mem_set h.shaped ⟨hRanges, hOk⟩
  grounded := h.grounded
  snapshots := h.snapshots
  messages := by
    intro message hIn
    obtain ⟨hRpc, executor, hExecutor, hSame⟩ := h.messages message hIn
    refine ⟨hRpc, ?_⟩
    by_cases hPlace : message.executor = id
    · subst hPlace
      obtain rfl : before = executor := Option.some.inj (hFound.symm.trans hExecutor)
      exact ⟨after, List.getElem?_set_self (List.getElem?_eq_some_iff.mp hFound).1,
        hId.trans hSame⟩
    · exact ⟨executor, (List.getElem?_set_ne (Ne.symm hPlace)).trans hExecutor, hSame⟩
  running := h.running
  stored := h.stored

theorem Executor.rpcs_dtxId {executor : Executor} :
    ∀ rpc ∈ executor.rpcs, rpc.request.dtxId = executor.dtx.dtxId := by
  intro rpc hRpc
  unfold Executor.rpcs at hRpc
  dsimp only at hRpc
  split at hRpc
  case h_4 => cases hRpc
  all_goals
    obtain ⟨shard, _, rfl⟩ := List.mem_map.mp hRpc
    rfl

/-- Messages may be sent, if each is a request that its executor has grounds for. -/
theorem Decided.send (h : Decided record cluster) (id : Nat) {executor : Executor}
    (hFound : cluster.executors[id]? = some executor)
    (hRpcs : ∀ rpc ∈ executor.rpcs,
      RpcOk cluster.shardRanges cluster.batches (commands cluster.raft.log) rpc) :
    Decided record { cluster with
      sent := cluster.sent ++ executor.rpcs.map fun rpc => ⟨id, rpc⟩ } where
  shaped := h.shaped
  grounded := h.grounded
  snapshots := h.snapshots
  messages := by
    intro message hIn
    rcases List.mem_append.mp hIn with hOld | hNew
    · exact h.messages message hOld
    · obtain ⟨rpc, hRpc, rfl⟩ := List.mem_map.mp hNew
      exact ⟨hRpcs rpc hRpc, executor, hFound, (Executor.rpcs_dtxId rpc hRpc).symm⟩
  running := h.running
  stored := h.stored

/-- An executor may be added, if it agrees with the batches and the stored results. -/
theorem Decided.spawn (h : Decided record cluster) {executor : Executor}
    (hRanges : executor.dtx.shardRanges = cluster.shardRanges)
    (hOk : StageOk cluster.shardRanges cluster.batches record executor)
    (hRpcs : ∀ rpc ∈ executor.rpcs,
      RpcOk cluster.shardRanges cluster.batches (commands cluster.raft.log) rpc) :
    Decided record (cluster.spawn executor) := by
  have hAdded : Decided record { cluster with
      executors := cluster.executors ++ [executor] } := by
    refine ⟨Slots.forall_mem_concat h.shaped ⟨hRanges, hOk⟩, h.grounded, h.snapshots, ?_,
      h.running, h.stored⟩
    intro message hIn
    obtain ⟨hRpc, found, hFound, hSame⟩ := h.messages message hIn
    refine ⟨hRpc, found, ?_, hSame⟩
    rw [List.getElem?_append_left (List.getElem?_eq_some_iff.mp hFound).1]
    exact hFound
  exact hAdded.send cluster.executors.length (by simp) hRpcs

theorem Decided.withRecovery (h : Decided record cluster) (gets node : Nat) {recovery : Recovery}
    (hSnapshot : ∀ term state, recovery = .snapshot term state →
      (∀ dtxId txs, state.prepareTxs.lookup dtxId = some txs →
        cluster.batches.lookup dtxId = some txs) ∧
      ∀ dtxId data, state.commitTxs.lookup dtxId = some data →
        SmCommand.commit dtxId data.1 data.2 ∈ commands cluster.raft.log) :
    Decided record { cluster with
      recoveries := Function.update cluster.recoveries node recovery, gets := gets } := by
  refine ⟨h.shaped, h.grounded, ?_, h.messages, h.running, h.stored⟩
  intro other term state hFound
  rcases Table.of_update hFound with ⟨_, hNew⟩ | ⟨_, hOld⟩
  · exact hSnapshot term state hNew
  · exact h.snapshots other term state hOld

/-- A batch is registered under a new ID. -/
theorem Decided.withBatch (h : Decided record cluster) {dtxId : Hash}
    (hUnused : dtxId ∉ cluster.batches) (batch : List CompactTx) :
    Decided record { cluster with batches := cluster.batches.insert dtxId batch } := by
  have hBatches : ∀ other found, cluster.batches.lookup other = some found →
      (cluster.batches.insert dtxId batch).lookup other = some found :=
    fun _ _ hFound => Table.lookup_insert_of_lookup hUnused batch hFound
  constructor
  · exact fun executor hIn => ⟨(h.shaped executor hIn).1,
      (h.shaped executor hIn).2.mono hBatches fun _ _ _ _ hOld => hOld⟩
  · exact fun node command hIn =>
      (h.grounded node command hIn).mono hBatches fun _ _ _ _ hOld => hOld
  · exact fun node term state hSnapshot =>
      ⟨fun other txs hFound => hBatches other txs
        ((h.snapshots node term state hSnapshot).1 other txs hFound),
        (h.snapshots node term state hSnapshot).2⟩
  · exact fun message hIn => ⟨(h.messages message hIn).1.mono hBatches fun _ hOld => hOld,
      (h.messages message hIn).2⟩
  · exact h.running
  · intro place shard other dtx hShard hDtx
    obtain ⟨found, range, hFound, hRest⟩ := h.stored place shard other dtx hShard hDtx
    exact ⟨found, range, hBatches other found hFound, hRest⟩

/-- A shard processes a message. The record has to cover what it stores. -/
theorem Decided.processMessage (h : Decided record cluster) {crypto : Crypto}
    {message : Message} {shard after : LockingShard} {reply : LockingShard.Reply}
    (hSent : message ∈ cluster.sent) (hShard : cluster.shards[message.rpc.shard]? = some shard)
    (hEffect : LockingShard.Effect crypto shard message.rpc.request after reply)
    (hRecord : ∀ dtxId dtx, after.preparedDtxs.lookup dtxId = some dtx →
      record dtxId message.rpc.shard dtx.txs dtx.results) :
    Decided record { cluster with
      shards := cluster.shards.set message.rpc.shard after } := by
  refine ⟨h.shaped, h.grounded, h.snapshots, h.messages, ?_, ?_⟩
  · exact Slots.forall_mem_set h.running
      (hEffect.running.trans (h.running shard (List.mem_of_getElem? hShard)))
  · intro place found dtxId dtx hFound hDtx
    rcases Slots.of_set hFound with ⟨rfl, rfl⟩ | ⟨_, hOld⟩
    · have hNew := hRecord dtxId dtx hDtx
      rcases hEffect.prepared_of hDtx with hBefore | hLock
      · obtain ⟨batch, range, hBatch, hRange, hTxs, _⟩ :=
          h.stored message.rpc.shard shard dtxId dtx hShard hBefore
        exact ⟨batch, range, hBatch, hRange, hTxs, hNew⟩
      · have hRpc := (h.messages message hSent).1
        rw [RpcOk, hLock] at hRpc
        obtain ⟨batch, range, hBatch, hRange, hTxs⟩ := hRpc
        exact ⟨batch, range, hBatch, hRange, hTxs, hNew⟩
    · exact h.stored place found dtxId dtx hOld hDtx

/-- The reply to a lock request is what the shard has stored. -/
theorem Decided.reply_recorded (h : Decided record cluster) {crypto : Crypto}
    {place : Nat} {shard after : LockingShard} {request : LockingShard.Request}
    {reply : LockingShard.Reply} (hPlace : cluster.shards[place]? = some after)
    (hEffect : LockingShard.Effect crypto shard request after reply)
    {results : List Bool} (hReply : reply = .lock (some results)) {batch : List CompactTx}
    {range : ShardRange} (hBatch : cluster.batches.lookup request.dtxId = some batch)
    (hRange : cluster.shardRanges[place]? = some range) :
    record request.dtxId place (relevantTxs range batch) results := by
  have hStored : ∃ dtx, after.preparedDtxs.lookup request.dtxId = some dtx ∧
      dtx.results = results := by
    subst hReply
    exact hEffect.prepared_of_locked
  obtain ⟨dtx, hDtx, rfl⟩ := hStored
  obtain ⟨found, foundRange, hFound, hFoundRange, hTxs, hRecord⟩ :=
    h.stored place after request.dtxId dtx hPlace hDtx
  obtain rfl : found = batch := Option.some.inj (hFound.symm.trans hBatch)
  obtain rfl : foundRange = range := Option.some.inj (hFoundRange.symm.trans hRange)
  rwa [hTxs] at hRecord

theorem Decided.process (h : Decided record cluster) {entry : Entry}
    {raft : ReplicatedLog Nat Entry} (hNext : cluster.raft.commitNext = some (entry, raft))
    (sm : CoordinatorState) :
    Decided record { cluster with raft := raft, sm := sm } := by
  refine h.withRaft raft (h.grounded.commitNext grounded_prefix hNext) ?_ sm cluster.halted
  obtain ⟨rest, _, rfl⟩ := ReplicatedLog.commitNext_eq_some hNext
  rw [commands_append]
  exact List.subset_append_left ..

/-- The state machine holds what was submitted and what was committed. -/
theorem Decided.tables (h : Decided record cluster) (hProvenance : Provenance cluster) :
    (∀ dtxId txs, cluster.sm.prepareTxs.lookup dtxId = some txs →
      cluster.batches.lookup dtxId = some txs) ∧
    ∀ dtxId data, cluster.sm.commitTxs.lookup dtxId = some data →
      SmCommand.commit dtxId data.1 data.2 ∈ commands cluster.raft.log := by
  have hTraced := replay_traced hProvenance.processed
  exact ⟨fun dtxId txs hFound => h.grounded.log grounded_prefix _
    (hTraced.prepared dtxId txs hFound), hTraced.committed⟩

/-- An executor is set up from a snapshot that agrees with the log. -/
theorem Decided.recover (h : Decided record cluster) {node term : Nat}
    {state left : CoordinatorState} {dtxId : Hash} {dtx : DistributedTx} {stage : Stage}
    (hAnswered : cluster.recoveries node = .snapshot term state)
    (hRecovered : Recovered cluster.shardRanges state dtxId dtx stage left) :
    Decided record ({ cluster with
      recoveries := Function.update cluster.recoveries node (.snapshot term left) }.spawn
        ⟨node, term, dtx, stage⟩) := by
  obtain ⟨hPrepare, hCommit⟩ := h.snapshots node term state hAnswered
  obtain ⟨hRanges, hOk, hRpcs⟩ := StageOk.recovered record hRecovered hPrepare hCommit node term
  obtain ⟨hLeftPrepare, hLeftCommit⟩ := hRecovered.left_subset
  have hBefore : Decided record { cluster with
      recoveries := Function.update cluster.recoveries node (.snapshot term left) } := by
    refine h.withRecovery cluster.gets node ?_
    intro _ otherState hSnapshot
    cases hSnapshot
    exact ⟨fun id txs hFound => hPrepare id txs (hLeftPrepare id txs hFound),
      fun id data hFound => hCommit id data (hLeftCommit id data hFound)⟩
  exact hBefore.spawn hRanges hOk hRpcs

/-- A shard processes a request and its executor may learn the answer. -/
theorem Decided.deliver (h : Decided record cluster) {crypto : Crypto} {message : Message}
    (respond : Bool) {shard after : LockingShard} {executor : Executor}
    {reply : LockingShard.Reply} (hSent : message ∈ cluster.sent)
    (hReached : cluster.shards[message.rpc.shard]? = some shard)
    (hFound : cluster.executors[message.executor]? = some executor)
    (hProcessed : shard.processRequest crypto message.rpc.request = .ok (after, reply))
    (hStored : ∀ (place : Nat) (holder : LockingShard) (dtxId : Hash) (dtx : PreparedDtx),
      (cluster.shards.set message.rpc.shard after)[place]? = some holder →
        holder.preparedDtxs.lookup dtxId = some dtx → record dtxId place dtx.txs dtx.results) :
    Decided record { cluster with
      shards := cluster.shards.set message.rpc.shard after
      executors := cluster.executors.set message.executor
        (if respond then executor.answered message.rpc.shard reply else executor) } := by
  have hEffect := LockingShard.processRequest_effect
    (h.running shard (List.mem_of_getElem? hReached)) hProcessed
  have hPlace : (cluster.shards.set message.rpc.shard after)[message.rpc.shard]? =
      some after := List.getElem?_set_self (List.getElem?_eq_some_iff.mp hReached).1
  have hNext := h.processMessage hSent hReached hEffect fun dtxId dtx =>
    hStored message.rpc.shard after dtxId dtx hPlace
  obtain ⟨hRanges, hOk⟩ := h.shaped executor (List.mem_of_getElem? hFound)
  obtain ⟨_, owner, hOwner, hId⟩ := h.messages message hSent
  obtain rfl : executor = owner := Option.some.inj (hFound.symm.trans hOwner)
  cases respond with
  | false => exact hNext.replace hFound rfl hRanges hOk
  | true =>
      have hFollows := Executor.answered_follows executor message.rpc.shard reply
      refine hNext.replace hFound hFollows.dtxId (hFollows.ranges.trans hRanges) ?_
      refine hOk.answered fun results hReply batch range hBatch hRange => ?_
      rw [hId] at hBatch ⊢
      exact hNext.reply_recorded hPlace hEffect hReply hBatch hRange

end Steps

/-- One event keeps the cluster decided, as long as the record covers what the
shards hold afterwards. -/
theorem Decided.effect {record : Record} {crypto : Crypto} {cluster next : Cluster}
    {event : Event} (h : Decided record cluster) (hProvenance : Provenance cluster)
    (hEffect : Effect crypto cluster event next)
    (hStored : ∀ (place : Nat) (shard : LockingShard) (dtxId : Hash) (dtx : PreparedDtx),
      next.shards[place]? = some shard → shard.preparedDtxs.lookup dtxId = some dtx →
        record dtxId place dtx.txs dtx.results) :
    Decided record next := by
  cases hEffect with
  | elect node =>
      exact h.withRaft (cluster.raft.elect node) h.grounded (fun _ hIn => hIn) cluster.sm
        cluster.halted
  | copyLog count follower =>
      exact h.withRaft _ (h.grounded.copyTo grounded_prefix _ count) (fun _ hIn => hIn)
        cluster.sm cluster.halted
  | halt running next processed =>
      exact h.withRaft cluster.raft h.grounded (fun _ hIn => hIn) cluster.sm true
  | process running next processed => exact h.process next _
  | @report id command raft sm before after running next processed found waiting moved =>
      have hNext := h.process next sm
      have hLast : command ∈ commands raft.log := mem_commands_of_commitNext next
      obtain ⟨hRanges, hOk⟩ := h.shaped before (List.mem_of_getElem? found)
      obtain ⟨hDtx, hAfter, hRpcs⟩ := hOk.replicated hRanges waiting moved hLast
      have hReplaced := hNext.replace found (congrArg DistributedTx.dtxId hDtx)
        (hDtx ▸ hRanges) hAfter
      exact hReplaced.send id
        (List.getElem?_set_self (List.getElem?_eq_some_iff.mp found).1) hRpcs
  | @answerGet node id term raft running next awaiting =>
      have hNext := h.process next cluster.sm
      have hTables := hNext.tables (hProvenance.process next rfl)
      refine hNext.withRecovery cluster.gets node ?_
      intro _ state hSnapshot
      cases hSnapshot
      exact hTables
  | @submit node dtxId batch unused =>
      have hBuilt := isBuilt_built dtxId cluster.shardRanges batch
      refine (h.withBatch unused batch).spawn hBuilt.ranges (fun _ => ⟨batch, ?_, hBuilt, trivial⟩)
        (fun rpc hRpc => by cases hRpc)
      rw [built_eq]
      exact Finmap.lookup_insert _
  | @append id before after command found leads calls moved =>
      obtain ⟨hRanges, hOk⟩ := h.shaped before (List.mem_of_getElem? found)
      obtain ⟨hAfter, hGrounded⟩ := hOk.accepted calls moved
      have hDtx := (Executor.accepted_calls calls moved).dtx
      have hReplaced := h.replace found (congrArg DistributedTx.dtxId hDtx) (hDtx ▸ hRanges) hAfter
      refine hReplaced.withRaft _ (h.grounded.accept ?_) (fun _ hIn => hIn) cluster.sm
        cluster.halted
      rw [commands_append]
      exact Slots.forall_mem_concat (h.grounded _) hGrounded
  | @appendGet node leads joined =>
      have hAccepted := h.withRaft (cluster.raft.accept ⟨.recovery node cluster.gets, .get⟩)
        (h.grounded.accept (by
          rw [commands_append]
          exact Slots.forall_mem_concat (h.grounded _) trivial))
        (fun _ hIn => hIn) cluster.sm cluster.halted
      refine hAccepted.withRecovery _ node ?_
      intro term state hSnapshot
      cases hSnapshot
  | recover answered next => exact h.recover answered (nextRecovered_recovered next)
  | deliver respond sent reached found processed =>
      exact h.deliver respond sent reached found processed hStored
  | @finishRpc id before after found moved =>
      obtain ⟨hRanges, hOk⟩ := h.shaped before (List.mem_of_getElem? found)
      obtain ⟨hSame, hAfter⟩ := hOk.finished moved
      exact h.replace found (Executor.finished_follows moved).dtxId (hSame.trans hRanges) hAfter
  | fail found runs =>
      obtain ⟨hRanges, _⟩ := h.shaped _ (List.mem_of_getElem? found)
      exact h.replace found rfl hRanges fun hUndecided => hUndecided.elim

section Agreement

variable {crypto : Crypto} {configs : List ShardConfig} {events : List Event} {cluster : Cluster}

/-- The shard holds these lock results for the dtx. -/
def Stores (dtxId : Hash) (place : Nat) (txs : List CompactTx) (results : List Bool)
    (cluster : Cluster) : Prop :=
  ∃ shard, cluster.shards[place]? = some shard ∧
    shard.preparedDtxs.lookup dtxId = some ⟨txs, results⟩

/-- What the shards have held in the course of a run. -/
def recorded (crypto : Crypto) (configs : List ShardConfig) (events : List Event) : Record :=
  fun dtxId place txs results =>
    Passed (step crypto) (initial configs) events (Stores dtxId place txs results)

/-- At the start there are no executors, no commands and no messages to disagree. -/
theorem decided_initial (record : Record) (configs : List ShardConfig) :
    Decided record (initial configs) where
  shaped := by simp [initial]
  grounded := by
    intro node command hIn
    cases hIn
  snapshots := by
    intro node term state hSnapshot
    cases hSnapshot
  messages := by simp [initial]
  running := by
    intro shard hIn
    obtain ⟨config, _, rfl⟩ := List.mem_map.mp hIn
    rfl
  stored := by
    intro place shard dtxId dtx hShard hDtx
    obtain ⟨config, _, rfl⟩ := List.mem_map.mp (List.mem_of_getElem? hShard)
    rw [ShardConfig.start, LockingShard.initial, Finmap.lookup_empty] at hDtx
    cases hDtx

theorem decided (h : run (step crypto) (initial configs) events = some cluster) :
    Decided (recorded crypto configs events) cluster := by
  refine run_induction (motive := fun events state => Decided (recorded crypto configs events)
    state) (decided_initial _ configs) ?_ h
  intro before state event next hBefore ih hStep
  have hLater : Decided (recorded crypto configs (before ++ [event])) state :=
    ih.mono fun _ _ _ _ hPassed => hPassed.later [event]
  refine hLater.effect (provenance hBefore) (step_effect hStep) ?_
  intro place shard dtxId dtx hShard hDtx
  exact Passed.here ((run_concat _ _ _ _ _).mpr ⟨state, hBefore, hStep⟩) ⟨shard, hShard, hDtx⟩

/-- All apply requests that were ever sent for a dtx carry the decision of one
processed commit command, and every shard that takes part in a completed
transaction has at some time held a true lock result for it. -/
theorem failover_agreement (crypto : Crypto) (configs : List ShardConfig) (events : List Event)
    (cluster : Cluster) (hRun : run (step crypto) (initial configs) events = some cluster)
    (dtxId : Hash) :
    ∃ decision : List Bool, ∀ message ∈ cluster.sent, ∀ flags,
      message.rpc.request = ⟨dtxId, .apply flags⟩ →
        (∃ txIdxs, SmCommand.commit dtxId decision txIdxs ∈ commands cluster.raft.log) ∧
        ∃ batch range, cluster.batches.lookup dtxId = some batch ∧
          decision.length = batch.length ∧
          cluster.shardRanges[message.rpc.shard]? = some range ∧
          flags = (shardEntries range batch decision).map Prod.snd ∧
          ∀ (place : Nat) (tx : CompactTx), batch[place]? = some tx →
            decision[place]? = some true →
              ∀ (shard : Nat) (other : ShardRange), cluster.shardRanges[shard]? = some other →
                Participates other tx →
                  ∃ results, results[position other batch place]? = some true ∧
                    Passed (step crypto) (initial configs) events
                      (Stores dtxId shard (relevantTxs other batch) results) := by
  have hDecided := decided hRun
  have hProvenance := provenance hRun
  have hOrdered : Ordered (commands cluster.raft.log) cluster.sm :=
    replay_ordered hProvenance.processed (hProvenance.once.log once_prefix)
  by_cases hCommit : ∃ decision txIdxs,
      SmCommand.commit dtxId decision txIdxs ∈ commands cluster.raft.log
  · obtain ⟨decision, txIdxs, hIn⟩ := hCommit
    refine ⟨decision, fun message hSent flags hRequest => ⟨⟨txIdxs, hIn⟩, ?_⟩⟩
    obtain ⟨batch, hBatch, hLength, hIdxs, hBacked⟩ :=
      hDecided.grounded.log grounded_prefix _ hIn
    have hRpc := (hDecided.messages message hSent).1
    rw [RpcOk, hRequest] at hRpc
    obtain ⟨hShard, other, otherIdxs, hOther, hFlags⟩ := hRpc
    obtain ⟨rfl, rfl⟩ := hOrdered.commitUnique dtxId _ _ _ _ hIn hOther
    have hRange : cluster.shardRanges[message.rpc.shard]? =
        some cluster.shardRanges[message.rpc.shard] := List.getElem?_eq_getElem hShard
    refine ⟨batch, _, hBatch, hLength, hRange, ?_, ?_⟩
    · rw [hFlags, shardEntries_snd hLength, hIdxs]
      simp [hRange]
    · intro place tx hTx hTrue shard range hShardRange hParticipates
      obtain ⟨results, hPassed, hResult⟩ := hBacked place tx hTx hTrue shard range hShardRange
        ((active_iff range tx).mpr hParticipates)
      exact ⟨results, hResult, hPassed⟩
  · refine ⟨[], fun message hSent flags hRequest => ?_⟩
    have hRpc := (hDecided.messages message hSent).1
    rw [RpcOk, hRequest] at hRpc
    obtain ⟨_, decision, txIdxs, hIn, _⟩ := hRpc
    exact (hCommit ⟨decision, txIdxs, hIn⟩).elim

/-- The decision that node 1 reached after it took over from node 0. -/
theorem failover_agreement_takeover :
    ∃ cluster, run (step .unused) (initial oneShard) takeover = some cluster ∧
      (⟨1, ⟨0, ⟨.ofByte 7, .apply [true]⟩⟩⟩ : Message) ∈ cluster.sent ∧
      ∃ decision txIdxs,
        SmCommand.commit (.ofByte 7) decision txIdxs ∈ commands cluster.raft.log := by
  have hTest : (run (step .unused) (initial oneShard) takeover).any (fun cluster =>
      decide ((⟨1, ⟨0, ⟨.ofByte 7, .apply [true]⟩⟩⟩ : Message) ∈ cluster.sent)) = true := by
    decide
  obtain ⟨cluster, hRun, hSent⟩ := exists_run_of_test hTest
  have hMessage := of_decide_eq_true hSent
  obtain ⟨decision, hAgreement⟩ :=
    failover_agreement .unused oneShard takeover cluster hRun (.ofByte 7)
  obtain ⟨⟨txIdxs, hCommit⟩, _⟩ := hAgreement _ hMessage [true] rfl
  exact ⟨cluster, hRun, hMessage, decision, txIdxs, hCommit⟩

end Agreement

end OpenCbdc.Cluster

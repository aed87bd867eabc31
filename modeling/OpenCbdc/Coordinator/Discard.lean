import OpenCbdc.Coordinator.Failover

/-! Whether the shards forget a dtx before it is done. In each phase an executor
works off the shards that may still remember its dtx. A dtx that is recovered
in its last phase comes without its list of shards, so nobody asks them to
discard it any more. -/
namespace OpenCbdc.Cluster

open CoordinatorState DistributedTx TransitionSystem

/-- A request is delivered only in the term of its executor and while the
executor waits for the answers to it. -/
def Awaited (cluster : Cluster) : Event → Prop
  | .deliver message _ => ∀ executor ∈ cluster.executors[message.executor]?,
      executor.term = cluster.raft.term ∧ message.rpc ∈ executor.rpcs
  | _ => True

/-- The dtxs that a recovery has still to take up in their last phase. -/
def lastPhase : Recovery → Finset Hash
  | .snapshot _ state => state.discardTxs
  | _ => ∅

/-- A dtx is recovered in its last phase only if no shard remembers it. -/
def RecoversForgotten (cluster : Cluster) : Event → Prop
  | .recover node dtxId => dtxId ∈ lastPhase (cluster.recoveries node) →
      ∀ shard ∈ cluster.shards, dtxId ∉ shard.appliedDtxs
  | _ => True

/-- No stale deliveries, and nothing is left of a dtx that loses its shards. -/
def KeepsDiscards (cluster : Cluster) (event : Event) : Prop :=
  cluster.KeepsTerm event ∧ cluster.Awaited event ∧ cluster.RecoversForgotten event

section Decidable

variable (cluster : Cluster)

instance : ∀ event, Decidable (cluster.Awaited event)
  | .deliver message _ =>
      inferInstanceAs (Decidable (∀ executor ∈ cluster.executors[message.executor]?, _))
  | .elect _ | .copyLog _ _ | .commitNext _ | .submit _ _ _ | .append _ | .appendGet _
  | .recover _ _ | .finishRpc _ | .fail _ => inferInstanceAs (Decidable True)

instance : ∀ event, Decidable (cluster.RecoversForgotten event)
  | .recover node dtxId =>
      inferInstanceAs (Decidable (dtxId ∈ lastPhase (cluster.recoveries node) → _))
  | .elect _ | .copyLog _ _ | .commitNext _ | .submit _ _ _ | .append _ | .appendGet _
  | .deliver _ _ | .finishRpc _ | .fail _ => inferInstanceAs (Decidable True)

instance (event : Event) : Decidable (cluster.KeepsDiscards event) :=
  inferInstanceAs (Decidable (_ ∧ _ ∧ _))

end Decidable

section Memory

variable (log : List SmCommand) (shards : List LockingShard)

def PreparedAt (dtxId : Hash) (place : Nat) : Prop :=
  ∃ shard, shards[place]? = some shard ∧ dtxId ∈ shard.preparedDtxs

def AppliedAt (dtxId : Hash) (place : Nat) : Prop :=
  ∃ shard, shards[place]? = some shard ∧ dtxId ∈ shard.appliedDtxs

def CommittedIn (dtxId : Hash) : Prop :=
  ∃ completeTxs txIdxs, SmCommand.commit dtxId completeTxs txIdxs ∈ log

/-- Once the decision of a dtx is in the log, only these shards may still have
it prepared, and only these may have it applied. -/
structure Bounded (dtxId : Hash) (prepared applied : Nat → Prop) : Prop where
  committed : CommittedIn log dtxId
  inside : ∀ place, prepared place → applied place
  prepared : ∀ place, PreparedAt shards dtxId place → prepared place
  applied : ∀ place, AppliedAt shards dtxId place → applied place

/-- What an executor knows about the shards from its answers. -/
def Clean (executor : Executor) : Prop :=
  let dtx := executor.dtx
  match executor.stage with
  | .applying acks => Bounded log shards dtx.dtxId
      (fun place => place ∈ dtx.participants ∧ place ∉ acks) (fun place => place ∈ dtx.participants)
  | .discardCb | .discardWait => Bounded log shards dtx.dtxId
      (fun _ => False) (fun place => place ∈ dtx.participants)
  | .discarding acks => Bounded log shards dtx.dtxId
      (fun _ => False) (fun place => place ∈ dtx.participants ∧ place ∉ acks)
  | .doneCb | .doneWait => Bounded log shards dtx.dtxId (fun _ => False) (fun _ => False)
  | _ => True

/-- What an accepted command tells about the shards. -/
def Settled : SmCommand → Prop
  | .discard dtxId => Bounded log shards dtxId (fun _ => False) (fun _ => True)
  | .done dtxId => Bounded log shards dtxId (fun _ => False) (fun _ => False)
  | _ => True

end Memory

section Monotone

variable {log longer : List SmCommand} {shards next : List LockingShard}

theorem CommittedIn.mono {dtxId : Hash} (h : CommittedIn log dtxId) (hLog : log ⊆ longer) :
    CommittedIn longer dtxId := by
  obtain ⟨completeTxs, txIdxs, hIn⟩ := h
  exact ⟨completeTxs, txIdxs, hLog hIn⟩

theorem Bounded.grow {dtxId : Hash} {prepared applied : Nat → Prop}
    (h : Bounded log shards dtxId prepared applied) (hLog : log ⊆ longer) :
    Bounded longer shards dtxId prepared applied :=
  ⟨h.committed.mono hLog, h.inside, h.prepared, h.applied⟩

/-- Wider bounds for the applied dtxs are still bounds. -/
theorem Bounded.widen {dtxId : Hash} {prepared applied wider : Nat → Prop}
    (h : Bounded log shards dtxId prepared applied)
    (hWider : ∀ place, applied place → wider place) :
    Bounded log shards dtxId prepared wider :=
  ⟨h.committed, fun place hPlace => hWider place (h.inside place hPlace), h.prepared,
    fun place hPlace => hWider place (h.applied place hPlace)⟩

variable (hBounded : ∀ dtxId prepared applied, Bounded log shards dtxId prepared applied →
  Bounded longer next dtxId prepared applied)

include hBounded

theorem Clean.mono {executor : Executor} (h : Clean log shards executor) :
    Clean longer next executor := by
  unfold Clean at h ⊢
  dsimp only at h ⊢
  split
  case h_7 => trivial
  all_goals
    rename_i hStage
    rw [hStage] at h
    exact hBounded _ _ _ h

theorem Settled.mono {command : SmCommand} (h : Settled log shards command) :
    Settled longer next command := by
  cases command with
  | prepare dtxId txs => trivial
  | commit dtxId completeTxs txIdxs => trivial
  | discard dtxId => exact hBounded _ _ _ h
  | done dtxId => exact hBounded _ _ _ h
  | get => trivial

end Monotone

section Requests

variable {crypto : Crypto} {log : List SmCommand} {shards : List LockingShard} {place : Nat}
variable {shard after : LockingShard} {request : LockingShard.Request} {reply : LockingShard.Reply}
variable (hShard : shards[place]? = some shard)
variable (hEffect : LockingShard.Effect crypto shard request after reply)

include hShard hEffect

theorem PreparedAt.of_request {dtxId : Hash} {other : Nat}
    (h : PreparedAt (shards.set place after) dtxId other) :
    PreparedAt shards dtxId other ∨ other = place ∧ ∃ txs, request = ⟨dtxId, .lock txs⟩ := by
  obtain ⟨found, hFound, hIn⟩ := h
  rcases Slots.of_set hFound with ⟨rfl, rfl⟩ | ⟨_, hOld⟩
  · obtain ⟨dtx, hDtx⟩ := Finmap.mem_iff.mp hIn
    rcases hEffect.prepared_of hDtx with hBefore | hLock
    · exact Or.inl ⟨shard, hShard, Finmap.mem_iff.mpr ⟨dtx, hBefore⟩⟩
    · exact Or.inr ⟨rfl, dtx.txs, hLock⟩
  · exact Or.inl ⟨found, hOld, hIn⟩

theorem AppliedAt.of_request {dtxId : Hash} {other : Nat}
    (h : AppliedAt (shards.set place after) dtxId other) :
    AppliedAt shards dtxId other ∨ PreparedAt shards dtxId other := by
  obtain ⟨found, hFound, hIn⟩ := h
  rcases Slots.of_set hFound with ⟨rfl, rfl⟩ | ⟨_, hOld⟩
  · rcases hEffect.applied_of hIn with hBefore | ⟨_, dtx, _, hDtx⟩
    · exact Or.inl ⟨shard, hShard, hBefore⟩
    · exact Or.inr ⟨shard, hShard, Finmap.mem_iff.mpr ⟨dtx, hDtx⟩⟩
  · exact Or.inl ⟨found, hOld, hIn⟩

/-- Without a lock request the shards that remember a dtx stay within bounds. -/
theorem Bounded.afterRequest {dtxId : Hash} {prepared applied : Nat → Prop}
    (h : Bounded log shards dtxId prepared applied)
    (hLock : ∀ txs, request = ⟨dtxId, .lock txs⟩ → ¬CommittedIn log dtxId) :
    Bounded log (shards.set place after) dtxId prepared applied := by
  refine ⟨h.committed, h.inside, fun other hPrepared => ?_, fun other hApplied => ?_⟩
  · rcases PreparedAt.of_request hShard hEffect hPrepared with hOld | ⟨_, txs, hRequest⟩
    · exact h.prepared other hOld
    · exact (hLock txs hRequest h.committed).elim
  · rcases AppliedAt.of_request hShard hEffect hApplied with hOld | hPrepared
    · exact h.applied other hOld
    · exact h.inside other (h.prepared other hPrepared)

theorem not_preparedAt_of_apply (hReply : reply = .apply true) :
    ¬PreparedAt (shards.set place after) request.dtxId place := by
  rintro ⟨found, hFound, hIn⟩
  rw [List.getElem?_set_self (List.getElem?_eq_some_iff.mp hShard).1] at hFound
  cases hFound
  subst hReply
  exact hEffect.unprepared_of_applied hIn

theorem not_appliedAt_of_discard (hReply : reply = .discard true) :
    ¬AppliedAt (shards.set place after) request.dtxId place := by
  rintro ⟨found, hFound, hIn⟩
  rw [List.getElem?_set_self (List.getElem?_eq_some_iff.mp hShard).1] at hFound
  cases hFound
  subst hReply
  exact hEffect.unapplied_of_discarded hIn

/-- An executor strikes off a shard that has confirmed. -/
theorem Clean.answered {executor : Executor} (h : Clean log (shards.set place after) executor)
    (hId : executor.dtx.dtxId = request.dtxId) :
    Clean log (shards.set place after) (executor.answered place reply) := by
  unfold Executor.answered
  split
  case h_1 => trivial
  case h_2 acks hStage =>
      simp only [Clean, hStage] at h
      refine ⟨h.committed, fun _ hOther => hOther.1, fun other hPrepared => ?_, h.applied⟩
      obtain ⟨hParticipant, hUnacked⟩ := h.prepared other hPrepared
      refine ⟨hParticipant, ?_⟩
      rw [Finset.mem_insert, not_or]
      refine ⟨?_, hUnacked⟩
      rintro rfl
      rw [hId] at hPrepared
      exact not_preparedAt_of_apply hShard hEffect rfl hPrepared
  case h_3 acks hStage =>
      simp only [Clean, hStage] at h
      refine ⟨h.committed, fun _ hFalse => hFalse.elim, h.prepared, fun other hApplied => ?_⟩
      obtain ⟨hParticipant, hUnacked⟩ := h.applied other hApplied
      refine ⟨hParticipant, ?_⟩
      rw [Finset.mem_insert, not_or]
      refine ⟨?_, hUnacked⟩
      rintro rfl
      rw [hId] at hApplied
      exact not_appliedAt_of_discard hShard hEffect rfl hApplied
  case h_4 => exact h

end Requests

section Stages

variable {log : List SmCommand} {shards : List LockingShard} {before after : Executor}

/-- When every participant has confirmed, nobody is left. -/
theorem Clean.finished (h : Clean log shards before) (hMoved : before.finished = some after) :
    Clean log shards after := by
  unfold Executor.finished at hMoved
  dsimp only at hMoved
  split at hMoved
  case h_1 answers hStage =>
      split at hMoved
      case isFalse hWaiting => cases hMoved
      case isTrue hAnswered =>
          split at hMoved
          all_goals
            cases hMoved
            trivial
  case h_2 acks hStage =>
      split at hMoved
      case isFalse hWaiting => cases hMoved
      case isTrue hAnswered =>
          cases hMoved
          simp only [List.all_eq_true, decide_eq_true_eq] at hAnswered
          simp only [Clean, hStage] at h
          exact ⟨h.committed, fun _ hFalse => hFalse.elim, fun place hPrepared =>
            (h.prepared place hPrepared).2 (hAnswered place (h.prepared place hPrepared).1),
            h.applied⟩
  case h_3 acks hStage =>
      split at hMoved
      case isFalse hWaiting => cases hMoved
      case isTrue hAnswered =>
          cases hMoved
          simp only [List.all_eq_true, decide_eq_true_eq] at hAnswered
          simp only [Clean, hStage] at h
          exact ⟨h.committed, fun _ hFalse => hFalse.elim, h.prepared, fun place hApplied =>
            (h.applied place hApplied).2 (hAnswered place (h.applied place hApplied).1)⟩
  case h_4 => cases hMoved

/-- A command is accepted from an executor that knows what the command tells. -/
theorem Clean.accepted {command : SmCommand} {term : Nat} (h : Clean log shards before)
    (hCalls : before.command = some command) (hMoved : before.accepted term = some after) :
    Clean log shards after ∧ Settled log shards command := by
  unfold Executor.accepted at hMoved
  split at hMoved
  case h_5 => cases hMoved
  all_goals
    rename_i hStage
    cases hMoved
    simp only [Executor.command, hStage, Option.some_inj] at hCalls
    subst hCalls
    simp only [Clean, hStage] at h
  · exact ⟨trivial, trivial⟩
  · exact ⟨trivial, trivial⟩
  · exact ⟨h, h.widen fun _ _ => trivial⟩
  · exact ⟨h, h⟩

/-- The callback of a processed command returns. Before the apply requests go
out, every shard that remembers the dtx is a participant. -/
theorem Clean.replicated {command : SmCommand} (h : Clean log shards before)
    (hWaiting : before.command = some command) (hMoved : before.replicated = some after)
    (hLog : command ∈ log)
    (hHolders : before.stage = .commitWait → ∀ place,
      PreparedAt shards before.dtx.dtxId place ∨ AppliedAt shards before.dtx.dtxId place →
        place ∈ before.dtx.participants) :
    Clean log shards after := by
  unfold Executor.replicated at hMoved
  split at hMoved
  case h_5 => cases hMoved
  all_goals
    rename_i hStage
    cases hMoved
    simp only [Executor.command, hStage, Option.some_inj] at hWaiting
    subst hWaiting
    simp only [Clean, hStage] at h
  · trivial
  · exact ⟨⟨_, _, hLog⟩, fun _ hPlace => hPlace.1,
      fun place hPrepared => ⟨hHolders hStage place (Or.inl hPrepared), by simp⟩,
      fun place hApplied => hHolders hStage place (Or.inr hApplied)⟩
  · exact ⟨h.committed, fun _ hFalse => hFalse.elim, h.prepared,
      fun place hApplied => ⟨h.applied place hApplied, by simp⟩⟩
  · trivial

end Stages

/-- What executors, log entries and snapshots tell about the shards is true,
and every shard that remembers a dtx takes part in it. -/
structure DiscardInv (cluster : Cluster) : Prop where
  stages : ∀ executor ∈ cluster.executors,
    Clean (commands cluster.raft.log) cluster.shards executor
  settled : cluster.raft.Histories fun history => ∀ command ∈ commands history,
    Settled (commands cluster.raft.log) cluster.shards command
  snapshots : ∀ node, ∀ dtxId ∈ lastPhase (cluster.recoveries node),
    SmCommand.discard dtxId ∈ commands cluster.raft.log
  holders : ∀ place dtxId,
    PreparedAt cluster.shards dtxId place ∨ AppliedAt cluster.shards dtxId place →
      ∃ batch, cluster.batches.lookup dtxId = some batch ∧
        place ∈ (built dtxId cluster.shardRanges batch).participants

section Steps

variable {cluster : Cluster} {record : Record} {view : CoordinatorState}

/-- Committing an entry leaves the shards alone, and what was known of them stays true. -/
theorem DiscardInv.process (h : DiscardInv cluster) {entry : Entry}
    {raft : ReplicatedLog Nat Entry} (hNext : cluster.raft.commitNext = some (entry, raft))
    (sm : CoordinatorState) :
    DiscardInv { cluster with raft := raft, sm := sm } := by
  have hLog : commands cluster.raft.log ⊆ commands raft.log := by
    obtain ⟨rest, _, rfl⟩ := ReplicatedLog.commitNext_eq_some hNext
    rw [commands_append]
    exact List.subset_append_left ..
  refine ⟨?_, ?_, fun node dtxId hIn => hLog (h.snapshots node dtxId hIn), h.holders⟩
  · exact fun executor hIn =>
      (h.stages executor hIn).mono fun _ _ _ hBounded => hBounded.grow hLog
  · exact fun node command hIn => (h.settled.commitNext grounded_prefix hNext node command hIn).mono
      fun _ _ _ hBounded => hBounded.grow hLog

theorem DiscardInv.replace (h : DiscardInv cluster) (id : Nat) {after : Executor}
    (hClean : Clean (commands cluster.raft.log) cluster.shards after) (sent : List Message) :
    DiscardInv { cluster with executors := cluster.executors.set id after, sent := sent } :=
  ⟨Slots.forall_mem_set h.stages hClean, h.settled, h.snapshots, h.holders⟩

theorem DiscardInv.withRecoveries (h : DiscardInv cluster) (gets node : Nat)
    (recovery : Recovery) (hSnapshot : ∀ dtxId ∈ lastPhase recovery,
      SmCommand.discard dtxId ∈ commands cluster.raft.log) :
    DiscardInv { cluster with
      recoveries := Function.update cluster.recoveries node recovery, gets := gets } := by
  refine ⟨h.stages, h.settled, fun other dtxId hIn => ?_, h.holders⟩
  rcases Table.of_update (Eq.refl (Function.update cluster.recoveries node recovery other)) with
    ⟨_, hNew⟩ | ⟨_, hOld⟩
  · exact hSnapshot dtxId (hNew ▸ hIn)
  · exact h.snapshots other dtxId (hOld ▸ hIn)

/-- An executor of this term that still locks has no decision in the log. -/
theorem PhaseInv.lock_uncommitted (h : PhaseInv cluster view) (hProvenance : Provenance cluster)
    {executor : Executor} (hIn : executor ∈ cluster.executors)
    (hTerm : executor.term = cluster.raft.term) {answers : Nat → Option (List Bool)}
    (hStage : executor.stage = .locking answers) :
    ¬CommittedIn (commands cluster.raft.log) executor.dtx.dtxId := by
  rintro ⟨completeTxs, txIdxs, hCommit⟩
  obtain ⟨_, hHolds⟩ := h.standing executor hIn hTerm .prepare (by simp [Executor.phase, hStage])
  refine (replay_ordered h.viewed (hProvenance.once _)).uncommitted _ hHolds completeTxs txIdxs ?_
  rw [ReplicatedLog.history, commands_append]
  exact List.mem_append_left _ hCommit

/-- A lock request is sent by an executor in the locking stage only, to a participant of its
own dtx. -/
theorem Executor.mem_rpcs_lock {executor : Executor} {rpc : Rpc} (h : rpc ∈ executor.rpcs)
    {dtxId : Hash} {txs : List CompactTx} (hLock : rpc.request = ⟨dtxId, .lock txs⟩) :
    (∃ answers, executor.stage = .locking answers) ∧ rpc.shard ∈ executor.dtx.participants ∧
      executor.dtx.dtxId = dtxId := by
  have hId := Executor.rpcs_dtxId rpc h
  rw [hLock] at hId
  unfold Executor.rpcs at h
  dsimp only at h
  split at h
  case h_1 answers hStage =>
      obtain ⟨shard, hShard, rfl⟩ := List.mem_map.mp h
      exact ⟨⟨answers, hStage⟩, hShard, hId.symm⟩
  case h_4 => cases h
  all_goals
    obtain ⟨shard, _, rfl⟩ := List.mem_map.mp h
    cases hLock

/-- A lock request that is delivered in time comes before the decision. -/
theorem PhaseInv.awaited_uncommitted (h : PhaseInv cluster view) (hProvenance : Provenance cluster)
    {executor : Executor} (hIn : executor ∈ cluster.executors) {rpc : Rpc}
    (hAwaited : executor.term = cluster.raft.term ∧ rpc ∈ executor.rpcs) {dtxId : Hash}
    {txs : List CompactTx} (hRequest : rpc.request = ⟨dtxId, .lock txs⟩) :
    ¬CommittedIn (commands cluster.raft.log) dtxId := by
  obtain ⟨⟨answers, hStage⟩, _, rfl⟩ := Executor.mem_rpcs_lock hAwaited.2 hRequest
  exact h.lock_uncommitted hProvenance hIn hAwaited.1 hStage

/-- A request is processed while its executor waits for the answer in the current term, so
it cannot falsify what is known of the dtxs that are over. -/
theorem DiscardInv.deliver (h : DiscardInv cluster) (hDecided : Decided record cluster)
    (hPhase : PhaseInv cluster view) (hProvenance : Provenance cluster) {crypto : Crypto}
    {message : Message} {respond : Bool} {shard after : LockingShard} {executor : Executor}
    {reply : LockingShard.Reply} (hSent : message ∈ cluster.sent)
    (hShard : cluster.shards[message.rpc.shard]? = some shard)
    (hFound : cluster.executors[message.executor]? = some executor)
    (hEffect : LockingShard.Effect crypto shard message.rpc.request after reply)
    (hAwaited : executor.term = cluster.raft.term ∧ message.rpc ∈ executor.rpcs) :
    DiscardInv { cluster with
      shards := cluster.shards.set message.rpc.shard after
      executors := cluster.executors.set message.executor
        (if respond then executor.answered message.rpc.shard reply else executor) } := by
  have hIn := List.mem_of_getElem? hFound
  have hLock : ∀ dtxId txs, message.rpc.request = ⟨dtxId, .lock txs⟩ →
      ¬CommittedIn (commands cluster.raft.log) dtxId :=
    fun _ _ hRequest => hPhase.awaited_uncommitted hProvenance hIn hAwaited hRequest
  have hBounded : ∀ dtxId prepared applied,
      Bounded (commands cluster.raft.log) cluster.shards dtxId prepared applied →
      Bounded (commands cluster.raft.log) (cluster.shards.set message.rpc.shard after) dtxId
        prepared applied :=
    fun dtxId _ _ hOld => hOld.afterRequest hShard hEffect (hLock dtxId)
  obtain ⟨_, owner, hOwner, hId⟩ := hDecided.messages message hSent
  obtain rfl : executor = owner := Option.some.inj (hFound.symm.trans hOwner)
  refine ⟨Slots.forall_mem_set (fun other hOther => (h.stages other hOther).mono hBounded) ?_,
    fun node command hCommand => (h.settled node command hCommand).mono hBounded,
    h.snapshots, ?_⟩
  · have hClean := (h.stages executor hIn).mono hBounded
    split
    case isTrue => exact hClean.answered hShard hEffect hId
    case isFalse => exact hClean
  · rintro place dtxId (hPrepared | hApplied)
    · rcases PreparedAt.of_request hShard hEffect hPrepared with hOld | ⟨rfl, txs, hRequest⟩
      · exact h.holders place dtxId (Or.inl hOld)
      · obtain ⟨⟨answers, hStage⟩, hParticipant, rfl⟩ :=
          Executor.mem_rpcs_lock hAwaited.2 hRequest
        obtain ⟨batch, hBatch, hBuilt, _⟩ := (hDecided.shaped executor hIn).2
          (by simp [Undecided, hStage])
        refine ⟨batch, hBatch, ?_⟩
        rwa [hBuilt.participants] at hParticipant
    · exact h.holders place dtxId (AppliedAt.of_request hShard hEffect hApplied).symm

theorem participants_recoverCommit (dtxId : Hash) (shardRanges : List ShardRange)
    (batch : List CompactTx) (completeTxs : List Bool) :
    ((new dtxId shardRanges).recoverCommit completeTxs
      (shardRanges.map fun range => relevantIdxs range batch)).participants =
      (built dtxId shardRanges batch).participants := by
  rw [built_eq]
  rfl

/-- An executor that takes up a dtx where the log left it. -/
theorem DiscardInv.recovered (h : DiscardInv cluster) (hDecided : Decided record cluster)
    {node term : Nat} {dtxId : Hash} {state left : CoordinatorState} {dtx : DistributedTx}
    {stage : Stage} (hSnapshot : cluster.recoveries node = .snapshot term state)
    (hRecovered : Recovered cluster.shardRanges state dtxId dtx stage left)
    (hForgotten : dtxId ∈ lastPhase (cluster.recoveries node) →
      ∀ shard ∈ cluster.shards, dtxId ∉ shard.appliedDtxs) :
    Clean (commands cluster.raft.log) cluster.shards ⟨node, term, dtx, stage⟩ := by
  cases hRecovered with
  | prepare found => trivial
  | @commit completeTxs txIdxs found =>
      have hCommit := (hDecided.snapshots node term state hSnapshot).2 dtxId _ found
      obtain ⟨batch, hBatch, _, rfl, _⟩ := hDecided.grounded.log grounded_prefix _ hCommit
      have hHolders : ∀ place,
          PreparedAt cluster.shards dtxId place ∨ AppliedAt cluster.shards dtxId place →
            place ∈ (built dtxId cluster.shardRanges batch).participants := by
        intro place hPlace
        obtain ⟨other, hOther, hParticipant⟩ := h.holders place dtxId hPlace
        obtain rfl : other = batch := Option.some.inj (hOther.symm.trans hBatch)
        exact hParticipant
      simp only [Clean]
      rw [participants_recoverCommit]
      exact ⟨⟨_, _, hCommit⟩, fun _ hPlace => hPlace.1,
        fun place hPrepared => ⟨hHolders place (Or.inl hPrepared), by simp⟩,
        fun place hApplied => hHolders place (Or.inr hApplied)⟩
  | discard found =>
      have hLast : dtxId ∈ lastPhase (cluster.recoveries node) := by
        rw [hSnapshot]
        exact found
      have hSettled : Bounded (commands cluster.raft.log) cluster.shards dtxId
          (fun _ => False) (fun _ => True) :=
        h.settled.log grounded_prefix _ (h.snapshots node dtxId hLast)
      refine ⟨hSettled.committed, fun _ hFalse => hFalse.elim, hSettled.prepared, ?_⟩
      rintro place ⟨shard, hShard, hApplied⟩
      exact (hForgotten hLast shard (List.mem_of_getElem? hShard) hApplied).elim

end Steps

/-- One event that meets the guard leaves nothing behind. -/
theorem DiscardInv.effect {record : Record} {crypto : Crypto} {cluster next : Cluster}
    {view : CoordinatorState} {event : Event} (h : DiscardInv cluster)
    (hDecided : Decided record cluster) (hPhase : PhaseInv cluster view)
    (hProvenance : Provenance cluster) (hGuard : cluster.KeepsDiscards event)
    (hEffect : Effect crypto cluster event next) : DiscardInv next := by
  obtain ⟨_, hAwaited, hForgotten⟩ := hGuard
  cases hEffect with
  | elect node => exact ⟨h.stages, h.settled, h.snapshots, h.holders⟩
  | copyLog count follower =>
      exact ⟨h.stages, h.settled.copyTo grounded_prefix _ count, h.snapshots, h.holders⟩
  | halt running next processed => exact ⟨h.stages, h.settled, h.snapshots, h.holders⟩
  | process running next processed => exact h.process next _
  | @report id command raft sm before after running next processed found waiting moved =>
      have hNext := h.process next sm
      have hLast : command ∈ commands raft.log := mem_commands_of_commitNext next
      have hBefore := List.mem_of_getElem? found
      refine hNext.replace id ((hNext.stages before hBefore).replicated waiting moved hLast ?_) _
      intro hStage place hPlace
      obtain ⟨batch, hBatch, hBuilt, _⟩ := (hDecided.shaped before hBefore).2
        (by simp [Undecided, hStage])
      obtain ⟨other, hOther, hParticipant⟩ := h.holders place _ hPlace
      obtain rfl : other = batch := Option.some.inj (hOther.symm.trans hBatch)
      rwa [hBuilt.participants]
  | @answerGet node id term raft running next awaiting =>
      have hProcessed : Provenance { cluster with raft := raft, sm := cluster.sm } :=
        hProvenance.process next rfl
      exact (h.process next cluster.sm).withRecoveries cluster.gets node
        (.snapshot term cluster.sm) (replay_traced hProcessed.processed).discarded
  | @submit node dtxId batch unused =>
      refine ⟨Slots.forall_mem_concat h.stages trivial, h.settled, h.snapshots, ?_⟩
      intro place other hPlace
      obtain ⟨found, hFound, hParticipant⟩ := h.holders place other hPlace
      exact ⟨found, Table.lookup_insert_of_lookup unused batch hFound, hParticipant⟩
  | @append id before after command found leads calls moved =>
      obtain ⟨hAfter, hSettled⟩ :=
        (h.stages before (List.mem_of_getElem? found)).accepted calls moved
      refine ⟨Slots.forall_mem_set h.stages hAfter, h.settled.accept ?_, h.snapshots, h.holders⟩
      rw [commands_append]
      exact Slots.forall_mem_concat (h.settled _) hSettled
  | @appendGet node leads joined =>
      have hAccepted : DiscardInv { cluster with
          raft := cluster.raft.accept ⟨.recovery node cluster.gets, .get⟩ } := by
        refine ⟨h.stages, h.settled.accept ?_, h.snapshots, h.holders⟩
        rw [commands_append]
        exact Slots.forall_mem_concat (h.settled _) trivial
      exact hAccepted.withRecoveries _ node _ fun dtxId hIn => by cases hIn
  | @recover node term dtxId state left dtx stage answered next =>
      have hRecovered := nextRecovered_recovered next
      have hClean := h.recovered hDecided answered hRecovered hForgotten
      have hLeft : ∀ other ∈ left.discardTxs,
          SmCommand.discard other ∈ commands cluster.raft.log := by
        intro other hIn
        obtain ⟨_, _, phase, _, _, hSubset⟩ := hRecovered.holds node term
        refine h.snapshots node other ?_
        rw [answered]
        exact ((hSubset .discard other).mp hIn).1
      have hBefore := h.withRecoveries cluster.gets node (.snapshot term left) hLeft
      exact ⟨Slots.forall_mem_concat hBefore.stages hClean, hBefore.settled, hBefore.snapshots,
        hBefore.holders⟩
  | deliver respond sent reached found processed =>
      have hShardEffect := LockingShard.processRequest_effect
        (hDecided.running _ (List.mem_of_getElem? reached)) processed
      exact h.deliver hDecided hPhase hProvenance sent reached found hShardEffect
        (hAwaited _ found)
  | finishRpc found moved =>
      exact h.replace _ ((h.stages _ (List.mem_of_getElem? found)).finished moved) _
  | @fail id before found runs =>
      have hClean : Clean (commands cluster.raft.log) cluster.shards
          { before with stage := .failed } := trivial
      exact h.replace id hClean _

theorem discardInv_initial (configs : List ShardConfig) : DiscardInv (initial configs) where
  stages := by simp [initial]
  settled := by
    intro node command hIn
    cases hIn
  snapshots := by
    intro node dtxId hIn
    cases hIn
  holders := by
    rintro place dtxId (⟨shard, hShard, hIn⟩ | ⟨shard, hShard, hIn⟩)
    · obtain ⟨config, _, rfl⟩ := List.mem_map.mp (List.mem_of_getElem? hShard)
      cases hIn
    · obtain ⟨config, _, rfl⟩ := List.mem_map.mp (List.mem_of_getElem? hShard)
      cases hIn

section Done

variable {crypto : Crypto} {configs : List ShardConfig} {events : List Event} {cluster : Cluster}

theorem discardInv (h : run (step crypto) (initial configs) events = some cluster)
    (hGuard : Guarded (step crypto) (initial configs) KeepsDiscards events) :
    DiscardInv cluster := by
  refine guarded_induction (motive := fun _ state => DiscardInv state)
    (discardInv_initial configs) ?_ h hGuard
  intro before state event next hBefore hPast hInv hNow hStep
  obtain ⟨view, hPhase⟩ := phaseInv hBefore (hPast.mono fun _ _ hKeeps => hKeeps.1)
  exact hInv.effect (decided hBefore) hPhase (provenance hBefore) hNow (step_effect hStep)

/-- If there are no stale deliveries and a dtx is recovered in its last phase
only when no shard remembers it, then no shard remembers a dtx that is done. -/
theorem done_forgotten (crypto : Crypto) (configs : List ShardConfig) (events : List Event)
    (cluster : Cluster) (hRun : run (step crypto) (initial configs) events = some cluster)
    (hGuard : Guarded (step crypto) (initial configs) KeepsDiscards events) (dtxId : Hash)
    (hDone : SmCommand.done dtxId ∈ commands cluster.raft.log) :
    ∀ shard ∈ cluster.shards, dtxId ∉ shard.appliedDtxs ∧ dtxId ∉ shard.preparedDtxs := by
  intro shard hIn
  obtain ⟨place, hShard⟩ := List.mem_iff_getElem?.mp hIn
  have hSettled : Bounded (commands cluster.raft.log) cluster.shards dtxId
      (fun _ => False) (fun _ => False) :=
    (discardInv hRun hGuard).settled.log grounded_prefix _ hDone
  exact ⟨fun hApplied => hSettled.applied place ⟨shard, hShard, hApplied⟩,
    fun hPrepared => hSettled.prepared place ⟨shard, hShard, hPrepared⟩⟩

/-- Node 0 has applied a dtx and its discard command is processed. -/
def discarding : List Event :=
  [.submit 0 (.ofByte 7) [spendTx], .append 0, .commitNext true,
    .deliver ⟨0, ⟨0, ⟨.ofByte 7, .lock [spendTx]⟩⟩⟩ true, .finishRpc 0, .append 0,
    .commitNext true,
    .deliver ⟨0, ⟨0, ⟨.ofByte 7, .apply [true]⟩⟩⟩ true, .finishRpc 0, .append 0,
    .commitNext true]

/-- Node 0 crashes, and node 1 recovers the dtx in its last phase. -/
def lastPhaseRecovery : List Event :=
  [.fail 0, .elect 1, .appendGet 1, .commitNext true, .recover 1 (.ofByte 7), .finishRpc 1,
    .append 1, .commitNext true]

/-- The crash comes after the discard request was processed. -/
theorem done_forgotten_late_crash :
    ∃ cluster, run (step .unused) (initial oneShard) (discarding ++
        .deliver ⟨0, ⟨0, ⟨.ofByte 7, .discard⟩⟩⟩ false :: lastPhaseRecovery) = some cluster ∧
      SmCommand.done (.ofByte 7) ∈ commands cluster.raft.log ∧
      ∀ shard ∈ cluster.shards,
        (.ofByte 7) ∉ shard.appliedDtxs ∧ (.ofByte 7) ∉ shard.preparedDtxs := by
  have hTest : (run (step .unused) (initial oneShard) (discarding ++
      .deliver ⟨0, ⟨0, ⟨.ofByte 7, .discard⟩⟩⟩ false :: lastPhaseRecovery)).any (fun cluster =>
        decide (SmCommand.done (.ofByte 7) ∈ commands cluster.raft.log)) = true := by
    decide +kernel
  have hGuard : Guarded (step .unused) (initial oneShard) KeepsDiscards (discarding ++
      .deliver ⟨0, ⟨0, ⟨.ofByte 7, .discard⟩⟩⟩ false :: lastPhaseRecovery) := by
    decide +kernel
  obtain ⟨cluster, hRun, hHolds⟩ := exists_run_of_test hTest
  have hDone := of_decide_eq_true hHolds
  exact ⟨cluster, hRun, hDone,
    done_forgotten .unused oneShard _ cluster hRun hGuard (.ofByte 7) hDone⟩

/-- The crash comes before the discard request was processed. Nothing stale is
delivered, the dtx is done, and the shard remembers it for ever. -/
theorem done_remembered :
    ∃ cluster, run (step .unused) (initial oneShard) (discarding ++ lastPhaseRecovery) =
        some cluster ∧
      Guarded (step .unused) (initial oneShard)
        (fun state event => state.KeepsTerm event ∧ state.Awaited event)
        (discarding ++ lastPhaseRecovery) ∧
      SmCommand.done (.ofByte 7) ∈ commands cluster.raft.log ∧
      ∃ shard ∈ cluster.shards, (.ofByte 7) ∈ shard.appliedDtxs := by
  have hTest : (run (step .unused) (initial oneShard) (discarding ++ lastPhaseRecovery)).any
      (fun cluster => decide (SmCommand.done (.ofByte 7) ∈ commands cluster.raft.log ∧
        ∃ shard ∈ cluster.shards, (.ofByte 7) ∈ shard.appliedDtxs)) = true := by
    decide +kernel
  have hGuard : Guarded (step .unused) (initial oneShard)
      (fun state event => state.KeepsTerm event ∧ state.Awaited event)
      (discarding ++ lastPhaseRecovery) := by
    decide +kernel
  obtain ⟨cluster, hRun, hHolds⟩ := exists_run_of_test hTest
  exact ⟨cluster, hRun, hGuard, of_decide_eq_true hHolds⟩

end Done

end OpenCbdc.Cluster

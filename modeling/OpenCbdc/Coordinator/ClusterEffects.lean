import OpenCbdc.Coordinator.Cluster
import OpenCbdc.Library.Run

/-! What each event of the cluster can do, said once. -/
namespace OpenCbdc.Cluster

/-- The state after an event, with the guards that the event has passed. -/
inductive Effect (crypto : Crypto) (cluster : Cluster) : Event → Cluster → Prop where
  | elect (node : Nat) :
      Effect crypto cluster (.elect node) { cluster with raft := cluster.raft.elect node }
  | copyLog {node : Nat} (count : Nat) (follower : node ≠ cluster.raft.leader) :
      Effect crypto cluster (.copyLog node count)
        { cluster with raft := cluster.raft.copyTo node count }
  | halt {report : Bool} {entry : Entry} {raft : ReplicatedLog Nat Entry}
      {fatal : CoordinatorState.Fatal} (running : cluster.halted = false)
      (next : cluster.raft.commitNext = some (entry, raft))
      (processed : cluster.sm.commit entry.command = .error fatal) :
      Effect crypto cluster (.commitNext report) { cluster with halted := true }
  | process {report : Bool} {entry : Entry} {raft : ReplicatedLog Nat Entry}
      {sm : CoordinatorState} (running : cluster.halted = false)
      (next : cluster.raft.commitNext = some (entry, raft))
      (processed : cluster.sm.step entry.command = some sm) :
      Effect crypto cluster (.commitNext report) { cluster with raft := raft, sm := sm }
  | report {id : Nat} {command : SmCommand} {raft : ReplicatedLog Nat Entry}
      {sm : CoordinatorState} {before after : Executor} (running : cluster.halted = false)
      (next : cluster.raft.commitNext = some (⟨.executor id, command⟩, raft))
      (processed : cluster.sm.step command = some sm)
      (found : cluster.executors[id]? = some before) (waiting : before.command = some command)
      (moved : before.replicated = some after) :
      Effect crypto cluster (.commitNext true)
        ({ cluster with raft := raft, sm := sm }.proceed id after)
  | answerGet {node id term : Nat} {raft : ReplicatedLog Nat Entry}
      (running : cluster.halted = false)
      (next : cluster.raft.commitNext = some (⟨.recovery node id, .get⟩, raft))
      (awaiting : cluster.recoveries node = .awaiting id term) :
      Effect crypto cluster (.commitNext true)
        { cluster with
          raft := raft
          recoveries := Function.update cluster.recoveries node (.snapshot term cluster.sm) }
  | submit (node : Nat) {dtxId : Hash} (batch : List CompactTx)
      (unused : dtxId ∉ cluster.batches) :
      Effect crypto cluster (.submit node dtxId batch)
        ({ cluster with batches := cluster.batches.insert dtxId batch }.spawn
          ⟨node, cluster.raft.term, .built dtxId cluster.shardRanges batch, .prepareCb⟩)
  | append {id : Nat} {before after : Executor} {command : SmCommand}
      (found : cluster.executors[id]? = some before)
      (leads : before.node = cluster.raft.leader) (calls : before.command = some command)
      (moved : before.accepted cluster.raft.term = some after) :
      Effect crypto cluster (.append id)
        { cluster with
          raft := cluster.raft.accept ⟨.executor id, command⟩
          executors := cluster.executors.set id after }
  | appendGet {node : Nat} (leads : node = cluster.raft.leader)
      (joined : ∀ executor ∈ cluster.executors, executor.node = node → executor.ended = true) :
      Effect crypto cluster (.appendGet node)
        { cluster with
          raft := cluster.raft.accept ⟨.recovery node cluster.gets, .get⟩
          recoveries := Function.update cluster.recoveries node
            (.awaiting cluster.gets cluster.raft.term)
          gets := cluster.gets + 1 }
  | recover {node term : Nat} {dtxId : Hash} {state left : CoordinatorState}
      {dtx : DistributedTx} {stage : Stage}
      (answered : cluster.recoveries node = .snapshot term state)
      (next : nextRecovered cluster.shardRanges state dtxId = some (dtx, stage, left)) :
      Effect crypto cluster (.recover node dtxId)
        ({ cluster with
          recoveries := Function.update cluster.recoveries node (.snapshot term left) }.spawn
            ⟨node, term, dtx, stage⟩)
  | deliver {message : Message} (respond : Bool) {shard after : LockingShard}
      {executor : Executor} {reply : LockingShard.Reply} (sent : message ∈ cluster.sent)
      (reached : cluster.shards[message.rpc.shard]? = some shard)
      (found : cluster.executors[message.executor]? = some executor)
      (processed : shard.processRequest crypto message.rpc.request = .ok (after, reply)) :
      Effect crypto cluster (.deliver message respond)
        { cluster with
          shards := cluster.shards.set message.rpc.shard after
          executors := cluster.executors.set message.executor
            (if respond then executor.answered message.rpc.shard reply else executor) }
  | finishRpc {id : Nat} {before after : Executor}
      (found : cluster.executors[id]? = some before) (moved : before.finished = some after) :
      Effect crypto cluster (.finishRpc id)
        { cluster with executors := cluster.executors.set id after }
  | fail {id : Nat} {before : Executor} (found : cluster.executors[id]? = some before)
      (runs : before.ended = false) :
      Effect crypto cluster (.fail id)
        { cluster with executors := cluster.executors.set id { before with stage := .failed } }

section Inversion

variable {crypto : Crypto} {cluster next : Cluster}

/-- Only `get` has a reply, and it changes nothing. -/
theorem commit_reply {state after reply : CoordinatorState} {command : SmCommand}
    (h : state.commit command = .ok (after, some reply)) :
    command = .get ∧ after = state ∧ reply = state := by
  cases command with
  | prepare dtxId txs =>
      rw [CoordinatorState.commit] at h
      split at h <;> cases h
  | commit dtxId completeTxs txIdxs =>
      rw [CoordinatorState.commit] at h
      split at h <;> cases h
  | discard dtxId =>
      rw [CoordinatorState.commit] at h
      split at h <;> cases h
  | done dtxId =>
      rw [CoordinatorState.commit] at h
      split at h <;> cases h
  | get =>
      cases h
      exact ⟨rfl, rfl, rfl⟩

/-- Committing an entry and telling its author is one of the effects, whether or not the
author still waits for it. -/
theorem notify_effect {entry : Entry} {raft : ReplicatedLog Nat Entry} {sm : CoordinatorState}
    {reply : Option CoordinatorState} (hRunning : cluster.halted = false)
    (hNext : cluster.raft.commitNext = some (entry, raft))
    (hCommit : cluster.sm.commit entry.command = .ok (sm, reply)) :
    Effect crypto cluster (.commitNext true)
      ({ cluster with raft := raft, sm := sm }.notify entry reply) := by
  have hStep : cluster.sm.step entry.command = some sm := by simp [CoordinatorState.step, hCommit]
  obtain ⟨author, command⟩ := entry
  cases author with
  | executor id =>
      dsimp only [notify]
      split
      case h_1 hNone => exact .process hRunning hNext hStep
      case h_2 executor hFound =>
          split
          case isFalse hOther => exact .process hRunning hNext hStep
          case isTrue hWaiting =>
              split
              case h_1 hNone => exact .process hRunning hNext hStep
              case h_2 after hMoved => exact .report hRunning hNext hStep hFound hWaiting hMoved
  | recovery node id =>
      dsimp only [notify]
      split
      case h_2 hOther => exact .process hRunning hNext hStep
      case h_1 awaited term state hAwaiting =>
          obtain ⟨rfl, rfl, rfl⟩ := commit_reply hCommit
          split
          case isFalse hOther => exact .process hRunning hNext hStep
          case isTrue hSame =>
              subst hSame
              exact .answerGet hRunning hNext hAwaiting

theorem commitNext_effect {report : Bool} (h : cluster.commitNext report = some next) :
    Effect crypto cluster (.commitNext report) next := by
  rw [commitNext] at h
  split at h
  case isTrue hHalted => cases h
  case isFalse hRunning =>
      rw [Bool.not_eq_true] at hRunning
      split at h
      case h_1 hNone => cases h
      case h_2 entry raft hNext =>
          split at h
          case h_1 fatal hFatal =>
              cases h
              exact .halt hRunning hNext hFatal
          case h_2 sm reply hCommit =>
              cases h
              cases report with
              | true => exact notify_effect hRunning hNext hCommit
              | false =>
                  exact .process hRunning hNext (by simp [CoordinatorState.step, hCommit])

/-- The effects list everything a cluster can do. Each invariant of the coordinator is
proved once for every one of them. -/
theorem step_effect {event : Event} (h : cluster.step crypto event = some next) :
    Effect crypto cluster event next := by
  cases event with
  | elect node =>
      cases h
      exact .elect node
  | copyLog node count =>
      rw [step] at h
      split at h
      case isTrue hLeader => cases h
      case isFalse hFollower =>
          cases h
          exact .copyLog count hFollower
  | commitNext report => exact commitNext_effect h
  | submit node dtxId batch =>
      rw [step, submit] at h
      split at h
      case isTrue hUsed => cases h
      case isFalse hUnused =>
          cases h
          exact .submit node batch hUnused
  | append id =>
      rw [step, append] at h
      split at h
      case h_1 hNone => cases h
      case h_2 executor hFound =>
          split at h
          case isFalse hOther => cases h
          case isTrue hLeads =>
              split at h
              case h_2 hNone => cases h
              case h_1 command after hCalls hMoved =>
                  cases h
                  exact .append hFound hLeads hCalls hMoved
  | appendGet node =>
      rw [step, appendGet] at h
      split at h
      case isFalse hNot => cases h
      case isTrue hGuard =>
          cases h
          exact .appendGet hGuard.1 hGuard.2
  | recover node dtxId =>
      rw [step, recover] at h
      split at h
      case h_2 hOther => cases h
      case h_1 term state hSnapshot =>
          split at h
          case h_1 hNone => cases h
          case h_2 dtx stage left hNext =>
              cases h
              exact .recover hSnapshot hNext
  | deliver message respond =>
      rw [step, deliver] at h
      split at h
      case isFalse hUnsent => cases h
      case isTrue hSent =>
          split at h
          case h_2 hNone => cases h
          case h_1 shard executor hShard hFound =>
              split at h
              case h_1 fatal hProcess => cases h
              case h_2 after reply hProcess =>
                  cases h
                  have hEffect := Effect.deliver respond hSent hShard hFound hProcess
                  cases respond with
                  | true => exact hEffect
                  | false =>
                      have hSame : cluster.executors.set message.executor executor =
                          cluster.executors := by
                        obtain ⟨hLt, rfl⟩ := List.getElem?_eq_some_iff.mp hFound
                        exact List.set_getElem_self hLt
                      simpa [hSame] using hEffect
  | finishRpc id =>
      rw [step, finishRpc] at h
      split at h
      case h_1 hNone => cases h
      case h_2 executor hFound =>
          split at h
          case h_1 hNone => cases h
          case h_2 after hMoved =>
              cases h
              exact .finishRpc hFound hMoved
  | fail id =>
      rw [step, fail] at h
      split at h
      case h_1 hNone => cases h
      case h_2 executor hFound =>
          split at h
          case isTrue hEnded => cases h
          case isFalse hRuns =>
              cases h
              exact .fail hFound (by simpa using hRuns)

end Inversion

section Frame

variable {crypto : Crypto} {cluster next : Cluster} {event : Event}

theorem log_prefix_of_commitNext {entry : Entry} {raft : ReplicatedLog Nat Entry}
    (h : cluster.raft.commitNext = some (entry, raft)) :
    raft.log = cluster.raft.log ++ [entry] := by
  obtain ⟨rest, _, rfl⟩ := ReplicatedLog.commitNext_eq_some h
  rfl

/-- Processed entries stay. -/
theorem Effect.log_prefix (h : Effect crypto cluster event next) :
    ∃ more, next.raft.log = cluster.raft.log ++ more := by
  cases h with
  | process running next processed => exact ⟨_, log_prefix_of_commitNext next⟩
  | report running next processed found waiting moved => exact ⟨_, log_prefix_of_commitNext next⟩
  | answerGet running next awaiting => exact ⟨_, log_prefix_of_commitNext next⟩
  | _ => exact ⟨[], (List.append_nil _).symm⟩

/-- The batch of a dtx stays the same. -/
theorem Effect.batches_lookup (h : Effect crypto cluster event next) {dtxId : Hash}
    {batch : List CompactTx} (hBatch : cluster.batches.lookup dtxId = some batch) :
    next.batches.lookup dtxId = some batch := by
  cases h with
  | submit node other unused => exact Table.lookup_insert_of_lookup unused other hBatch
  | _ => exact hBatch

theorem Effect.shardRanges (h : Effect crypto cluster event next) :
    next.shardRanges = cluster.shardRanges := by
  cases h <;> rfl

end Frame

end OpenCbdc.Cluster

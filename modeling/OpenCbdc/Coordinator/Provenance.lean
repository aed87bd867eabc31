import OpenCbdc.Coordinator.ClusterEffects
import OpenCbdc.Coordinator.Replay
import OpenCbdc.Library.Slots

/-! Where executors, log entries and snapshots come from. These invariants hold
along every run of the cluster: a dtx enters the log once, under an ID that was
drawn for it, and whoever works on it later has learned of it from the log. -/
namespace OpenCbdc

open CoordinatorState TransitionSystem

namespace Executor

/-- The table in which an executor has left its dtx, counting the commands
that were accepted for it. -/
def phase (executor : Executor) : Option DtxPhase :=
  match executor.stage with
  | .prepareWait | .locking _ | .commitCb => some .prepare
  | .commitWait | .applying _ | .discardCb => some .commit
  | .discardWait | .discarding _ | .doneCb => some .discard
  | .prepareCb | .doneWait | .done | .failed => none

/-- A local step of an executor, which leaves the log alone. -/
structure Follows (before after : Executor) : Prop where
  node : after.node = before.node
  term : after.term = before.term
  dtxId : after.dtx.dtxId = before.dtx.dtxId
  ranges : after.dtx.shardRanges = before.dtx.shardRanges
  phase : after.phase = before.phase ∨ after.phase = none
  stage : after.stage = .prepareCb → before.stage = .prepareCb

theorem Follows.refl (executor : Executor) : Follows executor executor :=
  ⟨rfl, rfl, rfl, rfl, Or.inl rfl, id⟩

variable {before after : Executor}

theorem replicated_follows (h : before.replicated = some after) : Follows before after := by
  unfold replicated at h
  split at h
  case h_5 => cases h
  all_goals
    rename_i hStage
    cases h
    exact ⟨rfl, rfl, rfl, rfl, Or.inl (by simp [phase, hStage]), fun h => by cases h⟩

theorem answered_follows (before : Executor) (shard : Nat) (reply : LockingShard.Reply) :
    Follows before (before.answered shard reply) := by
  unfold answered
  split
  case h_4 => exact .refl before
  all_goals
    rename_i hStage
    exact ⟨rfl, rfl, rfl, rfl, Or.inl (by simp [phase, hStage]), fun h => by cases h⟩

/-- Leaving a phase whose answers are complete is a local step: the node, the term and the
ID of the dtx stay, and the log is not touched. -/
theorem finished_follows (h : before.finished = some after) : Follows before after := by
  unfold finished at h
  dsimp only at h
  split at h
  case h_1 answers hStage =>
      split at h
      case isFalse hWaiting => cases h
      case isTrue hAnswered =>
          split at h
          case h_1 ret hDecision =>
              cases h
              exact ⟨rfl, rfl, rfl, rfl, Or.inl (by simp [phase, hStage]), fun h => by cases h⟩
          case h_2 hFatal =>
              cases h
              exact ⟨rfl, rfl, rfl, rfl, Or.inr rfl, fun h => by cases h⟩
  case h_4 hOther => cases h
  all_goals
    rename_i hStage
    split at h
    case isFalse hWaiting => cases h
    case isTrue hAnswered =>
        cases h
        exact ⟨rfl, rfl, rfl, rfl, Or.inl (by simp [phase, hStage]), fun h => by cases h⟩

theorem failed_follows (before : Executor) : Follows before { before with stage := .failed } :=
  ⟨rfl, rfl, rfl, rfl, Or.inr rfl, fun h => by cases h⟩

/-- What the log accepts from an executor. The first command of a dtx starts
its term; every later one takes the dtx from where the executor left it. -/
structure Calls (before after : Executor) (command : SmCommand) (term : Nat) : Prop where
  node : after.node = before.node
  dtx : after.dtx = before.dtx
  dtxId : command.dtxId? = some before.dtx.dtxId
  target : after.phase = command.target
  stage : after.stage ≠ .prepareCb
  origin : before.stage = .prepareCb ∧ command = .prepare before.dtx.dtxId before.dtx.fullTxs ∧
      after.term = term ∨
    before.stage ≠ .prepareCb ∧ before.phase = command.source ∧ command.source.isSome ∧
      after.term = before.term

/-- An executor prepares nothing but its own dtx, as the first thing it does. -/
theorem Calls.prepare {command : SmCommand} {term : Nat} (h : Calls before after command term)
    {dtxId : Hash} {txs : List CompactTx} (hCommand : command = .prepare dtxId txs) :
    before.stage = .prepareCb ∧ before.dtx.dtxId = dtxId := by
  subst hCommand
  rcases h.origin with ⟨hStage, hPrepare, _⟩ | ⟨_, _, hSome, _⟩
  · cases hPrepare
    exact ⟨hStage, rfl⟩
  · cases hSome

/-- When the log accepts the command of an executor, the executor enters the phase that the
command leads to. -/
theorem accepted_calls {command : SmCommand} {term : Nat} (hCalls : before.command = some command)
    (hMoved : before.accepted term = some after) : Calls before after command term := by
  unfold accepted at hMoved
  split at hMoved
  case h_1 hStage =>
      simp only [Executor.command, hStage, Option.some_inj] at hCalls
      subst hCalls
      cases hMoved
      exact ⟨rfl, rfl, rfl, rfl, fun h => (by cases h), Or.inl ⟨hStage, rfl, rfl⟩⟩
  case h_5 hOther => cases hMoved
  all_goals
    rename_i hStage
    simp only [Executor.command, hStage, Option.some_inj] at hCalls
    subst hCalls
    cases hMoved
    refine ⟨rfl, rfl, rfl, rfl, fun h => (by cases h), Or.inr ⟨?_, ?_, rfl, rfl⟩⟩
    · rw [hStage]
      exact fun h => by cases h
    · simp [phase, hStage, SmCommand.source]

end Executor

namespace Cluster

/-- What `recovery_func` makes of a dtx in each table. -/
inductive Recovered (shardRanges : List ShardRange) (state : CoordinatorState) (dtxId : Hash) :
    DistributedTx → Stage → CoordinatorState → Prop where
  | prepare {txs : List CompactTx} (found : state.prepareTxs.lookup dtxId = some txs) :
      Recovered shardRanges state dtxId ((DistributedTx.new dtxId shardRanges).recoverPrepare txs)
        (.locking fun _ => none) { state with prepareTxs := state.prepareTxs.erase dtxId }
  | commit {completeTxs : List Bool} {txIdxs : List (List Nat)}
      (found : state.commitTxs.lookup dtxId = some (completeTxs, txIdxs)) :
      Recovered shardRanges state dtxId
        ((DistributedTx.new dtxId shardRanges).recoverCommit completeTxs txIdxs)
        (.applying ∅) { state with commitTxs := state.commitTxs.erase dtxId }
  | discard (found : dtxId ∈ state.discardTxs) :
      Recovered shardRanges state dtxId (DistributedTx.new dtxId shardRanges).recoverDiscard
        (.discarding ∅) { state with discardTxs := state.discardTxs.erase dtxId }

variable {shardRanges : List ShardRange} {state left : CoordinatorState}

/-- The next dtx that a recovery takes up stands in one of the three tables, and is taken
out of the copy of the state that is left to recover. -/
theorem nextRecovered_recovered {dtxId : Hash} {dtx : DistributedTx} {stage : Stage}
    (h : nextRecovered shardRanges state dtxId = some (dtx, stage, left)) :
    Recovered shardRanges state dtxId dtx stage left := by
  unfold nextRecovered at h
  dsimp only at h
  split at h
  case h_1 other txs hFound =>
      cases h
      exact .prepare hFound
  case h_2 completeTxs txIdxs hNone hFound =>
      cases h
      exact .commit hFound
  case h_3 hPrepare hCommit =>
      split at h
      case isFalse hNone => cases h
      case isTrue hFound =>
          cases h
          exact .discard hFound

/-- The recovered dtx stood in one table of the snapshot and is taken out. -/
theorem Recovered.holds {dtxId : Hash} {dtx : DistributedTx} {stage : Stage}
    (h : Recovered shardRanges state dtxId dtx stage left) (node term : Nat) :
    dtx.dtxId = dtxId ∧ stage ≠ .prepareCb ∧
      ∃ phase, (Executor.mk node term dtx stage).phase = some phase ∧ state.Holds phase dtxId ∧
        ∀ other otherId, left.Holds other otherId ↔
          state.Holds other otherId ∧ ¬(other = phase ∧ otherId = dtxId) := by
  cases h with
  | @prepare txs found =>
      refine ⟨?_, fun h => (by cases h), .prepare, rfl, Finmap.mem_iff.mpr ⟨txs, found⟩, ?_⟩
      · rw [DistributedTx.recoverPrepare_new, DistributedTx.built_eq]
      · intro other otherId
        cases other <;> simp [Holds, and_comm]
  | @commit completeTxs txIdxs found =>
      refine ⟨rfl, fun h => (by cases h), .commit, rfl, Finmap.mem_iff.mpr ⟨_, found⟩, ?_⟩
      intro other otherId
      cases other <;> simp [Holds, and_comm]
  | discard found =>
      refine ⟨rfl, fun h => (by cases h), .discard, rfl, found, ?_⟩
      intro other otherId
      cases other <;> simp [Holds, and_comm]

/-- What is left to recover was read with the rest. -/
theorem Recovered.left_subset {dtxId : Hash} {dtx : DistributedTx} {stage : Stage}
    (h : Recovered shardRanges state dtxId dtx stage left) :
    (∀ other txs, left.prepareTxs.lookup other = some txs →
      state.prepareTxs.lookup other = some txs) ∧
    ∀ other data, left.commitTxs.lookup other = some data →
      state.commitTxs.lookup other = some data := by
  cases h with
  | prepare found =>
      exact ⟨fun _ _ hFound => (Table.of_lookup_erase hFound).2, fun _ _ hFound => hFound⟩
  | commit found =>
      exact ⟨fun _ _ hFound => hFound, fun _ _ hFound => (Table.of_lookup_erase hFound).2⟩
  | discard found => exact ⟨fun _ _ hFound => hFound, fun _ _ hFound => hFound⟩

def commands (entries : List Entry) : List SmCommand := entries.map Entry.command

@[simp] theorem commands_append (first second : List Entry) :
    commands (first ++ second) = commands first ++ commands second := List.map_append

/-- The command that the state machine processes is in the log from then on. -/
theorem mem_commands_of_commitNext {raft next : ReplicatedLog Nat Entry} {entry : Entry}
    (h : raft.commitNext = some (entry, next)) : entry.command ∈ commands next.log := by
  obtain ⟨rest, _, rfl⟩ := ReplicatedLog.commitNext_eq_some h
  simp [commands]

/-- Every executor of the second list continues the one in the same place of
the first. -/
def Follow (before after : List Executor) : Prop :=
  ∀ (id : Nat) (later : Executor), after[id]? = some later →
    ∃ earlier, before[id]? = some earlier ∧ Executor.Follows earlier later

theorem follow_set {executors : List Executor} {id : Nat} {before after : Executor}
    (hFound : executors[id]? = some before) (hFollows : Executor.Follows before after) :
    Follow executors (executors.set id after) := by
  intro other later hLater
  rcases Slots.of_set hLater with ⟨rfl, rfl⟩ | ⟨_, hOld⟩
  · exact ⟨before, hFound, hFollows⟩
  · exact ⟨later, hOld, .refl later⟩

/-- The origins of everything a cluster knows about dtxs. -/
structure Provenance (cluster : Cluster) : Prop where
  processed : replay (commands cluster.raft.log) = some cluster.sm
  once : cluster.raft.Histories fun history => (preparedIds (commands history)).Nodup
  drawn : cluster.raft.Histories fun history =>
    ∀ dtxId, PreparedIn dtxId (commands history) → dtxId ∈ cluster.batches
  known : ∀ executor ∈ cluster.executors, executor.dtx.dtxId ∈ cluster.batches
  unprepared : ∀ (id : Nat) (executor : Executor), cluster.executors[id]? = some executor →
    executor.stage = .prepareCb →
      cluster.raft.Histories fun history => ¬PreparedIn executor.dtx.dtxId (commands history)
  alone : ∀ (id : Nat) (executor : Executor), cluster.executors[id]? = some executor →
    executor.stage = .prepareCb →
      ∀ (other : Nat) (second : Executor), cluster.executors[other]? = some second →
        other ≠ id → second.dtx.dtxId ≠ executor.dtx.dtxId
  snapshots : ∀ node term state, cluster.recoveries node = .snapshot term state →
    ∀ phase dtxId, state.Holds phase dtxId → PreparedIn dtxId (commands cluster.raft.log)

section Prefixes

theorem preparedIn_append_left {dtxId : Hash} {first : List Entry} (second : List Entry)
    (h : PreparedIn dtxId (commands first)) : PreparedIn dtxId (commands (first ++ second)) := by
  rw [commands_append]
  exact h.mono (List.subset_append_left ..)

theorem once_prefix (first second : List Entry)
    (h : (preparedIds (commands (first ++ second))).Nodup) :
    (preparedIds (commands first)).Nodup := by
  rw [commands_append, preparedIds, List.filterMap_append] at h
  exact (List.nodup_append.mp h).1

end Prefixes

section Steps

variable {cluster : Cluster} {dtxId : Hash}

/-- Local steps of executors concern neither the log nor the tables. -/
theorem Provenance.follow (h : Provenance cluster) {executors : List Executor}
    (hFollow : Follow cluster.executors executors) (shards : List LockingShard)
    (sent : List Message) :
    Provenance { cluster with executors := executors, shards := shards, sent := sent } where
  processed := h.processed
  once := h.once
  drawn := h.drawn
  known := by
    intro executor hIn
    obtain ⟨id, hLater⟩ := List.mem_iff_getElem?.mp hIn
    obtain ⟨earlier, hEarlier, hFollows⟩ := hFollow id executor hLater
    rw [hFollows.dtxId]
    exact h.known earlier (List.mem_of_getElem? hEarlier)
  unprepared := by
    intro id executor hLater hStage
    obtain ⟨earlier, hEarlier, hFollows⟩ := hFollow id executor hLater
    rw [hFollows.dtxId]
    exact h.unprepared id earlier hEarlier (hFollows.stage hStage)
  alone := by
    intro id executor hLater hStage other second hSecond hNe
    obtain ⟨earlier, hEarlier, hFollows⟩ := hFollow id executor hLater
    obtain ⟨old, hOld, hOldFollows⟩ := hFollow other second hSecond
    rw [hFollows.dtxId, hOldFollows.dtxId]
    exact h.alone id earlier hEarlier (hFollows.stage hStage) other old hOld hNe
  snapshots := h.snapshots

theorem Provenance.elect (h : Provenance cluster) (node : Nat) :
    Provenance { cluster with raft := cluster.raft.elect node } :=
  ⟨h.processed, h.once, h.drawn, h.known, h.unprepared, h.alone, h.snapshots⟩

theorem Provenance.copyLog (h : Provenance cluster) (node count : Nat) :
    Provenance { cluster with raft := cluster.raft.copyTo node count } where
  processed := h.processed
  once := h.once.copyTo once_prefix node count
  drawn := h.drawn.copyTo (fun _ second hAll dtxId hPrepared =>
    hAll dtxId (preparedIn_append_left second hPrepared)) node count
  known := h.known
  unprepared := fun id executor hFound hStage => (h.unprepared id executor hFound hStage).copyTo
    (fun _ second hNot hPrepared => hNot (preparedIn_append_left second hPrepared)) node count
  alone := h.alone
  snapshots := h.snapshots

/-- The state machine of the cluster stays the replay of the committed commands. -/
theorem Provenance.process (h : Provenance cluster) {entry : Entry}
    {raft : ReplicatedLog Nat Entry} {sm : CoordinatorState}
    (hNext : cluster.raft.commitNext = some (entry, raft))
    (hProcessed : cluster.sm.step entry.command = some sm) :
    Provenance { cluster with raft := raft, sm := sm } where
  processed := by
    obtain ⟨rest, _, rfl⟩ := ReplicatedLog.commitNext_eq_some hNext
    rw [commands_append]
    exact (run_concat _ _ _ _ _).mpr ⟨cluster.sm, h.processed, hProcessed⟩
  once := h.once.commitNext once_prefix hNext
  drawn := h.drawn.commitNext (fun _ second hAll dtxId hPrepared =>
    hAll dtxId (preparedIn_append_left second hPrepared)) hNext
  known := h.known
  unprepared := fun id executor hFound hStage =>
    (h.unprepared id executor hFound hStage).commitNext
      (fun _ second hNot hPrepared => hNot (preparedIn_append_left second hPrepared)) hNext
  alone := h.alone
  snapshots := by
    obtain ⟨rest, _, rfl⟩ := ReplicatedLog.commitNext_eq_some hNext
    intro node term state hSnapshot phase dtxId hHolds
    exact preparedIn_append_left _ (h.snapshots node term state hSnapshot phase dtxId hHolds)

theorem Provenance.withRecovery (h : Provenance cluster) (gets node : Nat) {recovery : Recovery}
    (hSnapshot : ∀ term state, recovery = .snapshot term state → ∀ phase dtxId,
      state.Holds phase dtxId → PreparedIn dtxId (commands cluster.raft.log)) :
    Provenance { cluster with
      recoveries := Function.update cluster.recoveries node recovery, gets := gets } := by
  refine ⟨h.processed, h.once, h.drawn, h.known, h.unprepared, h.alone, ?_⟩
  intro other term state hFound
  rcases Table.of_update hFound with ⟨_, hNew⟩ | ⟨_, hOld⟩
  · exact hSnapshot term state hNew
  · exact h.snapshots other term state hOld

/-- What stands in the tables was prepared in the log. -/
theorem Provenance.holds (h : Provenance cluster) {phase : DtxPhase}
    (hHolds : cluster.sm.Holds phase dtxId) : PreparedIn dtxId (commands cluster.raft.log) :=
  (replay_traced h.processed).holds hHolds

theorem Provenance.not_prepared (h : Provenance cluster) (hUnused : dtxId ∉ cluster.batches) :
    cluster.raft.Histories fun history => ¬PreparedIn dtxId (commands history) :=
  fun node hPrepared => hUnused (h.drawn node dtxId hPrepared)

theorem Provenance.not_prepared_log (h : Provenance cluster) {id : Nat} {executor : Executor}
    (hFound : cluster.executors[id]? = some executor) (hStage : executor.stage = .prepareCb) :
    ¬PreparedIn executor.dtx.dtxId (commands cluster.raft.log) :=
  (h.unprepared id executor hFound hStage).log
    (fun _ second hNot hPrepared => hNot (preparedIn_append_left second hPrepared))

theorem Provenance.prepared_log (h : Provenance cluster)
    (hPrepared : PreparedIn dtxId (commands cluster.raft.log)) : dtxId ∈ cluster.batches :=
  h.drawn cluster.raft.leader dtxId (preparedIn_append_left _ hPrepared)

/-- A new dtx has an ID that no log knows, so its executor is alone in preparing it. -/
theorem Provenance.submit (h : Provenance cluster) (node : Nat) (batch : List CompactTx)
    (hUnused : dtxId ∉ cluster.batches) :
    Provenance ({ cluster with batches := cluster.batches.insert dtxId batch }.spawn
      ⟨node, cluster.raft.term, .built dtxId cluster.shardRanges batch, .prepareCb⟩) where
  processed := h.processed
  once := h.once
  drawn := fun other id hPrepared => Finmap.mem_insert.mpr (Or.inr (h.drawn other id hPrepared))
  known := by
    refine Slots.forall_mem_concat (fun executor hIn => ?_) ?_
    · exact Finmap.mem_insert.mpr (Or.inr (h.known executor hIn))
    · rw [DistributedTx.built_eq]
      exact Finmap.mem_insert.mpr (Or.inl rfl)
  unprepared := by
    intro id executor hFound hStage
    rcases Slots.of_concat hFound with ⟨_, rfl⟩ | ⟨_, hOld⟩
    · rw [DistributedTx.built_eq]
      exact h.not_prepared hUnused
    · exact h.unprepared id executor hOld hStage
  alone := by
    intro id executor hFound hStage other second hSecond hNe
    rcases Slots.of_concat hFound with ⟨hId, rfl⟩ | ⟨_, hOld⟩
    · rcases Slots.of_concat hSecond with ⟨hOther, _⟩ | ⟨_, hOldSecond⟩
      · exact (hNe (hOther.trans hId.symm)).elim
      · rw [DistributedTx.built_eq]
        rintro rfl
        exact hUnused (h.known second (List.mem_of_getElem? hOldSecond))
    · rcases Slots.of_concat hSecond with ⟨_, rfl⟩ | ⟨_, hOldSecond⟩
      · rw [DistributedTx.built_eq]
        rintro rfl
        exact hUnused (h.known executor (List.mem_of_getElem? hOld))
      · exact h.alone id executor hOld hStage other second hOldSecond hNe
  snapshots := h.snapshots

theorem preparedIn_concat {before : List Entry} {entry : Entry}
    (h : PreparedIn dtxId (commands (before ++ [entry]))) :
    PreparedIn dtxId (commands before) ∨ ∃ txs, entry.command = .prepare dtxId txs := by
  obtain ⟨txs, hIn⟩ := h
  rw [commands_append, List.mem_append] at hIn
  rcases hIn with hBefore | hLast
  · exact Or.inl ⟨txs, hBefore⟩
  · exact Or.inr ⟨txs, (List.mem_singleton.mp hLast).symm⟩

theorem preparedIds_concat_of_ne {before : List Entry} {entry : Entry}
    (h : ∀ dtxId txs, entry.command ≠ .prepare dtxId txs) :
    preparedIds (commands (before ++ [entry])) = preparedIds (commands before) := by
  rw [commands_append, show commands [entry] = [entry.command] from rfl, preparedIds_concat]
  cases hCommand : entry.command with
  | prepare dtxId txs => exact (h dtxId txs hCommand).elim
  | commit dtxId completeTxs txIdxs => exact List.append_nil _
  | discard dtxId => exact List.append_nil _
  | done dtxId => exact List.append_nil _
  | get => exact List.append_nil _

/-- The one step that lengthens a log. A `prepare` is appended only by the executor that is
alone with its dtx, which keeps every dtx prepared at most once. -/
theorem Provenance.append (h : Provenance cluster) {id : Nat} {before after : Executor}
    {command : SmCommand} (hFound : cluster.executors[id]? = some before)
    (hCalls : Executor.Calls before after command cluster.raft.term) :
    Provenance { cluster with
      raft := cluster.raft.accept ⟨.executor id, command⟩
      executors := cluster.executors.set id after } where
  processed := h.processed
  once := by
    refine h.once.accept ?_
    by_cases hPrepare : ∃ dtxId txs, command = .prepare dtxId txs
    · obtain ⟨dtxId, txs, rfl⟩ := hPrepare
      obtain ⟨hStage, rfl⟩ := hCalls.prepare rfl
      have hNot : before.dtx.dtxId ∉
          preparedIds (commands (cluster.raft.history cluster.raft.leader)) := by
        rw [mem_preparedIds]
        exact h.unprepared id before hFound hStage cluster.raft.leader
      rw [commands_append, preparedIds, List.filterMap_append]
      refine List.nodup_append.mpr ⟨h.once _, by simp [commands], ?_⟩
      intro other hOther last hLast
      obtain rfl : last = before.dtx.dtxId := by simpa [commands] using hLast
      rintro rfl
      exact hNot hOther
    · rw [preparedIds_concat_of_ne fun dtxId txs hCommand => hPrepare ⟨dtxId, txs, hCommand⟩]
      exact h.once _
  drawn := by
    refine h.drawn.accept fun dtxId hPrepared => ?_
    rcases preparedIn_concat hPrepared with hOld | ⟨txs, hCommand⟩
    · exact h.drawn _ dtxId hOld
    · obtain ⟨_, rfl⟩ := hCalls.prepare hCommand
      exact h.known before (List.mem_of_getElem? hFound)
  known := by
    refine Slots.forall_mem_set h.known ?_
    rw [hCalls.dtx]
    exact h.known before (List.mem_of_getElem? hFound)
  unprepared := by
    intro other executor hOther hStage
    rcases Slots.of_set hOther with ⟨_, rfl⟩ | ⟨hNe, hOld⟩
    · exact (hCalls.stage hStage).elim
    · refine (h.unprepared other executor hOld hStage).accept fun hPrepared => ?_
      rcases preparedIn_concat hPrepared with hBefore | ⟨txs, hCommand⟩
      · exact h.unprepared other executor hOld hStage _ hBefore
      · exact h.alone other executor hOld hStage id before hFound hNe.symm
          (hCalls.prepare hCommand).2
  alone := by
    intro other executor hOther hStage third second hSecond hNe
    rcases Slots.of_set hOther with ⟨_, rfl⟩ | ⟨_, hOld⟩
    · exact (hCalls.stage hStage).elim
    · rcases Slots.of_set hSecond with ⟨rfl, rfl⟩ | ⟨_, hOldSecond⟩
      · rw [hCalls.dtx]
        exact h.alone other executor hOld hStage third before hFound hNe
      · exact h.alone other executor hOld hStage third second hOldSecond hNe
  snapshots := h.snapshots

/-- The command by which a new leader reads the state prepares nothing. -/
theorem Provenance.acceptGet (h : Provenance cluster) (author : Author) :
    Provenance { cluster with raft := cluster.raft.accept ⟨author, .get⟩ } where
  processed := h.processed
  once := by
    refine h.once.accept ?_
    rw [preparedIds_concat_of_ne fun dtxId txs hCommand => by cases hCommand]
    exact h.once _
  drawn := by
    refine h.drawn.accept fun dtxId hPrepared => ?_
    rcases preparedIn_concat hPrepared with hOld | ⟨txs, hCommand⟩
    · exact h.drawn _ dtxId hOld
    · cases hCommand
  known := h.known
  unprepared := by
    intro id executor hFound hStage
    refine (h.unprepared id executor hFound hStage).accept fun hPrepared => ?_
    rcases preparedIn_concat hPrepared with hOld | ⟨txs, hCommand⟩
    · exact h.unprepared id executor hFound hStage _ hOld
    · cases hCommand
  alone := h.alone
  snapshots := h.snapshots

/-- A new executor for a dtx of the log. -/
theorem Provenance.spawn (h : Provenance cluster) {executor : Executor}
    (hStage : executor.stage ≠ .prepareCb)
    (hPrepared : PreparedIn executor.dtx.dtxId (commands cluster.raft.log)) :
    Provenance (cluster.spawn executor) where
  processed := h.processed
  once := h.once
  drawn := h.drawn
  known := Slots.forall_mem_concat h.known (h.prepared_log hPrepared)
  unprepared := by
    intro id other hFound hOther
    rcases Slots.of_concat hFound with ⟨_, rfl⟩ | ⟨_, hOld⟩
    · exact (hStage hOther).elim
    · exact h.unprepared id other hOld hOther
  alone := by
    intro id first hFound hFirst other second hSecond hNe
    rcases Slots.of_concat hFound with ⟨_, rfl⟩ | ⟨_, hOld⟩
    · exact (hStage hFirst).elim
    · rcases Slots.of_concat hSecond with ⟨_, rfl⟩ | ⟨_, hOldSecond⟩
      · intro hSame
        rw [hSame] at hPrepared
        exact h.not_prepared_log hOld hFirst hPrepared
      · exact h.alone id first hOld hFirst other second hOldSecond hNe
  snapshots := h.snapshots

end Steps

/-- Every step keeps the origins, whatever the leader, the network and the shards do. -/
theorem Provenance.effect {crypto : Crypto} {cluster next : Cluster} {event : Event}
    (h : Provenance cluster) (hEffect : Effect crypto cluster event next) :
    Provenance next := by
  cases hEffect with
  | elect node => exact h.elect node
  | copyLog count follower => exact h.copyLog _ count
  | halt running next processed =>
      exact ⟨h.processed, h.once, h.drawn, h.known, h.unprepared, h.alone, h.snapshots⟩
  | process running next processed => exact h.process next processed
  | report running next processed found waiting moved =>
      exact (h.process next processed).follow
        (follow_set found (Executor.replicated_follows moved)) _ _
  | @answerGet node id term raft running next awaiting =>
      have hProcessed : Provenance { cluster with raft := raft, sm := cluster.sm } :=
        h.process next rfl
      refine hProcessed.withRecovery cluster.gets node ?_
      intro _ state hSnapshot phase dtxId hHolds
      cases hSnapshot
      exact hProcessed.holds hHolds
  | submit node batch unused => exact h.submit node batch unused
  | append found leads calls moved => exact h.append found (Executor.accepted_calls calls moved)
  | @appendGet node leads joined =>
      refine (h.acceptGet _).withRecovery _ node ?_
      intro term state hSnapshot
      cases hSnapshot
  | @recover node term dtxId state left dtx stage answered next =>
      obtain ⟨rfl, hStage, phase, _, hHolds, hLeft⟩ :=
        (nextRecovered_recovered next).holds node term
      have hSnapshots := h.snapshots node term state answered
      have hBefore : Provenance { cluster with
          recoveries := Function.update cluster.recoveries node (.snapshot term left) } := by
        refine h.withRecovery cluster.gets node ?_
        intro _ otherState hSnapshot otherPhase otherId hOther
        cases hSnapshot
        exact hSnapshots otherPhase otherId ((hLeft otherPhase otherId).mp hOther).1
      exact hBefore.spawn hStage (hSnapshots phase _ hHolds)
  | deliver respond sent reached found processed =>
      refine h.follow (follow_set found ?_) _ _
      split
      case isTrue => exact Executor.answered_follows _ _ _
      case isFalse => exact .refl _
  | finishRpc found moved => exact h.follow (follow_set found (Executor.finished_follows moved)) _ _
  | fail found runs => exact h.follow (follow_set found (Executor.failed_follows _)) _ _

theorem provenance_initial (configs : List ShardConfig) : Provenance (initial configs) where
  processed := rfl
  once := fun _ => List.nodup_nil
  drawn := by
    rintro node dtxId ⟨txs, hIn⟩
    cases hIn
  known := by simp [initial]
  unprepared := by simp [initial]
  alone := by simp [initial]
  snapshots := by
    intro node term state hSnapshot
    cases hSnapshot

/-- Every run keeps the origins in order. -/
theorem provenance {crypto : Crypto} {configs : List ShardConfig} {events : List Event}
    {cluster : Cluster} (h : run (step crypto) (initial configs) events = some cluster) :
    Provenance cluster :=
  run_invariant (motive := Provenance) (provenance_initial configs)
    (fun _ _ _ hState hStep => hState.effect (step_effect hStep)) h

end Cluster

end OpenCbdc

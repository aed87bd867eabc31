import OpenCbdc.Coordinator.Discard
import OpenCbdc.Coordinator.TwoPhase

/-! The coordinators and their shards carry out two-phase commit. While nothing
stale is delivered, every event of the cluster is a move of the two-phase
system or none at all, so the cluster spends no coin twice. The lock set has
no owners, though: an abort can give back a lock that another batch holds. -/
namespace OpenCbdc.Cluster

open CoordinatorState DistributedTx TransitionSystem

/-- An apply request gives back only locks of its own batch. -/
def ReleasesOwn (cluster : Cluster) : Event → Prop
  | .deliver message _ => ∀ shard ∈ cluster.shards[message.rpc.shard]?,
      shard.ReleasesOwn message.rpc.request
  | _ => True

/-- No stale deliveries, and no abort that gives back the lock of another. -/
def KeepsLocks (cluster : Cluster) (event : Event) : Prop :=
  cluster.KeepsTerm event ∧ cluster.Awaited event ∧ cluster.ReleasesOwn event

section Decidable

variable (cluster : Cluster)

instance : ∀ event, Decidable (cluster.ReleasesOwn event)
  | .deliver message _ =>
      inferInstanceAs (Decidable (∀ shard ∈ cluster.shards[message.rpc.shard]?, _))
  | .elect _ | .copyLog _ _ | .commitNext _ | .submit _ _ _ | .append _ | .appendGet _
  | .recover _ _ | .finishRpc _ | .fail _ => inferInstanceAs (Decidable True)

instance (event : Event) : Decidable (cluster.KeepsLocks event) :=
  inferInstanceAs (Decidable (_ ∧ _ ∧ _))

end Decidable

def decisions (log : List SmCommand) : List (Hash × List Bool) :=
  log.filterMap fun
    | .commit dtxId completeTxs _ => some (dtxId, completeTxs)
    | _ => none

/-- The cluster as the two-phase system sees it. -/
def twoPhase (cluster : Cluster) : TwoPhase :=
  { shards := cluster.shards
    batches := cluster.batches
    decisions := decisions (commands cluster.raft.log) }

def seeds (configs : List ShardConfig) (place : Nat) : Finset Hash :=
  match configs[place]? with
  | some config => config.preseed
  | none => ∅

/-- The decisions are those of the `commit` commands. -/
theorem mem_decisions {log : List SmCommand} {dtxId : Hash} {completeTxs : List Bool} :
    (dtxId, completeTxs) ∈ decisions log ↔
      ∃ txIdxs, SmCommand.commit dtxId completeTxs txIdxs ∈ log := by
  rw [decisions, List.mem_filterMap]
  constructor
  · rintro ⟨command, hCommand, hPair⟩
    cases command with
    | commit other flags txIdxs =>
        cases hPair
        exact ⟨txIdxs, hCommand⟩
    | prepare other txs => cases hPair
    | discard other => cases hPair
    | done other => cases hPair
    | get => cases hPair
  · rintro ⟨txIdxs, hCommand⟩
    exact ⟨_, hCommand, rfl⟩

/-- A shard holds these lock results, or the decision has been processed. -/
def held (cluster : Cluster) : Record :=
  fun dtxId place txs results => Stores dtxId place txs results cluster ∨
    CommittedIn (commands cluster.raft.log) dtxId

section Held

variable {crypto : Crypto} {cluster next : Cluster} {event : Event} {record : Record}

theorem Effect.committedIn (h : Effect crypto cluster event next) {dtxId : Hash}
    (hCommitted : CommittedIn (commands cluster.raft.log) dtxId) :
    CommittedIn (commands next.raft.log) dtxId := by
  obtain ⟨more, hMore⟩ := h.log_prefix
  rw [hMore, commands_append]
  exact hCommitted.mono (List.subset_append_left ..)

/-- A decision that was sent to a shard is in the log. -/
theorem Decided.committedIn_of_apply (h : Decided record cluster) {message : Message}
    (hSent : message ∈ cluster.sent) {dtxId : Hash} {completeTxs : List Bool}
    (hRequest : message.rpc.request = ⟨dtxId, .apply completeTxs⟩) :
    CommittedIn (commands cluster.raft.log) dtxId := by
  have hRpc := (h.messages message hSent).1
  rw [RpcOk, hRequest] at hRpc
  obtain ⟨_, decision, txIdxs, hCommit, _⟩ := hRpc
  exact ⟨decision, txIdxs, hCommit⟩

/-- Only a processed decision lets a shard drop its lock results. -/
theorem Decided.stores_or_committed (h : Decided record cluster)
    (hEffect : Effect crypto cluster event next) {dtxId : Hash} {place : Nat}
    {txs : List CompactTx} {results : List Bool}
    (hStores : Stores dtxId place txs results cluster) :
    held next dtxId place txs results := by
  cases hEffect with
  | @deliver message respond shard after executor reply sent reached found processed =>
      obtain ⟨holder, hHolder, hDtx⟩ := hStores
      by_cases hPlace : place = message.rpc.shard
      · subst hPlace
        obtain rfl : shard = holder := Option.some.inj (reached.symm.trans hHolder)
        have hShardEffect := LockingShard.processRequest_effect
          (h.running shard (List.mem_of_getElem? reached)) processed
        rcases hShardEffect.kept_or_applied hDtx with hKept | ⟨completeTxs, hRequest, _⟩
        · exact Or.inl ⟨after,
            List.getElem?_set_self (List.getElem?_eq_some_iff.mp reached).1, hKept⟩
        · exact Or.inr (h.committedIn_of_apply sent hRequest)
      · exact Or.inl ⟨holder, (List.getElem?_set_ne (Ne.symm hPlace)).trans hHolder, hDtx⟩
  | _ => exact Or.inl hStores

theorem Decided.held_mono (h : Decided record cluster)
    (hEffect : Effect crypto cluster event next) {dtxId : Hash} {place : Nat}
    {txs : List CompactTx} {results : List Bool} (hHeld : held cluster dtxId place txs results) :
    held next dtxId place txs results := by
  rcases hHeld with hStores | hCommitted
  · exact h.stores_or_committed hEffect hStores
  · exact Or.inr (hEffect.committedIn hCommitted)

/-- Until a decision is processed, the lock results it rests on are held. -/
theorem decided_held {configs : List ShardConfig} {events : List Event}
    (h : run (step crypto) (initial configs) events = some cluster) :
    Decided (held cluster) cluster := by
  refine run_induction (motive := fun _ state => Decided (held state) state)
    (decided_initial _ configs) ?_ h
  intro before state event next hBefore ih hStep
  have hEffect := step_effect hStep
  have hLater : Decided (held next) state := ih.mono fun _ _ _ _ hHeld => ih.held_mono hEffect hHeld
  refine hLater.effect (provenance hBefore) hEffect ?_
  exact fun place shard dtxId dtx hShard hDtx => Or.inl ⟨shard, hShard, hDtx⟩

end Held

section Ranges

variable {crypto : Crypto} {cluster next : Cluster} {event : Event} {record : Record}

/-- Shards keep the ranges they were configured with. -/
theorem Decided.shards_ranges (h : Decided record cluster)
    (hRanges : cluster.shards.map LockingShard.outputRange = cluster.shardRanges)
    (hEffect : Effect crypto cluster event next) :
    next.shards.map LockingShard.outputRange = next.shardRanges := by
  cases hEffect with
  | @deliver message respond shard after executor reply sent reached found processed =>
      have hShardEffect := LockingShard.processRequest_effect
        (h.running shard (List.mem_of_getElem? reached)) processed
      obtain ⟨hLt, rfl⟩ := List.getElem?_eq_some_iff.mp reached
      dsimp only
      rw [List.map_set, hShardEffect.outputRange, ← List.getElem_map LockingShard.outputRange,
        List.set_getElem_self, hRanges]
      rwa [List.length_map]
  | _ => exact hRanges

theorem shards_ranges {configs : List ShardConfig} {events : List Event}
    (h : run (step crypto) (initial configs) events = some cluster) :
    cluster.shardRanges = configs.map ShardConfig.outputRange ∧
      cluster.shards.map LockingShard.outputRange = cluster.shardRanges := by
  refine run_induction (motive := fun _ state =>
    state.shardRanges = configs.map ShardConfig.outputRange ∧
      state.shards.map LockingShard.outputRange = state.shardRanges) ?_ ?_ h
  · exact ⟨rfl, by simp [initial, ShardConfig.start, LockingShard.initial]⟩
  · rintro before state event next hBefore ⟨hConfigs, hRanges⟩ hStep
    have hEffect := step_effect hStep
    exact ⟨hEffect.shardRanges.trans hConfigs, (decided hBefore).shards_ranges hRanges hEffect⟩

theorem range_of_shard (hRanges : cluster.shards.map LockingShard.outputRange = cluster.shardRanges)
    {place : Nat} {shard : LockingShard} (hShard : cluster.shards[place]? = some shard) :
    cluster.shardRanges[place]? = some shard.outputRange := by
  rw [← hRanges, List.getElem?_map, hShard]
  rfl

end Ranges

section Simulation

variable {crypto : Crypto} {cluster next : Cluster} {event : Event} {view : CoordinatorState}

theorem decisions_append (first second : List SmCommand) :
    decisions (first ++ second) = decisions first ++ decisions second :=
  List.filterMap_append

/-- A processed decision was not processed before, and all that it completes is
granted. -/
theorem twoPhase_process (hDecided : Decided (held cluster) cluster)
    (hProvenance : Provenance cluster)
    (hRanges : cluster.shards.map LockingShard.outputRange = cluster.shardRanges) {entry : Entry}
    {raft : ReplicatedLog Nat Entry} {sm : CoordinatorState}
    (hNext : cluster.raft.commitNext = some (entry, raft))
    (hProcessed : cluster.sm.step entry.command = some sm) :
    { cluster with raft := raft }.twoPhase = cluster.twoPhase ∨
      TwoPhase.Move crypto cluster.twoPhase { cluster with raft := raft }.twoPhase := by
  have hLog : commands raft.log = commands cluster.raft.log ++ [entry.command] := by
    rw [log_prefix_of_commitNext hNext, commands_append]
    rfl
  have hEntry : entry ∈ cluster.raft.history cluster.raft.leader := by
    obtain ⟨rest, hTail, _⟩ := ReplicatedLog.commitNext_eq_some hNext
    simp [ReplicatedLog.history, hTail]
  have hGrounded := hDecided.grounded cluster.raft.leader entry.command (List.mem_map_of_mem hEntry)
  simp only [twoPhase, hLog, decisions_append]
  cases hCommand : entry.command with
  | commit dtxId completeTxs txIdxs =>
      rw [hCommand] at hGrounded hProcessed
      obtain ⟨batch, hBatch, _, _, hBacked⟩ := hGrounded
      have hHolds : cluster.sm.Holds .prepare dtxId := (step_processed hProcessed).source rfl rfl
      have hOrdered : Ordered (commands cluster.raft.log) cluster.sm :=
        replay_ordered hProvenance.processed (hProvenance.once.log once_prefix)
      refine Or.inr (.decide hBatch ?_ ?_)
      · intro decision hIn
        obtain ⟨idxs, hCommit⟩ := mem_decisions.mp hIn
        exact hOrdered.uncommitted dtxId hHolds decision idxs hCommit
      · intro idx tx hTx hFlag shard hShard hActive
        obtain ⟨place, hPlace⟩ := List.mem_iff_getElem?.mp hShard
        obtain ⟨results, hHeld, hResult⟩ := hBacked idx tx hTx hFlag place shard.outputRange
          (range_of_shard hRanges hPlace) hActive
        rcases hHeld with ⟨holder, hHolder, hDtx⟩ | ⟨decision, idxs, hCommit⟩
        · obtain rfl : shard = holder := Option.some.inj (hPlace.symm.trans hHolder)
          exact ⟨_, hDtx, hResult⟩
        · exact (hOrdered.uncommitted dtxId hHolds decision idxs hCommit).elim
  | prepare dtxId txs => exact Or.inl (by simp [decisions])
  | discard dtxId => exact Or.inl (by simp [decisions])
  | done dtxId => exact Or.inl (by simp [decisions])
  | get => exact Or.inl (by simp [decisions])

/-- A request that is delivered in time is one that the two-phase system allows. -/
theorem allowed_of_awaited (hDecided : Decided (held cluster) cluster)
    (hPhase : PhaseInv cluster view) (hProvenance : Provenance cluster)
    (hRanges : cluster.shards.map LockingShard.outputRange = cluster.shardRanges)
    {message : Message} {shard : LockingShard} {executor : Executor}
    (hSent : message ∈ cluster.sent)
    (hReached : cluster.shards[message.rpc.shard]? = some shard)
    (hFound : cluster.executors[message.executor]? = some executor)
    (hAwaited : executor.term = cluster.raft.term ∧ message.rpc ∈ executor.rpcs) :
    cluster.twoPhase.Allowed shard message.rpc.request := by
  have hRange := range_of_shard hRanges hReached
  have hRpc := (hDecided.messages message hSent).1
  unfold RpcOk at hRpc
  unfold TwoPhase.Allowed
  cases hParams : message.rpc.request.params with
  | lock txs =>
      rw [hParams] at hRpc
      obtain ⟨batch, range, hBatch, hShardRange, hTxs⟩ := hRpc
      obtain rfl : shard.outputRange = range := Option.some.inj (hRange.symm.trans hShardRange)
      refine ⟨fun decision hIn => ?_, batch, hBatch, hTxs⟩
      have hRequest : message.rpc.request = ⟨message.rpc.request.dtxId, .lock txs⟩ := by
        rw [← hParams]
      obtain ⟨txIdxs, hCommit⟩ := mem_decisions.mp hIn
      exact hPhase.awaited_uncommitted hProvenance (List.mem_of_getElem? hFound) hAwaited hRequest
        ⟨decision, txIdxs, hCommit⟩
  | apply completeTxs =>
      rw [hParams] at hRpc
      obtain ⟨_, decision, txIdxs, hCommit, hFlags⟩ := hRpc
      obtain ⟨batch, hBatch, _, rfl, _⟩ := hDecided.grounded.log grounded_prefix _ hCommit
      refine ⟨batch, decision, hBatch, mem_decisions.mpr ⟨_, hCommit⟩, ?_⟩
      rw [hFlags, TwoPhase.shardFlags]
      simp [hRange]
  | discard => trivial

/-- Every event is a move of the two-phase system or leaves it alone. -/
theorem Effect.twoPhase_move (hEffect : Effect crypto cluster event next)
    (hDecided : Decided (held cluster) cluster) (hPhase : PhaseInv cluster view)
    (hProvenance : Provenance cluster)
    (hRanges : cluster.shards.map LockingShard.outputRange = cluster.shardRanges)
    (hGuard : cluster.KeepsLocks event) :
    next.twoPhase = cluster.twoPhase ∨ TwoPhase.Move crypto cluster.twoPhase next.twoPhase := by
  obtain ⟨_, hAwaited, hOwn⟩ := hGuard
  cases hEffect with
  | process running next processed =>
      exact twoPhase_process hDecided hProvenance hRanges next processed
  | report running next processed found waiting moved =>
      exact twoPhase_process hDecided hProvenance hRanges next processed
  | answerGet running next awaiting =>
      have hGet : cluster.sm.step .get = some cluster.sm := rfl
      exact twoPhase_process hDecided hProvenance hRanges next hGet
  | submit node batch unused => exact Or.inr (.submit batch unused)
  | deliver respond sent reached found processed =>
      have hShardEffect := LockingShard.processRequest_effect
        (hDecided.running _ (List.mem_of_getElem? reached)) processed
      exact Or.inr (.process reached (allowed_of_awaited hDecided hPhase hProvenance hRanges sent
        reached found (hAwaited _ found)) (hOwn _ reached) hShardEffect)
  | _ => exact Or.inl rfl

end Simulation

section Spending

variable {crypto : Crypto} {configs : List ShardConfig} {events : List Event} {cluster : Cluster}

theorem getElem?_initial {place : Nat} {shard : LockingShard}
    (h : (initial configs).shards[place]? = some shard) :
    ∃ config, configs[place]? = some config ∧ shard = config.start := by
  simp only [initial, List.getElem?_map, Option.map_eq_some_iff] at h
  obtain ⟨config, hConfig, rfl⟩ := h
  exact ⟨config, hConfig, rfl⟩

/-- The shards start with what they were seeded with, and without any lock. -/
theorem sound_initial (configs : List ShardConfig) :
    TwoPhase.Sound (seeds configs) (initial configs).twoPhase := by
  have hNone : ∀ dtxId idx tx, ¬(initial configs).twoPhase.Completed dtxId idx tx := by
    rintro dtxId idx tx ⟨_, _, _, hDecided, _⟩
    cases hDecided
  constructor
  · intro dtxId decision hDecided
    cases hDecided
  · intro dtxId first second hFirst
    cases hFirst
  · intro shard hShard dtxId dtx hDtx
    obtain ⟨config, _, rfl⟩ := List.mem_map.mp hShard
    rw [ShardConfig.start, LockingShard.initial, Finmap.lookup_empty] at hDtx
    cases hDtx
  · intro shard hShard
    obtain ⟨config, _, rfl⟩ := List.mem_map.mp hShard
    exact LockingShard.owned_initial ..
  · intro dtxId batch decision _ hDecided
    cases hDecided
  · exact fun dtxId idx tx hTx => (hNone dtxId idx tx hTx).elim
  · exact fun _ _ _ _ _ _ hFirst => (hNone _ _ _ hFirst).elim
  · intro place shard hShard uhsId hIn
    obtain ⟨config, hConfig, rfl⟩ := getElem?_initial hShard
    rw [ShardConfig.start, LockingShard.initial, Finset.union_empty] at hIn
    left
    rw [seeds, hConfig]
    exact hIn
  · exact fun dtxId idx tx hTx => (hNone dtxId idx tx hTx).elim

/-- The cluster stays a sound two-phase system. -/
theorem twoPhase_sound (h : run (step crypto) (initial configs) events = some cluster)
    (hGuard : Guarded (step crypto) (initial configs) KeepsLocks events)
    (hFresh : TwoPhase.FreshOutputs (seeds configs) cluster.batches) :
    TwoPhase.Sound (seeds configs) cluster.twoPhase := by
  refine guarded_induction (motive := fun _ state =>
    TwoPhase.FreshOutputs (seeds configs) state.batches →
      TwoPhase.Sound (seeds configs) state.twoPhase)
    (fun _ => sound_initial configs) ?_ h hGuard hFresh
  intro before state event next hBefore hPast ih hNow hStep hNextFresh
  have hEffect := step_effect hStep
  have hStateFresh := hNextFresh.anti fun _ _ => hEffect.batches_lookup
  obtain ⟨view, hPhase⟩ := phaseInv hBefore (hPast.mono fun _ _ hKeeps => hKeeps.1)
  rcases hEffect.twoPhase_move (decided_held hBefore) hPhase (provenance hBefore)
    (shards_ranges hBefore).2 hNow with hSame | hMove
  · rw [hSame]
    exact ih hStateFresh
  · exact (ih hStateFresh).move hStateFresh hMove

section Applied

variable {record : Record} {view : CoordinatorState} {next : Cluster} {event : Event}
variable {dtxId : Hash} {place : Nat}

/-- A decided dtx that a shard does not hold will not be locked there again. -/
theorem Effect.unprepared_of_committed (hEffect : Effect crypto cluster event next)
    (hDecided : Decided record cluster) (hPhase : PhaseInv cluster view)
    (hProvenance : Provenance cluster) (hAwaited : cluster.Awaited event)
    (hCommitted : CommittedIn (commands cluster.raft.log) dtxId)
    (hUnprepared : ¬PreparedAt cluster.shards dtxId place) :
    ¬PreparedAt next.shards dtxId place := by
  cases hEffect with
  | deliver respond sent reached found processed =>
      intro hPrepared
      have hShardEffect := LockingShard.processRequest_effect
        (hDecided.running _ (List.mem_of_getElem? reached)) processed
      rcases PreparedAt.of_request reached hShardEffect hPrepared with hOld | ⟨_, txs, hRequest⟩
      · exact hUnprepared hOld
      · exact hPhase.awaited_uncommitted hProvenance (List.mem_of_getElem? found)
          (hAwaited _ found) hRequest hCommitted
  | _ => exact hUnprepared

/-- A dtx becomes applied by its decision, and is not prepared any more. -/
theorem Effect.applied_of_appliedAt (hEffect : Effect crypto cluster event next)
    (hDecided : Decided record cluster) (hApplied : AppliedAt next.shards dtxId place) :
    AppliedAt cluster.shards dtxId place ∨
      CommittedIn (commands next.raft.log) dtxId ∧ ¬PreparedAt next.shards dtxId place := by
  cases hEffect with
  | @deliver message respond shard after executor reply sent reached found processed =>
      have hShardEffect := LockingShard.processRequest_effect
        (hDecided.running _ (List.mem_of_getElem? reached)) processed
      obtain ⟨holder, hHolder, hIn⟩ := hApplied
      rcases Slots.of_set hHolder with ⟨rfl, rfl⟩ | ⟨_, hOld⟩
      · rcases hShardEffect.applied_of hIn with hBefore | ⟨completeTxs, dtx, hRequest, _⟩
        · exact Or.inl ⟨shard, reached, hBefore⟩
        · refine Or.inr ⟨hDecided.committedIn_of_apply sent hRequest, ?_⟩
          rintro ⟨other, hOther, hPrepared⟩
          obtain rfl : other = holder := Option.some.inj (hOther.symm.trans hHolder)
          have hAbsorbs := hShardEffect.absorbs
          rw [hRequest] at hAbsorbs
          exact Finmap.lookup_eq_none.mp hAbsorbs.1 hPrepared
      · exact Or.inl ⟨holder, hOld, hIn⟩
  | _ => exact Or.inl hApplied

end Applied

/-- A shard that has applied a dtx does not prepare it again. -/
theorem applied_settled (h : run (step crypto) (initial configs) events = some cluster)
    (hGuard : Guarded (step crypto) (initial configs) KeepsLocks events) {dtxId : Hash}
    {place : Nat} (hApplied : Passed (step crypto) (initial configs) events
      (fun earlier => AppliedAt earlier.shards dtxId place)) :
    CommittedIn (commands cluster.raft.log) dtxId ∧ ¬PreparedAt cluster.shards dtxId place := by
  refine guarded_induction (motive := fun events state =>
    Passed (step crypto) (initial configs) events
        (fun earlier => AppliedAt earlier.shards dtxId place) →
      CommittedIn (commands state.raft.log) dtxId ∧ ¬PreparedAt state.shards dtxId place)
    ?_ ?_ h hGuard hApplied
  · rintro ⟨before, after, state, hEvents, hState, shard, hShard, hIn⟩
    obtain ⟨rfl, rfl⟩ := List.append_eq_nil_iff.mp hEvents.symm
    cases hState
    obtain ⟨config, _, rfl⟩ := getElem?_initial hShard
    cases hIn
  · intro before state event next hBefore hPast ih hNow hStep hPassed
    obtain ⟨view, hPhase⟩ := phaseInv hBefore (hPast.mono fun _ _ hKeeps => hKeeps.1)
    have hEffect := step_effect hStep
    have hStays : Passed (step crypto) (initial configs) before
        (fun earlier => AppliedAt earlier.shards dtxId place) →
        CommittedIn (commands next.raft.log) dtxId ∧ ¬PreparedAt next.shards dtxId place := by
      intro hEarlier
      obtain ⟨hCommitted, hUnprepared⟩ := ih hEarlier
      exact ⟨hEffect.committedIn hCommitted, hEffect.unprepared_of_committed (decided hBefore)
        hPhase (provenance hBefore) hNow.2.1 hCommitted hUnprepared⟩
    rcases hPassed.of_concat ((run_concat _ _ _ _ _).mpr ⟨state, hBefore, hStep⟩) with
      hEarlier | hHere
    · exact hStays hEarlier
    · rcases hEffect.applied_of_appliedAt (decided hBefore) hHere with hOld | hNew
      · exact hStays (.here hBefore hOld)
      · exact hNew

end Spending

/-- If nothing stale is delivered and every abort gives back only locks of its
own batch, no ID is spent by two completed batch entries, and what a completed
entry has spent is in no shard once all its shards have applied it. -/
theorem no_double_spend (crypto : Crypto) (configs : List ShardConfig) (events : List Event)
    (cluster : Cluster) (hRun : run (step crypto) (initial configs) events = some cluster)
    (hGuard : Guarded (step crypto) (initial configs) KeepsLocks events)
    (hCover : ∀ uhsId, ∃ config ∈ configs, hashInShardRange config.outputRange uhsId = true)
    (hSeeds : ∀ config ∈ configs, ∀ uhsId ∈ config.preseed,
      hashInShardRange config.outputRange uhsId = true)
    (hFresh : TwoPhase.FreshOutputs (seeds configs) cluster.batches) :
    (∀ uhsId firstId first firstTx secondId second secondTx,
      cluster.twoPhase.Completed firstId first firstTx →
      cluster.twoPhase.Completed secondId second secondTx →
      uhsId ∈ firstTx.inputs → uhsId ∈ secondTx.inputs →
        firstId = secondId ∧ first = second) ∧
    ∀ dtxId idx tx, cluster.twoPhase.Completed dtxId idx tx →
      (∀ (place : Nat) (range : ShardRange), cluster.shardRanges[place]? = some range →
        Participates range tx → Passed (step crypto) (initial configs) events
          (fun earlier => AppliedAt earlier.shards dtxId place)) →
      ∀ uhsId ∈ tx.inputs, ∀ shard ∈ cluster.shards, uhsId ∉ shard.uhs ∧ uhsId ∉ shard.locked := by
  have hSound := twoPhase_sound hRun hGuard hFresh
  obtain ⟨hConfigs, hRanges⟩ := shards_ranges hRun
  constructor
  · intro uhsId firstId first firstTx secondId second secondTx hFirst hSecond hFirstIn hSecondIn
    obtain ⟨config, hConfig, hRange⟩ := hCover uhsId
    have hIn : config.outputRange ∈ cluster.shards.map LockingShard.outputRange := by
      rw [hRanges, hConfigs]
      exact List.mem_map_of_mem hConfig
    obtain ⟨shard, hShard, hSame⟩ := List.mem_map.mp hIn
    rw [← hSame] at hRange
    exact hSound.spent_once hShard hRange hFirst hFirstIn hSecond hSecondIn
  · intro dtxId idx tx hTx hApplied uhsId hIn
    refine hSound.gone ?_ hTx ?_ hIn
    · intro place shard hShard seed hSeed
      have hRange := range_of_shard hRanges hShard
      rw [hConfigs, List.getElem?_map, Option.map_eq_some_iff] at hRange
      obtain ⟨config, hConfig, hSame⟩ := hRange
      rw [seeds, hConfig] at hSeed
      rw [← hSame]
      exact hSeeds config (List.mem_of_getElem? hConfig) seed hSeed
    · intro shard hShard hActive hPrepared
      obtain ⟨place, hPlace⟩ := List.mem_iff_getElem?.mp hShard
      have hPassed := hApplied place shard.outputRange (range_of_shard hRanges hPlace)
        ((active_iff _ _).mp hActive)
      exact (applied_settled hRun hGuard hPassed).2 ⟨shard, hPlace, hPrepared⟩

section Fixed

/-- The table that submitting these batches leaves, the last one first. -/
def batchTable : List (Hash × List CompactTx) → Finmap fun _ : Hash => List CompactTx
  | [] => ∅
  | (dtxId, batch) :: rest => (batchTable rest).insert dtxId batch

theorem mem_of_lookup_batchTable {list : List (Hash × List CompactTx)} {dtxId : Hash}
    {batch : List CompactTx} (h : (batchTable list).lookup dtxId = some batch) :
    (dtxId, batch) ∈ list := by
  induction list with
  | nil =>
      rw [batchTable, Finmap.lookup_empty] at h
      cases h
  | cons entry rest ih =>
      rw [batchTable] at h
      rcases Table.of_lookup_insert h with ⟨rfl, rfl⟩ | ⟨_, hOld⟩
      · exact List.mem_cons_self
      · exact List.mem_cons_of_mem _ (ih hOld)

def batchOutputs (list : List (Hash × List CompactTx)) : List Hash :=
  list.flatMap fun entry => entry.2.flatMap CompactTx.uhsOutputs

theorem mem_batchOutputs {list : List (Hash × List CompactTx)} {entry : Hash × List CompactTx}
    {tx : CompactTx} {uhsId : Hash} (hEntry : entry ∈ list) (hTx : tx ∈ entry.2)
    (hOutput : uhsId ∈ tx.uhsOutputs) : uhsId ∈ batchOutputs list :=
  List.mem_flatMap.mpr ⟨entry, hEntry, List.mem_flatMap.mpr ⟨tx, hTx, hOutput⟩⟩

/-- Lists that are distinct together have no value in common. -/
theorem eq_of_nodup_flatMap {α β : Type} {f : α → List β} {list : List α}
    (h : (list.flatMap f).Nodup) {i j : Nat} {first second : α} {value : β}
    (hFirst : list[i]? = some first) (hSecond : list[j]? = some second)
    (hIn : value ∈ f first) (hAlso : value ∈ f second) : i = j := by
  have hApart := List.pairwise_iff_getElem.mp (List.nodup_flatMap.mp h).2
  obtain ⟨hI, rfl⟩ := List.getElem?_eq_some_iff.mp hFirst
  obtain ⟨hJ, rfl⟩ := List.getElem?_eq_some_iff.mp hSecond
  rcases Nat.lt_trichotomy i j with hLt | hSame | hGt
  · exact (hApart i j hI hJ hLt hIn hAlso).elim
  · exact hSame
  · exact (hApart j i hJ hI hGt hAlso hIn).elim

/-- Batches whose outputs are distinct and not seeded are fresh. -/
theorem freshOutputs_batchTable {configs : List ShardConfig} {list : List (Hash × List CompactTx)}
    (hSeeds : ∀ uhsId ∈ batchOutputs list, ∀ config ∈ configs, uhsId ∉ config.preseed)
    (hOnce : (batchOutputs list).Nodup) :
    TwoPhase.FreshOutputs (seeds configs) (batchTable list) where
  unseeded := by
    intro dtxId batch hBatch tx hTx uhsId hOutput place hSeed
    unfold seeds at hSeed
    split at hSeed
    case h_1 config hConfig =>
        exact hSeeds uhsId (mem_batchOutputs (mem_of_lookup_batchTable hBatch) hTx hOutput) config
          (List.mem_of_getElem? hConfig) hSeed
    case h_2 => cases hSeed
  once := by
    intro firstId first secondId second firstIdx secondIdx firstTx secondTx hFirst hSecond
      hFirstTx hSecondTx uhsId hFirstIn hSecondIn
    obtain ⟨i, hI⟩ := List.mem_iff_getElem?.mp (mem_of_lookup_batchTable hFirst)
    obtain ⟨j, hJ⟩ := List.mem_iff_getElem?.mp (mem_of_lookup_batchTable hSecond)
    have hIn := List.mem_flatMap.mpr ⟨firstTx, List.mem_of_getElem? hFirstTx, hFirstIn⟩
    have hAlso := List.mem_flatMap.mpr ⟨secondTx, List.mem_of_getElem? hSecondTx, hSecondIn⟩
    obtain rfl := eq_of_nodup_flatMap hOnce hI hJ hIn hAlso
    obtain ⟨rfl, rfl⟩ := Prod.mk.inj (Option.some.inj (hI.symm.trans hJ))
    have hBatch := (List.nodup_flatMap.mp hOnce).1 _ (List.mem_of_getElem? hI)
    exact ⟨rfl, eq_of_nodup_flatMap hBatch hFirstTx hSecondTx hFirstIn hSecondIn⟩

theorem oneShard_covers (uhsId : Hash) :
    ∃ config ∈ oneShard, hashInShardRange config.outputRange uhsId = true :=
  ⟨_, List.mem_singleton_self _, hashInShardRange_all uhsId⟩

/-- The coin is gone once the shard has applied the batch that spends it. -/
theorem no_double_spend_applied :
    ∃ cluster, run (step .unused) (initial oneShard) discarding = some cluster ∧
      cluster.twoPhase.Completed (.ofByte 7) 0 spendTx ∧
      ∀ shard ∈ cluster.shards, (.ofByte 1) ∉ shard.uhs ∧ (.ofByte 1) ∉ shard.locked := by
  have hTest : (run (step .unused) (initial oneShard) discarding).any (fun cluster =>
      decide (cluster.batches = batchTable [(.ofByte 7, [spendTx])] ∧
        (.ofByte 7, [true]) ∈ decisions (commands cluster.raft.log) ∧
        ∃ shard ∈ cluster.shards[0]?, (.ofByte 7) ∈ shard.appliedDtxs)) = true := by
    decide +kernel
  have hGuard : Guarded (step .unused) (initial oneShard) KeepsLocks discarding := by decide +kernel
  obtain ⟨cluster, hRun, hHolds⟩ := exists_run_of_test hTest
  obtain ⟨hBatches, hDecided, shard, hShard, hApplied⟩ := of_decide_eq_true hHolds
  have hFresh : TwoPhase.FreshOutputs (seeds oneShard) cluster.batches := by
    rw [hBatches]
    exact freshOutputs_batchTable (by decide +kernel) (by decide +kernel)
  have hCompleted : cluster.twoPhase.Completed (.ofByte 7) 0 spendTx :=
    ⟨[spendTx], [true], (congrArg (Finmap.lookup _) hBatches).trans (by decide), hDecided, rfl, rfl⟩
  have hMain := no_double_spend .unused oneShard discarding cluster hRun hGuard oneShard_covers
    (by decide) hFresh
  refine ⟨cluster, hRun, hCompleted, hMain.2 (.ofByte 7) 0 spendTx hCompleted ?_ (.ofByte 1)
    (by decide)⟩
  intro place range hRange _
  rw [(shards_ranges hRun).1] at hRange
  obtain rfl : place = 0 := by
    have hLt := (List.getElem?_eq_some_iff.mp hRange).1
    simpa [oneShard] using hLt
  exact .here hRun ⟨shard, hShard, hApplied⟩

def rivalTx (byte : UInt8) : CompactTx := .unattested (.ofByte byte) [.ofByte 1] [.ofByte byte]

/-- Dtx 7 holds the lock on the coin. Dtx 8 is refused and aborted, which frees
the coin, so that dtx 9 locks it, too. -/
def freedLock : List Event :=
  [.submit 0 (.ofByte 7) [rivalTx 2], .append 0, .commitNext true,
    .deliver ⟨0, ⟨0, ⟨.ofByte 7, .lock [rivalTx 2]⟩⟩⟩ true,
    .submit 0 (.ofByte 8) [rivalTx 3], .append 1, .commitNext true,
    .deliver ⟨1, ⟨0, ⟨.ofByte 8, .lock [rivalTx 3]⟩⟩⟩ true, .finishRpc 1, .append 1,
    .commitNext true, .deliver ⟨1, ⟨0, ⟨.ofByte 8, .apply [false]⟩⟩⟩ true,
    .submit 0 (.ofByte 9) [rivalTx 4], .append 2, .commitNext true,
    .deliver ⟨2, ⟨0, ⟨.ofByte 9, .lock [rivalTx 4]⟩⟩⟩ true, .finishRpc 2, .append 2,
    .commitNext true,
    .finishRpc 0, .append 0, .commitNext true]

/-- Both dtx 7 and dtx 9 are completed, and both spend the coin. -/
theorem freed_lock_double_spend :
    ∃ cluster, run (step .unused) (initial oneShard) freedLock = some cluster ∧
      Guarded (step .unused) (initial oneShard)
        (fun state event => state.KeepsTerm event ∧ state.Awaited event) freedLock ∧
      TwoPhase.FreshOutputs (seeds oneShard) cluster.batches ∧
      cluster.twoPhase.Completed (.ofByte 7) 0 (rivalTx 2) ∧
      cluster.twoPhase.Completed (.ofByte 9) 0 (rivalTx 4) ∧
      (.ofByte 1) ∈ (rivalTx 2).inputs ∧ (.ofByte 1) ∈ (rivalTx 4).inputs := by
  have hTest : (run (step .unused) (initial oneShard) freedLock).any (fun cluster =>
      decide (cluster.batches = batchTable [(.ofByte 9, [rivalTx 4]), (.ofByte 8, [rivalTx 3]),
          (.ofByte 7, [rivalTx 2])] ∧
        (.ofByte 7, [true]) ∈ decisions (commands cluster.raft.log) ∧
        (.ofByte 9, [true]) ∈ decisions (commands cluster.raft.log))) = true := by
    decide +kernel
  have hGuard : Guarded (step .unused) (initial oneShard)
      (fun state event => state.KeepsTerm event ∧ state.Awaited event) freedLock := by
    decide +kernel
  obtain ⟨cluster, hRun, hHolds⟩ := exists_run_of_test hTest
  obtain ⟨hBatches, hFirst, hSecond⟩ := of_decide_eq_true hHolds
  refine ⟨cluster, hRun, hGuard, ?_, ⟨[rivalTx 2], [true], ?_, hFirst, rfl, rfl⟩,
    ⟨[rivalTx 4], [true], ?_, hSecond, rfl, rfl⟩, by decide, by decide⟩
  · rw [hBatches]
    exact freshOutputs_batchTable (by decide +kernel) (by decide +kernel)
  · exact (congrArg (Finmap.lookup _) hBatches).trans (by decide)
  · exact (congrArg (Finmap.lookup _) hBatches).trans (by decide)

end Fixed

end OpenCbdc.Cluster

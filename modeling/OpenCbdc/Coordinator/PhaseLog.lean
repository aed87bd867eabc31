import OpenCbdc.Coordinator.Provenance

/-! Consistency of the phase log. As long as an executor hands over commands
only in the term in which its dtx entered the log or was read back from it, no
accepted command can reach a fatal branch. A node that is elected again while
an old executor of its own still runs breaks this. -/
namespace OpenCbdc.Cluster

open CoordinatorState TransitionSystem

/-- An executor that has a dtx in the log hands over its next command in the
term in which it took up the dtx. -/
def KeepsTerm (cluster : Cluster) : Event → Prop
  | .append id => ∀ executor ∈ cluster.executors[id]?,
      executor.phase = none ∨ executor.term = cluster.raft.term
  | _ => True

instance (cluster : Cluster) : ∀ event, Decidable (cluster.KeepsTerm event)
  | .append id => inferInstanceAs (Decidable (∀ executor ∈ cluster.executors[id]?, _))
  | .elect _ | .copyLog _ _ | .commitNext _ | .submit _ _ _ | .appendGet _ | .recover _ _
  | .deliver _ _ | .finishRpc _ | .fail _ => inferInstanceAs (Decidable True)

/-- The executor works on a dtx in the current term. -/
def Claims (cluster : Cluster) (executor : Executor) : Prop :=
  executor.term = cluster.raft.term ∧ executor.phase ≠ none

def Unclaimed (cluster : Cluster) (dtxId : Hash) : Prop :=
  ∀ executor ∈ cluster.executors, cluster.Claims executor → executor.dtx.dtxId ≠ dtxId

/-- The dtxs of a state that was read from the log still stand where they stood,
and nobody has taken them up. -/
def Tracked (cluster : Cluster) (view state : CoordinatorState) : Prop :=
  ∀ phase dtxId, state.Holds phase dtxId → view.Holds phase dtxId ∧ cluster.Unclaimed dtxId

/-- The state that the recovery of a node was answered with, or will be once
the entries before its `get` are processed. -/
inductive Reads (raft : ReplicatedLog Nat Entry) (recoveries : Nat → Recovery) (node term : Nat)
    (state : CoordinatorState) : Prop where
  | awaiting {id : Nat} {first second : List Entry}
      (waits : recoveries node = .awaiting id term)
      (place : raft.history raft.leader = first ++ ⟨.recovery node id, .get⟩ :: second)
      (replayed : replay (commands first) = some state)
  | answered (found : recoveries node = .snapshot term state)

/-- A recovery that has begun did so in this term or an earlier one. -/
def StartedBy (term : Nat) : Recovery → Prop
  | .idle => True
  | .awaiting _ started => started ≤ term
  | .snapshot started _ => started ≤ term

/-- The view is the state in which the accepted commands of the leader will
leave the state machine. The executors of the current term agree with it. -/
structure PhaseInv (cluster : Cluster) (view : CoordinatorState) : Prop where
  viewed : replay (commands (cluster.raft.history cluster.raft.leader)) = some view
  running : cluster.halted = false
  replays : cluster.raft.Histories fun history => ∃ state, replay (commands history) = some state
  pastTerms : ∀ executor ∈ cluster.executors, executor.term ≤ cluster.raft.term
  standing : ∀ executor ∈ cluster.executors, executor.term = cluster.raft.term →
    ∀ phase, executor.phase = some phase →
      executor.node = cluster.raft.leader ∧ view.Holds phase executor.dtx.dtxId
  single : ∀ (id other : Nat) (first second : Executor),
    cluster.executors[id]? = some first → cluster.executors[other]? = some second →
    cluster.Claims first → cluster.Claims second →
    first.dtx.dtxId = second.dtx.dtxId → id = other
  numbered : cluster.raft.Histories fun history => ∀ entry ∈ history, ∀ node id,
    entry.author = .recovery node id → id < cluster.gets
  pastReads : ∀ node, StartedBy cluster.raft.term (cluster.recoveries node)
  reads : ∀ node term state, Reads cluster.raft cluster.recoveries node term state →
    term = cluster.raft.term → node = cluster.raft.leader ∧ Tracked cluster view state

section Steps

variable {cluster : Cluster} {view state : CoordinatorState} {raft : ReplicatedLog Nat Entry}
  {recoveries : Nat → Recovery} {node term : Nat}

theorem replays_prefix (first second : List Entry)
    (h : ∃ state, replay (commands (first ++ second)) = some state) :
    ∃ state, replay (commands first) = some state := by
  obtain ⟨state, hReplay⟩ := h
  rw [commands_append] at hReplay
  obtain ⟨middle, hFirst, _⟩ := run_prefix hReplay
  exact ⟨middle, hFirst⟩

theorem numbered_prefix {gets : Nat} (first second : List Entry)
    (h : ∀ entry ∈ first ++ second, ∀ node id, entry.author = .recovery node id → id < gets) :
    ∀ entry ∈ first, ∀ node id, entry.author = .recovery node id → id < gets :=
  fun entry hIn => h entry (List.mem_append_left _ hIn)

theorem Reads.before {limit : Nat} (h : Reads raft recoveries node term state)
    (hBefore : StartedBy limit (recoveries node)) : term ≤ limit := by
  cases h with
  | awaiting waits place replayed =>
      rw [waits] at hBefore
      exact hBefore
  | answered found =>
      rw [found] at hBefore
      exact hBefore

/-- A snapshot that a node has taken is no concern of the other nodes. -/
theorem Reads.of_update {other : Nat} {recovery : Recovery}
    (h : Reads raft (Function.update recoveries node recovery) other term state) :
    other = node ∧ Reads raft (fun _ => recovery) node term state ∨
      other ≠ node ∧ Reads raft recoveries other term state := by
  cases h with
  | awaiting waits place replayed =>
      rcases Table.of_update waits with ⟨rfl, hNew⟩ | ⟨hNode, hOld⟩
      · exact Or.inl ⟨rfl, .awaiting hNew place replayed⟩
      · exact Or.inr ⟨hNode, .awaiting hOld place replayed⟩
  | answered found =>
      rcases Table.of_update found with ⟨rfl, hNew⟩ | ⟨hNode, hOld⟩
      · exact Or.inl ⟨rfl, .answered hNew⟩
      · exact Or.inr ⟨hNode, .answered hOld⟩

/-- An update by a snapshot is read as that snapshot. -/
theorem Reads.of_update_snapshot {other otherTerm : Nat} {otherState : CoordinatorState}
    (h : Reads raft (Function.update recoveries node (.snapshot term state)) other otherTerm
      otherState) :
    other = node ∧ otherTerm = term ∧ otherState = state ∨
      other ≠ node ∧ Reads raft recoveries other otherTerm otherState := by
  rcases h.of_update with ⟨hNode, hNew⟩ | hOld
  · cases hNew with
    | awaiting waits place replayed => cases waits
    | answered found =>
        cases found
        exact Or.inl ⟨hNode, rfl, rfl⟩
  · exact Or.inr hOld

/-- An entry of another author does not change what a recovery reads. -/
theorem Reads.of_accept {entry : Entry} (h : Reads (raft.accept entry) recoveries node term state)
    (hAuthor : ∀ id, entry.author ≠ .recovery node id) : Reads raft recoveries node term state := by
  cases h with
  | @awaiting id first second waits place replayed =>
      have hPlace := (ReplicatedLog.history_accept_leader raft entry).symm.trans place
      have hNe : (⟨.recovery node id, .get⟩ : Entry) ≠ entry := by
        rintro rfl
        exact hAuthor id rfl
      obtain ⟨rest, hRest⟩ := Slots.split_of_concat hNe hPlace
      exact .awaiting waits hRest replayed
  | answered found => exact .answered found

theorem startedBy_update {limit : Nat} {recovery : Recovery}
    (h : ∀ other, StartedBy limit (recoveries other)) (hNew : StartedBy limit recovery)
    (other : Nat) : StartedBy limit (Function.update recoveries node recovery other) := by
  by_cases hNode : other = node
  · subst hNode
    rwa [Function.update_self]
  · rw [Function.update_of_ne hNode]
    exact h other

section Follow

variable {executors : List Executor}

theorem follow_claims (hFollow : Follow cluster.executors executors) {id : Nat}
    {later : Executor} (hLater : executors[id]? = some later) (hClaims : cluster.Claims later) :
    ∃ earlier, cluster.executors[id]? = some earlier ∧ cluster.Claims earlier ∧
      earlier.dtx.dtxId = later.dtx.dtxId := by
  obtain ⟨earlier, hEarlier, hFollows⟩ := hFollow id later hLater
  refine ⟨earlier, hEarlier, ⟨?_, ?_⟩, hFollows.dtxId.symm⟩
  · rw [← hFollows.term, hClaims.1]
  · rcases hFollows.phase with hSame | hNone
    · rw [← hSame]
      exact hClaims.2
    · exact (hClaims.2 hNone).elim

/-- Local steps of executors leave the log alone, and with it what the leader's log leads
to. -/
theorem PhaseInv.follow (h : PhaseInv cluster view)
    (hFollow : Follow cluster.executors executors) (shards : List LockingShard)
    (sent : List Message) :
    PhaseInv { cluster with executors := executors, shards := shards, sent := sent } view where
  viewed := h.viewed
  running := h.running
  replays := h.replays
  pastTerms := by
    intro executor hIn
    obtain ⟨id, hLater⟩ := List.mem_iff_getElem?.mp hIn
    obtain ⟨earlier, hEarlier, hFollows⟩ := hFollow id executor hLater
    rw [hFollows.term]
    exact h.pastTerms earlier (List.mem_of_getElem? hEarlier)
  standing := by
    intro executor hIn hTerm phase hPhase
    obtain ⟨id, hLater⟩ := List.mem_iff_getElem?.mp hIn
    obtain ⟨earlier, hEarlier, hFollows⟩ := hFollow id executor hLater
    rw [hFollows.node, hFollows.dtxId]
    rw [hFollows.term] at hTerm
    rcases hFollows.phase with hSame | hNone
    · rw [hSame] at hPhase
      exact h.standing earlier (List.mem_of_getElem? hEarlier) hTerm phase hPhase
    · rw [hNone] at hPhase
      cases hPhase
  single := by
    intro id other first second hFirst hSecond hClaimsFirst hClaimsSecond hSame
    obtain ⟨oldFirst, hOldFirst, hOldClaims, hId⟩ := follow_claims hFollow hFirst hClaimsFirst
    obtain ⟨oldSecond, hOldSecond, hSecondClaims, hSecondId⟩ :=
      follow_claims hFollow hSecond hClaimsSecond
    exact h.single id other oldFirst oldSecond hOldFirst hOldSecond hOldClaims hSecondClaims
      (hId.trans (hSame.trans hSecondId.symm))
  numbered := h.numbered
  pastReads := h.pastReads
  reads := by
    intro node term state hReads hTerm
    obtain ⟨hLeader, hTracked⟩ := h.reads node term state hReads hTerm
    refine ⟨hLeader, fun phase dtxId hHolds => ?_⟩
    obtain ⟨hView, hUnclaimed⟩ := hTracked phase dtxId hHolds
    refine ⟨hView, fun executor hIn hClaims => ?_⟩
    obtain ⟨id, hLater⟩ := List.mem_iff_getElem?.mp hIn
    obtain ⟨earlier, hEarlier, hOldClaims, hId⟩ := follow_claims hFollow hLater hClaims
    rw [← hId]
    exact hUnclaimed earlier (List.mem_of_getElem? hEarlier) hOldClaims

end Follow

/-- A new leader starts a term in which no executor works yet, so that its log alone says
where each dtx stands. -/
theorem PhaseInv.elect (h : PhaseInv cluster view) (node : Nat) :
    ∃ after, PhaseInv { cluster with raft := cluster.raft.elect node } after := by
  obtain ⟨after, hAfter⟩ := h.replays node
  have hPast : ∀ executor ∈ cluster.executors, executor.term ≠ cluster.raft.term + 1 := by
    intro executor hIn hTerm
    have := h.pastTerms executor hIn
    omega
  refine ⟨after, ⟨hAfter, h.running, h.replays, ?_, ?_, ?_, h.numbered, ?_, ?_⟩⟩
  · exact fun executor hIn => Nat.le_succ_of_le (h.pastTerms executor hIn)
  · exact fun executor hIn hTerm => (hPast executor hIn hTerm).elim
  · intro id other first second hFirst _ hClaims
    exact (hPast first (List.mem_of_getElem? hFirst) hClaims.1).elim
  · intro other
    have hBefore := h.pastReads other
    cases hRecovery : cluster.recoveries other with
    | idle => trivial
    | awaiting id term =>
        rw [hRecovery] at hBefore
        exact Nat.le_succ_of_le hBefore
    | snapshot term state =>
        rw [hRecovery] at hBefore
        exact Nat.le_succ_of_le hBefore
  · intro other term state hReads hTerm
    have hBefore : term ≤ cluster.raft.term := hReads.before (h.pastReads other)
    have hNew : term = cluster.raft.term + 1 := hTerm
    omega

/-- A follower that copies the log changes nothing for the leader. -/
theorem PhaseInv.copyLog (h : PhaseInv cluster view) (count : Nat)
    (hFollower : node ≠ cluster.raft.leader) :
    PhaseInv { cluster with raft := cluster.raft.copyTo node count } view := by
  have hHistory : (cluster.raft.copyTo node count).history cluster.raft.leader =
      cluster.raft.history cluster.raft.leader :=
    ReplicatedLog.history_copyTo_of_ne count hFollower.symm
  refine ⟨?_, h.running, h.replays.copyTo replays_prefix node count, h.pastTerms, h.standing,
    h.single, h.numbered.copyTo numbered_prefix node count, h.pastReads, ?_⟩
  · exact (congrArg (fun history => replay (commands history)) hHistory).trans h.viewed
  · intro other term state hReads hTerm
    refine h.reads other term state ?_ hTerm
    cases hReads with
    | awaiting waits place replayed => exact .awaiting waits (hHistory.symm.trans place) replayed
    | answered found => exact .answered found

section Commit

variable {entry : Entry}

/-- Committing an entry moves no executor and no entry of the leader's log. -/
theorem PhaseInv.process (h : PhaseInv cluster view)
    (hNext : cluster.raft.commitNext = some (entry, raft)) (sm : CoordinatorState) :
    PhaseInv { cluster with raft := raft, sm := sm } view := by
  obtain ⟨hLeader, hHistory⟩ := ReplicatedLog.history_commitNext_leader hNext
  have hTerm : raft.term = cluster.raft.term := by
    obtain ⟨rest, _, rfl⟩ := ReplicatedLog.commitNext_eq_some hNext
    rfl
  have hClaims : ∀ executor, Claims { cluster with raft := raft, sm := sm } executor ↔
      cluster.Claims executor := by
    intro executor
    simp [Claims, hTerm]
  refine ⟨?_, h.running, h.replays.commitNext replays_prefix hNext, ?_, ?_, ?_,
    h.numbered.commitNext numbered_prefix hNext, ?_, ?_⟩
  · exact (congrArg (fun history => replay (commands history)) hHistory).trans h.viewed
  · exact fun executor hIn => (h.pastTerms executor hIn).trans_eq hTerm.symm
  · intro executor hIn hCurrent phase hPhase
    have hOld := h.standing executor hIn (hCurrent.trans hTerm) phase hPhase
    exact ⟨hOld.1.trans hLeader.symm, hOld.2⟩
  · intro id other first second hFirst hSecond hClaimsFirst hClaimsSecond hSame
    exact h.single id other first second hFirst hSecond ((hClaims first).mp hClaimsFirst)
      ((hClaims second).mp hClaimsSecond) hSame
  · intro node
    rw [hTerm]
    exact h.pastReads node
  · intro node term state hReads hCurrent
    have hOld : Reads cluster.raft cluster.recoveries node term state := by
      cases hReads with
      | awaiting waits place replayed =>
          exact .awaiting waits (hHistory.symm.trans place) replayed
      | answered found => exact .answered found
    obtain ⟨hNode, hTracked⟩ := h.reads node term state hOld (hCurrent.trans hTerm)
    refine ⟨hNode.trans hLeader.symm, fun phase dtxId hHolds => ?_⟩
    obtain ⟨hView, hUnclaimed⟩ := hTracked phase dtxId hHolds
    exact ⟨hView, fun executor hIn hClaimed =>
      hUnclaimed executor hIn ((hClaims executor).mp hClaimed)⟩

/-- No accepted command is fatal when it is processed. -/
theorem PhaseInv.not_fatal (h : PhaseInv cluster view) (hProvenance : Provenance cluster)
    (hNext : cluster.raft.commitNext = some (entry, raft)) (fatal : CoordinatorState.Fatal) :
    cluster.sm.commit entry.command ≠ .error fatal := by
  intro hFatal
  obtain ⟨rest, hTail, _⟩ := ReplicatedLog.commitNext_eq_some hNext
  have hSplit : cluster.raft.history cluster.raft.leader =
      (cluster.raft.log ++ [entry]) ++ rest := by
    simp [ReplicatedLog.history, hTail]
  obtain ⟨state, hReplay⟩ := replays_prefix _ _ (hSplit ▸ h.replays cluster.raft.leader)
  rw [commands_append] at hReplay
  obtain ⟨middle, hMiddle, hStep⟩ := (run_concat _ _ _ _ _).mp hReplay
  obtain rfl : cluster.sm = middle := Option.some.inj (hProvenance.processed.symm.trans hMiddle)
  simp [CoordinatorState.step, hFatal] at hStep

end Commit

theorem PhaseInv.exclusive (h : PhaseInv cluster view) (hProvenance : Provenance cluster) :
    view.Exclusive :=
  (replay_ordered h.viewed (hProvenance.once _)).exclusive (replay_traced h.viewed)

/-- Replacing what a recovery works on by something it could have read before. -/
theorem PhaseInv.withRecoveries (h : PhaseInv cluster view)
    (hPast : ∀ node, StartedBy cluster.raft.term (recoveries node))
    (hReads : ∀ node term state, Reads cluster.raft recoveries node term state →
      term = cluster.raft.term → node = cluster.raft.leader ∧ Tracked cluster view state) :
    PhaseInv { cluster with recoveries := recoveries } view :=
  ⟨h.viewed, h.running, h.replays, h.pastTerms, h.standing, h.single, h.numbered, hPast, hReads⟩

/-- A new executor may work on a dtx that no other one of the term works on. -/
theorem PhaseInv.spawn (h : PhaseInv cluster view) {executor : Executor}
    (hPast : executor.term ≤ cluster.raft.term)
    (hStanding : executor.term = cluster.raft.term → ∀ phase, executor.phase = some phase →
      executor.node = cluster.raft.leader ∧ view.Holds phase executor.dtx.dtxId)
    (hFree : cluster.Claims executor → cluster.Unclaimed executor.dtx.dtxId)
    (hReads : cluster.Claims executor → ∀ node term state,
      Reads cluster.raft cluster.recoveries node term state → term = cluster.raft.term →
        ∀ phase, ¬state.Holds phase executor.dtx.dtxId)
    (batches : Finmap fun _ : Hash => List CompactTx) :
    PhaseInv ({ cluster with batches := batches }.spawn executor) view := by
  refine ⟨h.viewed, h.running, h.replays, Slots.forall_mem_concat h.pastTerms hPast,
    Slots.forall_mem_concat h.standing hStanding, ?_, h.numbered, h.pastReads, ?_⟩
  · intro id other first second hFirst hSecond hClaimsFirst hClaimsSecond hSame
    rcases Slots.of_concat hFirst with ⟨hId, rfl⟩ | ⟨_, hOldFirst⟩
    · rcases Slots.of_concat hSecond with ⟨hOther, _⟩ | ⟨_, hOldSecond⟩
      · exact hId.trans hOther.symm
      · exact (hFree hClaimsFirst second (List.mem_of_getElem? hOldSecond) hClaimsSecond
          hSame.symm).elim
    · rcases Slots.of_concat hSecond with ⟨_, rfl⟩ | ⟨_, hOldSecond⟩
      · exact (hFree hClaimsSecond first (List.mem_of_getElem? hOldFirst) hClaimsFirst hSame).elim
      · exact h.single id other first second hOldFirst hOldSecond hClaimsFirst hClaimsSecond hSame
  · intro node term state hRead hTerm
    obtain ⟨hNode, hTracked⟩ := h.reads node term state hRead hTerm
    refine ⟨hNode, fun phase dtxId hHolds => ?_⟩
    obtain ⟨hView, hUnclaimed⟩ := hTracked phase dtxId hHolds
    refine ⟨hView, Slots.forall_mem_concat hUnclaimed fun hClaims => ?_⟩
    rintro rfl
    exact hReads hClaims node term state hRead hTerm phase hHolds

section Append

variable {id : Nat} {before after : Executor} {command : SmCommand}

/-- Nobody else of this term works on the dtx of an accepted command. -/
theorem PhaseInv.calls_alone (h : PhaseInv cluster view) (hProvenance : Provenance cluster)
    (hFound : cluster.executors[id]? = some before)
    (hCalls : Executor.Calls before after command cluster.raft.term)
    (hTerm : before.phase = none ∨ before.term = cluster.raft.term)
    {other : Nat} {second : Executor} (hSecond : cluster.executors[other]? = some second)
    (hNe : other ≠ id) (hClaims : cluster.Claims second) :
    second.dtx.dtxId ≠ before.dtx.dtxId := by
  rcases hCalls.origin with ⟨hStage, _, _⟩ | ⟨_, hSource, hSome, _⟩
  · exact hProvenance.alone id before hFound hStage other second hSecond hNe
  · have hPhase : before.phase ≠ none := by
      rw [hSource]
      exact Option.isSome_iff_ne_none.mp hSome
    intro hSame
    exact hNe (h.single other id second before hSecond hFound hClaims
      ⟨hTerm.resolve_left hPhase, hPhase⟩ hSame)

/-- No recovery of this term has read the dtx of an accepted command. -/
theorem PhaseInv.calls_unread (h : PhaseInv cluster view) (hProvenance : Provenance cluster)
    (hFound : cluster.executors[id]? = some before)
    (hCalls : Executor.Calls before after command cluster.raft.term)
    (hTerm : before.phase = none ∨ before.term = cluster.raft.term)
    {state : CoordinatorState} (hTracked : Tracked cluster view state) (phase : DtxPhase) :
    ¬state.Holds phase before.dtx.dtxId := by
  intro hHolds
  obtain ⟨hView, hUnclaimed⟩ := hTracked phase _ hHolds
  rcases hCalls.origin with ⟨hStage, _, _⟩ | ⟨_, hSource, hSome, _⟩
  · exact hProvenance.unprepared id before hFound hStage cluster.raft.leader
      ((replay_traced h.viewed).holds hView)
  · have hPhase : before.phase ≠ none := by
      rw [hSource]
      exact Option.isSome_iff_ne_none.mp hSome
    exact hUnclaimed before (List.mem_of_getElem? hFound) ⟨hTerm.resolve_left hPhase, hPhase⟩ rfl

/-- The command that is accepted will find its dtx where it must be. -/
theorem PhaseInv.calls_processed (h : PhaseInv cluster view) (hProvenance : Provenance cluster)
    (hFound : cluster.executors[id]? = some before)
    (hCalls : Executor.Calls before after command cluster.raft.term)
    (hTerm : before.phase = none ∨ before.term = cluster.raft.term) :
    ∃ next, view.step command = some next := by
  apply exists_processed
  · intro dtxId phase hId hSource
    obtain rfl : before.dtx.dtxId = dtxId := Option.some.inj (hCalls.dtxId.symm.trans hId)
    rcases hCalls.origin with ⟨_, hPrepare, _⟩ | ⟨_, hPhase, _, _⟩
    · rw [hPrepare] at hSource
      cases hSource
    · rw [hSource] at hPhase
      have hCurrent : before.term = cluster.raft.term :=
        hTerm.resolve_left (by simp [hPhase])
      exact (h.standing before (List.mem_of_getElem? hFound) hCurrent phase hPhase).2
  · intro dtxId txs hCommand hHolds
    obtain ⟨hStage, rfl⟩ := hCalls.prepare hCommand
    exact hProvenance.unprepared id before hFound hStage cluster.raft.leader
      ((replay_traced h.viewed).holds hHolds)

/-- A command that the leader appends finds its dtx in the table it is taken from: the
executor has followed the dtx there in this very term. -/
theorem PhaseInv.append (h : PhaseInv cluster view) (hProvenance : Provenance cluster)
    (hFound : cluster.executors[id]? = some before)
    (hLeads : before.node = cluster.raft.leader)
    (hCalls : Executor.Calls before after command cluster.raft.term)
    (hTerm : before.phase = none ∨ before.term = cluster.raft.term) :
    ∃ next, PhaseInv { cluster with
      raft := cluster.raft.accept ⟨.executor id, command⟩
      executors := cluster.executors.set id after } next := by
  obtain ⟨next, hNext⟩ := h.calls_processed hProvenance hFound hCalls hTerm
  have hViewed : replay (commands (cluster.raft.history cluster.raft.leader ++
      [⟨.executor id, command⟩])) = some next := by
    rw [commands_append]
    exact (run_concat _ _ _ _ _).mpr ⟨view, h.viewed, hNext⟩
  have hAfterTerm : after.term = cluster.raft.term := by
    rcases hCalls.origin with ⟨_, _, hNew⟩ | ⟨_, hSource, hSome, hSame⟩
    · exact hNew
    · rw [hSame]
      apply hTerm.resolve_left
      rw [hSource]
      exact Option.isSome_iff_ne_none.mp hSome
  have hKept : ∀ phase dtxId, dtxId ≠ before.dtx.dtxId → view.Holds phase dtxId →
      next.Holds phase dtxId := by
    intro phase dtxId hNe hHolds
    refine ((step_processed hNext).holds_iff phase dtxId).mpr (Or.inr ⟨hHolds, ?_⟩)
    rintro ⟨hId, _⟩
    exact hNe (Option.some.inj (hId.symm.trans hCalls.dtxId))
  refine ⟨next, ?_, h.running, h.replays.accept ⟨next, hViewed⟩, ?_, ?_, ?_, ?_, h.pastReads, ?_⟩
  · exact (congrArg (fun history => replay (commands history))
      (ReplicatedLog.history_accept_leader ..)).trans hViewed
  · exact Slots.forall_mem_set h.pastTerms hAfterTerm.le
  · intro executor hIn hCurrent phase hPhase
    obtain ⟨place, hPlace⟩ := List.mem_iff_getElem?.mp hIn
    rcases Slots.of_set hPlace with ⟨_, rfl⟩ | ⟨hNe, hOld⟩
    · refine ⟨hCalls.node.trans hLeads, ?_⟩
      rw [hCalls.dtx]
      refine ((step_processed hNext).holds_iff phase _).mpr (Or.inl ⟨hCalls.dtxId, ?_⟩)
      rw [← hCalls.target, hPhase]
    · obtain ⟨hNode, hHolds⟩ :=
        h.standing executor (List.mem_of_getElem? hOld) hCurrent phase hPhase
      refine ⟨hNode, hKept phase _ ?_ hHolds⟩
      exact h.calls_alone hProvenance hFound hCalls hTerm hOld hNe
        ⟨hCurrent, by simp [hPhase]⟩
  · intro place other first second hFirst hSecond hClaimsFirst hClaimsSecond hSame
    rcases Slots.of_set hFirst with ⟨rfl, rfl⟩ | ⟨hNeFirst, hOldFirst⟩
    · rcases Slots.of_set hSecond with ⟨rfl, _⟩ | ⟨hNeSecond, hOldSecond⟩
      · rfl
      · rw [hCalls.dtx] at hSame
        exact (h.calls_alone hProvenance hFound hCalls hTerm hOldSecond hNeSecond hClaimsSecond
          hSame.symm).elim
    · rcases Slots.of_set hSecond with ⟨rfl, rfl⟩ | ⟨_, hOldSecond⟩
      · rw [hCalls.dtx] at hSame
        exact (h.calls_alone hProvenance hFound hCalls hTerm hOldFirst hNeFirst hClaimsFirst
          hSame).elim
      · exact h.single place other first second hOldFirst hOldSecond hClaimsFirst hClaimsSecond
          hSame
  · refine h.numbered.accept fun entry hIn node number hAuthor => ?_
    rcases List.mem_append.mp hIn with hOld | hLast
    · exact h.numbered _ entry hOld node number hAuthor
    · rw [List.mem_singleton.mp hLast] at hAuthor
      cases hAuthor
  · intro node term state hReads hCurrent
    have hOld : Reads cluster.raft cluster.recoveries node term state :=
      hReads.of_accept fun _ hAuthor => by cases hAuthor
    obtain ⟨hNode, hTracked⟩ := h.reads node term state hOld hCurrent
    refine ⟨hNode, fun phase dtxId hHolds => ?_⟩
    have hNe : dtxId ≠ before.dtx.dtxId := by
      rintro rfl
      exact h.calls_unread hProvenance hFound hCalls hTerm hTracked phase hHolds
    obtain ⟨hView, hUnclaimed⟩ := hTracked phase dtxId hHolds
    refine ⟨hKept phase dtxId hNe hView, Slots.forall_mem_set hUnclaimed fun _ => ?_⟩
    rw [hCalls.dtx]
    exact hNe.symm

end Append

theorem Executor.phase_of_ended {executor : Executor} (h : executor.ended = true) :
    executor.phase = none := by
  unfold Executor.ended at h
  split at h
  case h_1 hStage => simp [Executor.phase, hStage]
  case h_2 hStage => simp [Executor.phase, hStage]
  case h_3 => cases h

/-- A leader that has joined its executors has nobody left who works on a dtx
in the current term, so whatever its `get` will read is free to be taken up. -/
theorem PhaseInv.appendGet (h : PhaseInv cluster view)
    (hJoined : ∀ executor ∈ cluster.executors, executor.node = cluster.raft.leader →
      executor.ended = true) :
    PhaseInv { cluster with
      raft := cluster.raft.accept ⟨.recovery cluster.raft.leader cluster.gets, .get⟩
      recoveries := Function.update cluster.recoveries cluster.raft.leader
        (.awaiting cluster.gets cluster.raft.term)
      gets := cluster.gets + 1 } view := by
  have hViewed : replay (commands (cluster.raft.history cluster.raft.leader ++
      [⟨.recovery cluster.raft.leader cluster.gets, .get⟩])) = some view := by
    rw [commands_append]
    exact (run_concat _ _ _ _ _).mpr ⟨view, h.viewed, rfl⟩
  have hHistory : (cluster.raft.accept ⟨.recovery cluster.raft.leader cluster.gets, .get⟩).history
      cluster.raft.leader = cluster.raft.history cluster.raft.leader ++
        [⟨.recovery cluster.raft.leader cluster.gets, .get⟩] :=
    ReplicatedLog.history_accept_leader ..
  have hNone : ∀ executor ∈ cluster.executors, ¬cluster.Claims executor := by
    rintro executor hIn ⟨hTerm, hPhase⟩
    obtain ⟨phase, hSome⟩ := Option.ne_none_iff_exists'.mp hPhase
    have hNode := (h.standing executor hIn hTerm phase hSome).1
    exact hPhase (Executor.phase_of_ended (hJoined executor hIn hNode))
  have hView : ∀ state, Reads (cluster.raft.accept
      ⟨.recovery cluster.raft.leader cluster.gets, .get⟩)
      (fun _ => .awaiting cluster.gets cluster.raft.term) cluster.raft.leader cluster.raft.term
      state → view = state := by
    intro state hReads
    cases hReads with
    | answered found => cases found
    | @awaiting id first second waits place replayed =>
        cases waits
        have hPlace := hHistory.symm.trans place
        rcases List.eq_nil_or_concat second with rfl | ⟨rest, last, rfl⟩
        · rw [← (List.append_inj' hPlace rfl).1] at replayed
          exact Option.some.inj (h.viewed.symm.trans replayed)
        · rw [List.concat_eq_append, ← List.cons_append, ← List.append_assoc] at hPlace
          have hOld := (List.append_inj' hPlace rfl).1
          have hLess := h.numbered cluster.raft.leader
            ⟨.recovery cluster.raft.leader cluster.gets, .get⟩ (by rw [hOld]; simp) _ _ rfl
          exact (Nat.lt_irrefl _ hLess).elim
  have hNumbered : cluster.raft.Histories fun history => ∀ entry ∈ history, ∀ node id,
      entry.author = .recovery node id → id < cluster.gets + 1 :=
    fun node entry hIn other id hAuthor =>
      Nat.lt_succ_of_lt (h.numbered node entry hIn other id hAuthor)
  refine ⟨?_, h.running, h.replays.accept ⟨view, hViewed⟩, h.pastTerms, h.standing, h.single,
    hNumbered.accept ?_, ?_, ?_⟩
  · exact (congrArg (fun history => replay (commands history)) hHistory).trans hViewed
  · intro entry hIn node id hAuthor
    rcases List.mem_append.mp hIn with hOld | hLast
    · exact hNumbered _ entry hOld node id hAuthor
    · rw [List.mem_singleton.mp hLast] at hAuthor
      cases hAuthor
      exact Nat.lt_succ_self _
  · exact startedBy_update h.pastReads (Nat.le_refl _)
  · intro node term state hReads hCurrent
    obtain rfl : term = cluster.raft.term := hCurrent
    rcases hReads.of_update with ⟨rfl, hNew⟩ | ⟨hNode, hOld⟩
    · refine ⟨rfl, fun phase dtxId hHolds => ?_⟩
      obtain rfl : view = state := hView state hNew
      exact ⟨hHolds, fun executor hIn hClaims => (hNone executor hIn hClaims).elim⟩
    · refine h.reads node _ state (hOld.of_accept fun id hAuthor => ?_) rfl
      cases hAuthor
      exact hNode rfl

/-- A recovery is answered with the state before its own `get`. -/
theorem PhaseInv.answerGet (h : PhaseInv cluster view) (hProvenance : Provenance cluster) {id : Nat}
    (hNext : cluster.raft.commitNext = some (⟨.recovery node id, .get⟩, raft))
    (hAwaiting : cluster.recoveries node = .awaiting id term) :
    PhaseInv { cluster with
      raft := raft
      recoveries := Function.update cluster.recoveries node (.snapshot term cluster.sm) } view := by
  have hProcessed := h.process hNext cluster.sm
  refine hProcessed.withRecoveries ?_ ?_
  · refine startedBy_update hProcessed.pastReads ?_
    have hBefore := hProcessed.pastReads node
    rw [hAwaiting] at hBefore
    exact hBefore
  · intro other otherTerm state hReads hCurrent
    rcases hReads.of_update_snapshot with ⟨rfl, rfl, rfl⟩ | ⟨_, hOld⟩
    · obtain ⟨rest, hTail, _⟩ := ReplicatedLog.commitNext_eq_some hNext
      have hPlace : raft.history raft.leader =
          cluster.raft.log ++ ⟨.recovery other id, .get⟩ :: rest := by
        rw [(ReplicatedLog.history_commitNext_leader hNext).2, ReplicatedLog.history, hTail]
      exact hProcessed.reads other otherTerm cluster.sm
        (.awaiting hAwaiting hPlace hProvenance.processed) hCurrent
    · exact hProcessed.reads other otherTerm state hOld hCurrent

/-- A dtx that a recovery takes up was unclaimed, and no one can take it up
again from the same snapshot. -/
theorem PhaseInv.recover (h : PhaseInv cluster view) (hProvenance : Provenance cluster)
    {dtxId : Hash} {left : CoordinatorState} {dtx : DistributedTx} {stage : Stage}
    (hAnswered : cluster.recoveries node = .snapshot term state)
    (hRecovered : Recovered cluster.shardRanges state dtxId dtx stage left) :
    PhaseInv ({ cluster with
      recoveries := Function.update cluster.recoveries node (.snapshot term left) }.spawn
        ⟨node, term, dtx, stage⟩) view := by
  obtain ⟨rfl, _, phase, hPhase, hHolds, hLeft⟩ := hRecovered.holds node term
  have hRead : Reads cluster.raft cluster.recoveries node term state := .answered hAnswered
  have hPast : term ≤ cluster.raft.term := hRead.before (h.pastReads node)
  have hCurrentRead : term = cluster.raft.term →
      node = cluster.raft.leader ∧ Tracked cluster view state := h.reads node term state hRead
  have hBefore : PhaseInv { cluster with
      recoveries := Function.update cluster.recoveries node (.snapshot term left) } view := by
    refine h.withRecoveries (startedBy_update h.pastReads hPast) ?_
    intro other otherTerm otherState hReads hCurrent
    rcases hReads.of_update_snapshot with ⟨rfl, rfl, rfl⟩ | ⟨_, hOld⟩
    · obtain ⟨hNode, hTracked⟩ := hCurrentRead hCurrent
      exact ⟨hNode, fun otherPhase otherId hOther =>
        hTracked otherPhase otherId ((hLeft otherPhase otherId).mp hOther).1⟩
    · exact h.reads other otherTerm otherState hOld hCurrent
  refine hBefore.spawn hPast ?_ ?_ ?_ cluster.batches
  · intro hCurrent otherPhase hOther
    obtain rfl : phase = otherPhase := Option.some.inj (hPhase.symm.trans hOther)
    obtain ⟨hNode, hTracked⟩ := hCurrentRead hCurrent
    exact ⟨hNode, (hTracked phase _ hHolds).1⟩
  · rintro ⟨hCurrent, _⟩
    exact ((hCurrentRead hCurrent).2 phase _ hHolds).2
  · rintro ⟨hCurrent, _⟩ other otherTerm otherState hReads hOtherTerm otherPhase hOther
    obtain ⟨hNode, hTracked⟩ := hCurrentRead hCurrent
    rcases hReads.of_update_snapshot with ⟨rfl, rfl, rfl⟩ | ⟨hNe, hOld⟩
    · obtain ⟨hState, hNot⟩ := (hLeft otherPhase _).mp hOther
      have hSame := h.exclusive hProvenance _ otherPhase phase
        (hTracked otherPhase _ hState).1 (hTracked phase _ hHolds).1
      exact hNot ⟨hSame, rfl⟩
    · exact hNe ((h.reads other otherTerm otherState hOld hOtherTerm).1.trans hNode.symm)

end Steps

/-- One event keeps the executors of the current term and the log in step. -/
theorem PhaseInv.effect {crypto : Crypto} {cluster next : Cluster} {view : CoordinatorState}
    {event : Event} (h : PhaseInv cluster view) (hProvenance : Provenance cluster)
    (hTerm : cluster.KeepsTerm event) (hEffect : Effect crypto cluster event next) :
    ∃ after, PhaseInv next after := by
  cases hEffect with
  | elect node => exact h.elect node
  | copyLog count follower => exact ⟨view, h.copyLog count follower⟩
  | halt running next processed => exact (h.not_fatal hProvenance next _ processed).elim
  | process running next processed => exact ⟨view, h.process next _⟩
  | report running next processed found waiting moved =>
      exact ⟨view, (h.process next _).follow
        (follow_set found (Executor.replicated_follows moved)) _ _⟩
  | answerGet running next awaiting => exact ⟨view, h.answerGet hProvenance next awaiting⟩
  | submit node batch unused =>
      refine ⟨view, h.spawn (Nat.le_refl _) ?_ ?_ ?_ _⟩
      · intro _ phase hPhase
        cases hPhase
      · exact fun hClaims => (hClaims.2 rfl).elim
      · exact fun hClaims => (hClaims.2 rfl).elim
  | append found leads calls moved =>
      exact h.append hProvenance found leads (Executor.accepted_calls calls moved)
        (hTerm _ found)
  | appendGet leads joined =>
      subst leads
      exact ⟨view, h.appendGet joined⟩
  | recover answered next =>
      exact ⟨view, h.recover hProvenance answered (nextRecovered_recovered next)⟩
  | deliver respond sent reached found processed =>
      refine ⟨view, h.follow (follow_set found ?_) _ _⟩
      split
      case isTrue => exact Executor.answered_follows _ _ _
      case isFalse => exact .refl _
  | finishRpc found moved =>
      exact ⟨view, h.follow (follow_set found (Executor.finished_follows moved)) _ _⟩
  | fail found runs =>
      exact ⟨view, h.follow (follow_set found (Executor.failed_follows _)) _ _⟩

theorem phaseInv_initial (configs : List ShardConfig) :
    PhaseInv (initial configs) .empty where
  viewed := rfl
  running := rfl
  replays := fun _ => ⟨.empty, rfl⟩
  pastTerms := by simp [initial]
  standing := by simp [initial]
  single := by simp [initial]
  numbered := by
    intro node entry hIn
    cases hIn
  pastReads := fun _ => trivial
  reads := by
    intro node term state hReads
    cases hReads with
    | awaiting waits place replayed => cases waits
    | answered found => cases found

/-- Along every run in which executors stay in their term, some view fits the cluster. -/
theorem phaseInv {crypto : Crypto} {configs : List ShardConfig} {events : List Event}
    {cluster : Cluster} (h : run (step crypto) (initial configs) events = some cluster)
    (hTerm : Guarded (step crypto) (initial configs) KeepsTerm events) :
    ∃ view, PhaseInv cluster view := by
  have hBoth : Provenance cluster ∧ ∃ view, PhaseInv cluster view := by
    refine guarded_invariant (motive := fun state => Provenance state ∧
      ∃ view, PhaseInv state view) ⟨provenance_initial configs, _, phaseInv_initial configs⟩
      ?_ h hTerm
    rintro state event next ⟨hProvenance, view, hInv⟩ hKeeps hStep
    have hEffect := step_effect hStep
    exact ⟨hProvenance.effect hEffect, hInv.effect hProvenance hKeeps hEffect⟩
  exact hBoth.2

/-- If every executor keeps to its term, the state machine never reaches a fatal
branch, whichever accepted entries are committed. After every part of the log
each dtx stands in at most one table. -/
theorem phase_log_consistent (crypto : Crypto) (configs : List ShardConfig)
    (events : List Event) (cluster : Cluster)
    (hRun : run (step crypto) (initial configs) events = some cluster)
    (hTerm : Guarded (step crypto) (initial configs) KeepsTerm events) :
    cluster.halted = false ∧ ∀ node first second,
      commands (cluster.raft.history node) = first ++ second →
        ∃ state, replay first = some state ∧ state.Exclusive := by
  obtain ⟨view, hInv⟩ := phaseInv hRun hTerm
  refine ⟨hInv.running, fun node first second hSplit => ?_⟩
  obtain ⟨final, hFinal⟩ := hInv.replays node
  rw [hSplit] at hFinal
  obtain ⟨state, hState, _⟩ := run_prefix hFinal
  refine ⟨state, hState, ?_⟩
  have hOnce : (preparedIds first).Nodup := by
    have hAll : (preparedIds (commands (cluster.raft.history node))).Nodup :=
      (provenance hRun).once node
    rw [hSplit, preparedIds, List.filterMap_append] at hAll
    exact (List.nodup_append.mp hAll).1
  exact (replay_ordered hState hOnce).exclusive (replay_traced hState)

section Reelection

/-- One shard that owns the whole range and holds one coin. -/
def oneShard : List ShardConfig := [⟨(0, 255), 4, .noAttestations, {.ofByte 1}⟩]

def spendTx : CompactTx := .unattested (.ofByte 9) [.ofByte 1] [.ofByte 2]

/-- A dtx is prepared by node 0, recovered and committed by node 1. -/
def takeover : List Event :=
  [.submit 0 (.ofByte 7) [spendTx], .append 0, .commitNext true,
    .elect 1, .appendGet 1, .commitNext true, .recover 1 (.ofByte 7),
    .deliver ⟨1, ⟨0, ⟨.ofByte 7, .lock [spendTx]⟩⟩⟩ true, .finishRpc 1, .append 1,
    .commitNext true]

/-- The first executor, which was never joined, goes on after node 0 is elected
again. -/
def reelection : List Event :=
  [.elect 0, .deliver ⟨0, ⟨0, ⟨.ofByte 7, .lock [spendTx]⟩⟩⟩ true, .finishRpc 0, .append 0,
    .commitNext true]

theorem phase_log_consistent_takeover :
    ∃ cluster, run (step .unused) (initial oneShard) takeover = some cluster ∧
      Guarded (step .unused) (initial oneShard) KeepsTerm takeover ∧
      cluster.halted = false := by
  have hTest : (run (step .unused) (initial oneShard) takeover).any (fun _ => true) = true := by
    decide +kernel
  have hTerm : Guarded (step .unused) (initial oneShard) KeepsTerm takeover := by decide +kernel
  obtain ⟨cluster, hRun, _⟩ := exists_run_of_test hTest
  exact ⟨cluster, hRun, hTerm,
    (phase_log_consistent .unused oneShard takeover cluster hRun hTerm).1⟩

/-- The second commit command of the dtx finds no prepare entry. -/
theorem reelected_commit_fatal :
    ∃ cluster, run (step .unused) (initial oneShard) (takeover ++ reelection) = some cluster ∧
      cluster.halted = true :=
  exists_run_of_test (by decide +kernel)

end Reelection

end OpenCbdc.Cluster

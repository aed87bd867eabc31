import OpenCbdc.Coordinator.StateMachine

/-! Replaying a list of commands. A command that is processed takes its dtx from
one table to the next, so the tables tell which commands came before. -/
namespace OpenCbdc.CoordinatorState

open TransitionSystem

/-- The state after the commands, if none of them reaches a fatal branch. -/
def replay (commands : List SmCommand) : Option CoordinatorState := run step .empty commands

/-- A command for the first phase of the dtx is among these. -/
def PreparedIn (dtxId : Hash) (commands : List SmCommand) : Prop :=
  ∃ txs, SmCommand.prepare dtxId txs ∈ commands

def preparedIds (commands : List SmCommand) : List Hash :=
  commands.filterMap fun
    | .prepare dtxId _ => some dtxId
    | _ => none

/-- An ID is listed exactly if some command of the log prepares it. -/
theorem mem_preparedIds {commands : List SmCommand} {dtxId : Hash} :
    dtxId ∈ preparedIds commands ↔ PreparedIn dtxId commands := by
  rw [preparedIds, List.mem_filterMap, PreparedIn]
  constructor
  · rintro ⟨command, hCommand, hId⟩
    cases command with
    | prepare other txs =>
        cases hId
        exact ⟨txs, hCommand⟩
    | commit other completeTxs txIdxs => cases hId
    | discard other => cases hId
    | done other => cases hId
    | get => cases hId
  · rintro ⟨txs, hCommand⟩
    exact ⟨_, hCommand, rfl⟩

section Step

inductive Processed (state : CoordinatorState) : SmCommand → CoordinatorState → Prop where
  | prepare {dtxId : Hash} {txs : List CompactTx} (absent : dtxId ∉ state.prepareTxs) :
      Processed state (.prepare dtxId txs)
        { state with prepareTxs := Table.emplace state.prepareTxs dtxId txs }
  | commit {dtxId : Hash} {completeTxs : List Bool} {txIdxs : List (List Nat)}
      (present : dtxId ∈ state.prepareTxs) :
      Processed state (.commit dtxId completeTxs txIdxs)
        { state with
          prepareTxs := state.prepareTxs.erase dtxId
          commitTxs := Table.emplace state.commitTxs dtxId (completeTxs, txIdxs) }
  | discard {dtxId : Hash} (present : dtxId ∈ state.commitTxs) :
      Processed state (.discard dtxId)
        { state with
          commitTxs := state.commitTxs.erase dtxId
          discardTxs := insert dtxId state.discardTxs }
  | done {dtxId : Hash} (present : dtxId ∈ state.discardTxs) :
      Processed state (.done dtxId) { state with discardTxs := state.discardTxs.erase dtxId }
  | get : Processed state .get state

variable {state next : CoordinatorState} {command : SmCommand}

/-- A `prepare` is accepted for a dtx that is not in its table yet. Every later command on a
dtx is accepted only if the dtx stands in the table before. -/
theorem step_processed (h : state.step command = some next) :
    Processed state command next := by
  cases command with
  | prepare dtxId txs =>
      by_cases hIn : dtxId ∈ state.prepareTxs
      · simp [step, commit, hIn] at h
      · simp only [step, commit, hIn, if_false, Option.some_inj] at h
        subst h
        exact .prepare hIn
  | commit dtxId completeTxs txIdxs =>
      by_cases hIn : dtxId ∈ state.prepareTxs
      · simp only [step, commit, hIn, if_true, Option.some_inj] at h
        subst h
        exact .commit hIn
      · simp [step, commit, hIn] at h
  | discard dtxId =>
      by_cases hIn : dtxId ∈ state.commitTxs
      · simp only [step, commit, hIn, if_true, Option.some_inj] at h
        subst h
        exact .discard hIn
      · simp [step, commit, hIn] at h
  | done dtxId =>
      by_cases hIn : dtxId ∈ state.discardTxs
      · simp only [step, commit, hIn, if_true, Option.some_inj] at h
        subst h
        exact .done hIn
      · simp [step, commit, hIn] at h
  | get =>
      cases h
      exact .get

/-- Only the dtx of the command changes its tables. -/
theorem Processed.holds_iff (h : Processed state command next) (phase : DtxPhase)
    (dtxId : Hash) :
    next.Holds phase dtxId ↔
      (command.dtxId? = some dtxId ∧ command.target = some phase) ∨
        (state.Holds phase dtxId ∧
          ¬(command.dtxId? = some dtxId ∧ command.source = some phase)) := by
  cases h with
  | prepare absent =>
      cases phase <;> simp [Holds, SmCommand.dtxId?, SmCommand.target, SmCommand.source, eq_comm]
  | commit present =>
      cases phase <;>
        simp [Holds, SmCommand.dtxId?, SmCommand.target, SmCommand.source, eq_comm, and_comm]
  | discard present =>
      cases phase <;>
        simp [Holds, SmCommand.dtxId?, SmCommand.target, SmCommand.source, eq_comm, and_comm]
  | done present =>
      cases phase <;>
        simp [Holds, SmCommand.dtxId?, SmCommand.target, SmCommand.source, eq_comm, and_comm]
  | get => simp [SmCommand.dtxId?]

/-- A processed command has found its dtx where it must be. -/
theorem Processed.source (h : Processed state command next) {dtxId : Hash} {phase : DtxPhase}
    (hId : command.dtxId? = some dtxId) (hSource : command.source = some phase) :
    state.Holds phase dtxId := by
  cases h with
  | prepare absent => cases hSource
  | commit present =>
      cases hId
      cases hSource
      exact present
  | discard present =>
      cases hId
      cases hSource
      exact present
  | done present =>
      cases hId
      cases hSource
      exact present
  | get => cases hSource

/-- A command is processed if its dtx stands where it must be. -/
theorem exists_processed
    (hSource : ∀ dtxId phase, command.dtxId? = some dtxId → command.source = some phase →
      state.Holds phase dtxId)
    (hPrepare : ∀ dtxId txs, command = .prepare dtxId txs → ¬state.Holds .prepare dtxId) :
    ∃ next, state.step command = some next := by
  cases command with
  | prepare dtxId txs =>
      have hNot : dtxId ∉ state.prepareTxs := hPrepare dtxId txs rfl
      simp [step, commit, hNot]
  | commit dtxId completeTxs txIdxs =>
      have hIn : dtxId ∈ state.prepareTxs := hSource dtxId .prepare rfl rfl
      simp [step, commit, hIn]
  | discard dtxId =>
      have hIn : dtxId ∈ state.commitTxs := hSource dtxId .commit rfl rfl
      simp [step, commit, hIn]
  | done dtxId =>
      have hIn : dtxId ∈ state.discardTxs := hSource dtxId .discard rfl rfl
      simp [step, commit, hIn]
  | get => exact ⟨state, rfl⟩

end Step

section Replay

/-- The tables and the commands, as far as every command has its cause. -/
structure Traced (commands : List SmCommand) (state : CoordinatorState) : Prop where
  prepared : ∀ dtxId txs, state.prepareTxs.lookup dtxId = some txs →
    SmCommand.prepare dtxId txs ∈ commands
  committed : ∀ dtxId data, state.commitTxs.lookup dtxId = some data →
    SmCommand.commit dtxId data.1 data.2 ∈ commands
  discarded : ∀ dtxId ∈ state.discardTxs, SmCommand.discard dtxId ∈ commands
  commitCause : ∀ dtxId completeTxs txIdxs,
    SmCommand.commit dtxId completeTxs txIdxs ∈ commands → PreparedIn dtxId commands
  discardCause : ∀ dtxId, SmCommand.discard dtxId ∈ commands →
    ∃ completeTxs txIdxs, SmCommand.commit dtxId completeTxs txIdxs ∈ commands
  doneCause : ∀ dtxId, SmCommand.done dtxId ∈ commands → SmCommand.discard dtxId ∈ commands

variable {dtxId : Hash} {commands : List SmCommand}

theorem PreparedIn.mono {first second : List SmCommand} (h : PreparedIn dtxId first)
    (hSubset : first ⊆ second) : PreparedIn dtxId second := by
  obtain ⟨txs, hIn⟩ := h
  exact ⟨txs, hSubset hIn⟩

theorem Traced.holds_prepare (h : Traced commands state) (hIn : dtxId ∈ state.prepareTxs) :
    PreparedIn dtxId commands := by
  obtain ⟨txs, hLookup⟩ := Finmap.mem_iff.mp hIn
  exact ⟨txs, h.prepared dtxId txs hLookup⟩

theorem Traced.holds_commit (h : Traced commands state) (hIn : dtxId ∈ state.commitTxs) :
    ∃ completeTxs txIdxs, SmCommand.commit dtxId completeTxs txIdxs ∈ commands := by
  obtain ⟨data, hLookup⟩ := Finmap.mem_iff.mp hIn
  exact ⟨data.1, data.2, h.committed dtxId data hLookup⟩

/-- A dtx that stands in any table was prepared. -/
theorem Traced.holds (h : Traced commands state) {phase : DtxPhase}
    (hIn : state.Holds phase dtxId) : PreparedIn dtxId commands := by
  cases phase with
  | prepare => exact h.holds_prepare hIn
  | commit =>
      obtain ⟨completeTxs, txIdxs, hCommit⟩ := h.holds_commit hIn
      exact h.commitCause dtxId completeTxs txIdxs hCommit
  | discard =>
      obtain ⟨completeTxs, txIdxs, hCommit⟩ := h.discardCause dtxId (h.discarded dtxId hIn)
      exact h.commitCause dtxId completeTxs txIdxs hCommit

/-- Commands that are all processed have their causes before them. -/
theorem Traced.step (h : Traced commands state) (hStep : Processed state command next) :
    Traced (commands ++ [command]) next := by
  have hOld : commands ⊆ commands ++ [command] := List.subset_append_left ..
  have hLast : command ∈ commands ++ [command] := by simp
  constructor
  · intro other txs hLookup
    cases hStep with
    | @prepare dtxId newTxs absent =>
        rcases Table.of_lookup_emplace hLookup with ⟨rfl, rfl⟩ | hBefore
        · exact hLast
        · exact hOld (h.prepared other txs hBefore)
    | commit present => exact hOld (h.prepared other txs (Table.of_lookup_erase hLookup).2)
    | discard present => exact hOld (h.prepared other txs hLookup)
    | done present => exact hOld (h.prepared other txs hLookup)
    | get => exact hOld (h.prepared other txs hLookup)
  · intro other data hLookup
    cases hStep with
    | prepare absent => exact hOld (h.committed other data hLookup)
    | @commit dtxId completeTxs txIdxs present =>
        rcases Table.of_lookup_emplace hLookup with ⟨rfl, rfl⟩ | hBefore
        · exact hLast
        · exact hOld (h.committed other data hBefore)
    | discard present => exact hOld (h.committed other data (Table.of_lookup_erase hLookup).2)
    | done present => exact hOld (h.committed other data hLookup)
    | get => exact hOld (h.committed other data hLookup)
  · intro other hIn
    cases hStep with
    | prepare absent => exact hOld (h.discarded other hIn)
    | commit present => exact hOld (h.discarded other hIn)
    | @discard dtxId present =>
        rcases Finset.mem_insert.mp hIn with rfl | hBefore
        · exact hLast
        · exact hOld (h.discarded other hBefore)
    | done present => exact hOld (h.discarded other (Finset.mem_of_mem_erase hIn))
    | get => exact hOld (h.discarded other hIn)
  · intro other completeTxs txIdxs hIn
    rcases List.mem_append.mp hIn with hBefore | hNew
    · exact (h.commitCause other completeTxs txIdxs hBefore).mono hOld
    · rw [List.mem_singleton] at hNew
      subst hNew
      exact (h.holds (hStep.source rfl rfl)).mono hOld
  · intro other hIn
    rcases List.mem_append.mp hIn with hBefore | hNew
    · obtain ⟨completeTxs, txIdxs, hCommit⟩ := h.discardCause other hBefore
      exact ⟨completeTxs, txIdxs, hOld hCommit⟩
    · rw [List.mem_singleton] at hNew
      subst hNew
      obtain ⟨completeTxs, txIdxs, hCommit⟩ := h.holds_commit (hStep.source rfl rfl)
      exact ⟨completeTxs, txIdxs, hOld hCommit⟩
  · intro other hIn
    rcases List.mem_append.mp hIn with hBefore | hNew
    · exact hOld (h.doneCause other hBefore)
    · rw [List.mem_singleton] at hNew
      subst hNew
      exact hOld (h.discarded other (hStep.source rfl rfl))

theorem replay_traced (h : replay commands = some state) : Traced commands state := by
  refine run_induction (motive := Traced) ?_ ?_ h
  · constructor <;> simp [empty]
  · intro before state command next _ ih hStep
    exact ih.step (step_processed hStep)

/-- When every dtx is prepared at most once, a dtx that stands in a table has
not been taken out of it before, and it is committed at most once. -/
structure Ordered (commands : List SmCommand) (state : CoordinatorState) : Prop where
  uncommitted : ∀ dtxId, state.Holds .prepare dtxId →
    ∀ completeTxs txIdxs, SmCommand.commit dtxId completeTxs txIdxs ∉ commands
  undiscarded : ∀ dtxId, state.Holds .commit dtxId → SmCommand.discard dtxId ∉ commands
  undone : ∀ dtxId, state.Holds .discard dtxId → SmCommand.done dtxId ∉ commands
  commitUnique : ∀ dtxId first firstIdxs second secondIdxs,
    SmCommand.commit dtxId first firstIdxs ∈ commands →
    SmCommand.commit dtxId second secondIdxs ∈ commands → first = second ∧ firstIdxs = secondIdxs

theorem preparedIds_concat (commands : List SmCommand) (command : SmCommand) :
    preparedIds (commands ++ [command]) = preparedIds commands ++ preparedIds [command] :=
  List.filterMap_append

/-- A dtx that stands in a table after a command was not taken out of it: not
by the command itself, and not before it. -/
theorem Processed.notMem_concat {taken : SmCommand} {phase : DtxPhase}
    (h : Processed state command next) (hHolds : next.Holds phase dtxId)
    (hId : taken.dtxId? = some dtxId) (hSource : taken.source = some phase)
    (hHeld : state.Holds phase dtxId → taken ∉ commands)
    (hEntered : command.dtxId? = some dtxId → command.target = some phase → taken ∉ commands) :
    taken ∉ commands ++ [command] := by
  intro hIn
  rcases List.mem_append.mp hIn with hBefore | hNew
  · rcases (h.holds_iff _ _).mp hHolds with ⟨hSame, hTarget⟩ | ⟨hStood, _⟩
    · exact hEntered hSame hTarget hBefore
    · exact hHeld hStood hBefore
  · cases List.mem_singleton.mp hNew
    rcases (h.holds_iff _ _).mp hHolds with ⟨_, hTarget⟩ | ⟨_, hKept⟩
    · cases command <;> cases hSource <;> cases hTarget
    · exact hKept ⟨hId, hSource⟩

/-- A command keeps the order of the phases, provided that no dtx is prepared again after it
is done. -/
theorem Ordered.step (h : Ordered commands state) (hTraced : Traced commands state)
    (hStep : Processed state command next)
    (hOnce : ∀ dtxId txs, command = .prepare dtxId txs → ¬PreparedIn dtxId commands) :
    Ordered (commands ++ [command]) next := by
  constructor
  · intro dtxId hHolds completeTxs txIdxs
    refine hStep.notMem_concat hHolds rfl rfl (fun hHeld => ?_) fun hId hTarget hBefore => ?_
    · exact h.uncommitted dtxId hHeld completeTxs txIdxs
    · cases hStep with
      | @prepare other txs absent =>
          cases hId
          exact hOnce dtxId txs rfl (hTraced.commitCause dtxId completeTxs txIdxs hBefore)
      | _ => cases hTarget
  · intro dtxId hHolds
    refine hStep.notMem_concat hHolds rfl rfl (h.undiscarded dtxId) fun hId hTarget hBefore => ?_
    cases hStep with
    | commit present =>
        cases hId
        obtain ⟨earlier, earlierIdxs, hCommit⟩ := hTraced.discardCause dtxId hBefore
        exact h.uncommitted dtxId present earlier earlierIdxs hCommit
    | _ => cases hTarget
  · intro dtxId hHolds
    refine hStep.notMem_concat hHolds rfl rfl (h.undone dtxId) fun hId hTarget hBefore => ?_
    cases hStep with
    | discard present =>
        cases hId
        exact h.undiscarded dtxId present (hTraced.doneCause dtxId hBefore)
    | _ => cases hTarget
  · intro dtxId first firstIdxs second secondIdxs hFirst hSecond
    have hNone : ∀ completeTxs txIdxs, command = .commit dtxId completeTxs txIdxs →
        ∀ other otherIdxs, SmCommand.commit dtxId other otherIdxs ∉ commands := by
      rintro completeTxs txIdxs rfl
      exact h.uncommitted dtxId (hStep.source rfl rfl)
    simp only [List.mem_append, List.mem_singleton] at hFirst hSecond
    rcases hFirst with hFirst | hFirst
    · rcases hSecond with hSecond | hSecond
      · exact h.commitUnique dtxId first firstIdxs second secondIdxs hFirst hSecond
      · exact (hNone second secondIdxs hSecond.symm first firstIdxs hFirst).elim
    · rcases hSecond with hSecond | hSecond
      · exact (hNone first firstIdxs hFirst.symm second secondIdxs hSecond).elim
      · rw [← hFirst] at hSecond
        cases hSecond
        exact ⟨rfl, rfl⟩

theorem replay_ordered (h : replay commands = some state) (hOnce : (preparedIds commands).Nodup) :
    Ordered commands state := by
  refine run_induction (motive := fun commands state => (preparedIds commands).Nodup →
    Ordered commands state) ?_ ?_ h hOnce
  · intro _
    constructor <;> simp [empty, Holds]
  · intro before state command next hBefore ih hStep hNodup
    rw [preparedIds_concat, List.nodup_append] at hNodup
    refine (ih hNodup.1).step (replay_traced hBefore) (step_processed hStep) ?_
    rintro dtxId txs rfl hPrepared
    exact hNodup.2.2 dtxId (mem_preparedIds.mpr hPrepared) dtxId (by simp [preparedIds]) rfl

/-- No dtx stands in two tables, as the command that took it to the later one is in the log.
-/
theorem Ordered.exclusive (h : Ordered commands state) (hTraced : Traced commands state) :
    state.Exclusive := by
  have hPrepare : ∀ dtxId, state.Holds .prepare dtxId →
      ¬state.Holds .commit dtxId ∧ ¬state.Holds .discard dtxId := by
    intro dtxId hHolds
    constructor
    · intro hCommit
      obtain ⟨completeTxs, txIdxs, hIn⟩ := hTraced.holds_commit hCommit
      exact h.uncommitted dtxId hHolds completeTxs txIdxs hIn
    · intro hDiscard
      obtain ⟨completeTxs, txIdxs, hIn⟩ :=
        hTraced.discardCause dtxId (hTraced.discarded dtxId hDiscard)
      exact h.uncommitted dtxId hHolds completeTxs txIdxs hIn
  have hCommit : ∀ dtxId, state.Holds .commit dtxId → ¬state.Holds .discard dtxId := by
    intro dtxId hHolds hDiscard
    exact h.undiscarded dtxId hHolds (hTraced.discarded dtxId hDiscard)
  intro dtxId first second hFirst hSecond
  cases first with
  | prepare =>
      cases second with
      | prepare => rfl
      | commit => exact ((hPrepare dtxId hFirst).1 hSecond).elim
      | discard => exact ((hPrepare dtxId hFirst).2 hSecond).elim
  | commit =>
      cases second with
      | prepare => exact ((hPrepare dtxId hSecond).1 hFirst).elim
      | commit => rfl
      | discard => exact (hCommit dtxId hFirst hSecond).elim
  | discard =>
      cases second with
      | prepare => exact ((hPrepare dtxId hSecond).2 hFirst).elim
      | commit => exact (hCommit dtxId hSecond hFirst).elim
      | discard => rfl

end Replay

end OpenCbdc.CoordinatorState

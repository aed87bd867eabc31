import OpenCbdc.LockingShard.Effects

/-! When a request leaves the UHS and the lock set of a shard as they are. A
shard remembers a dtx only while it is prepared or applied, so the answer
depends on these two tables and on what the request would lock or settle. -/
namespace OpenCbdc.LockingShard

/-- The shard survives the request, and neither set changes. -/
def Harmless (crypto : Crypto) (shard : LockingShard) (request : Request) : Prop :=
  ∃ next reply, shard.processRequest crypto request = .ok (next, reply) ∧
    next.uhs = shard.uhs ∧ next.locked = shard.locked

/-- What the state before a request must be like for it to be harmless. -/
def AbsorbsLate (crypto : Crypto) (shard : LockingShard) (request : Request) : Prop :=
  match request.params, shard.preparedDtxs.lookup request.dtxId with
  | .lock _, some _ => True
  | .lock txs, none => ∀ tx ∈ txs, shard.Lockable crypto tx → shard.relevantInputs tx = ∅
  | .apply _, none => request.dtxId ∈ shard.appliedDtxs
  | .apply completeTxs, some dtx => completeTxs.length = dtx.txs.length ∧
      ∀ entry ∈ dtx.txs.zip completeTxs, Disjoint shard.locked (shard.relevantInputs entry.1) ∧
        (entry.2 = true → shard.relevantOutputs entry.1 ⊆ shard.uhs)
  | .discard, _ => True

def Locks (dtxId : Hash) (request : Request) : Prop :=
  ∃ txs, request = ⟨dtxId, .lock txs⟩

def Applies (dtxId : Hash) (request : Request) : Prop :=
  ∃ completeTxs, request = ⟨dtxId, .apply completeTxs⟩

/-- What a shard remembers of a dtx after a request: it is prepared from a lock
request to the next apply request, and applied from then to the next discard. -/
theorem remembered_of_processRequest {crypto : Crypto} {shard next : LockingShard}
    {request : Request} {reply : Reply} (hRunning : shard.running = true)
    (h : shard.processRequest crypto request = .ok (next, reply)) (dtxId : Hash) :
    (dtxId ∈ next.preparedDtxs ↔
      ¬Applies dtxId request ∧ (Locks dtxId request ∨ dtxId ∈ shard.preparedDtxs)) ∧
      (dtxId ∈ next.appliedDtxs ↔
        ¬request = ⟨dtxId, .discard⟩ ∧ (Applies dtxId request ∨ dtxId ∈ shard.appliedDtxs)) := by
  cases processRequest_effect hRunning h with
  | @relock other txs dtx prepared =>
      have hMem : other ∈ shard.preparedDtxs := Finmap.mem_iff.mpr ⟨dtx, prepared⟩
      grind [Locks, Applies]
  | @lock other txs unprepared =>
      have hMem : dtxId ∈ (shard.afterLock crypto txs other).preparedDtxs ↔
          dtxId = other ∨ dtxId ∈ shard.preparedDtxs := Table.mem_emplace _ _ _ _
      have hSame : (shard.afterLock crypto txs other).appliedDtxs = shard.appliedDtxs :=
        lockTxs_appliedDtxs crypto shard txs
      grind [Locks, Applies]
  | @reapply other completeTxs unprepared applied =>
      have hMem : other ∉ shard.preparedDtxs := Finmap.lookup_eq_none.mp unprepared
      grind [Locks, Applies]
  | @apply other completeTxs dtx prepared sameLength =>
      have hMem : dtxId ∈ (shard.afterApply dtx completeTxs other).preparedDtxs ↔
          dtxId ≠ other ∧ dtxId ∈ shard.preparedDtxs := Finmap.mem_erase
      have hApplied : dtxId ∈ (shard.afterApply dtx completeTxs other).appliedDtxs ↔
          dtxId = other ∨ dtxId ∈ shard.appliedDtxs := Finset.mem_insert
      grind [Locks, Applies]
  | @discard other =>
      have hApplied : dtxId ∈ (shard.afterDiscard other).appliedDtxs ↔
          dtxId ≠ other ∧ dtxId ∈ shard.appliedDtxs := Finset.mem_erase
      have hSame : (shard.afterDiscard other).preparedDtxs = shard.preparedDtxs := rfl
      grind [Locks, Applies]

section Lock

variable (crypto : Crypto) (shard : LockingShard) (txs : List CompactTx)

/-- Granting only empty sets of locks changes nothing on the way, so the loop
tests every transaction against the state before the call. -/
theorem lockEntries_empty_iff :
    (∀ entry ∈ lockEntries crypto shard txs, entry.2 = true →
      shard.relevantInputs entry.1 = ∅) ↔
    ∀ tx ∈ txs, shard.Lockable crypto tx → shard.relevantInputs tx = ∅ := by
  induction txs with
  | nil => simp [lockEntries]
  | cons tx rest ih =>
      rw [lockEntries_cons, List.forall_mem_cons, List.forall_mem_cons,
        checkAndLockTx_result crypto shard tx]
      apply and_congr_right
      intro hTx
      have hSame : (shard.checkAndLockTx crypto tx).1 = shard := by
        rw [checkAndLockTx_state]
        split
        case isTrue hGranted =>
            have hEmpty := hTx ((checkAndLockTx_result crypto shard tx).mp hGranted)
            simp [hEmpty]
        case isFalse hRefused => rfl
      rw [hSame]
      exact ih

/-- Locking a batch changes nothing exactly if no transaction of it that can be locked has
an input in the shard's range. -/
theorem lockTxs_unchanged_iff :
    ((lockTxs crypto shard txs).1.uhs = shard.uhs ∧
      (lockTxs crypto shard txs).1.locked = shard.locked) ↔
    ∀ tx ∈ txs, shard.Lockable crypto tx → shard.relevantInputs tx = ∅ := by
  rw [← lockEntries_empty_iff]
  constructor
  · rintro ⟨hUhs, _⟩ entry hEntry hGranted
    apply Finset.eq_empty_of_forall_notMem
    intro uhsId hListed
    have hBefore := lockEntries_granted crypto shard txs hEntry hGranted hListed
    rw [← hUhs, mem_lockTxs_uhs] at hBefore
    exact hBefore.2 entry hEntry hGranted hListed
  · intro hEmpty
    constructor
    · ext uhsId
      rw [mem_lockTxs_uhs]
      refine ⟨And.left, fun hIn => ⟨hIn, fun entry hEntry hGranted => ?_⟩⟩
      simp [hEmpty entry hEntry hGranted]
    · ext uhsId
      rw [mem_lockTxs_locked]
      refine ⟨?_, Or.inl⟩
      rintro (hOld | ⟨entry, hEntry, hGranted, hListed⟩)
      · exact hOld
      · simp [hEmpty entry hEntry hGranted] at hListed

end Lock

/-- Applying a decision changes nothing exactly if no input of it is locked, and every
output of a completed transaction is there already. -/
theorem applyTxs_unchanged_iff (shard : LockingShard) (entries : List (CompactTx × Bool)) :
    ((shard.applyTxs entries).uhs = shard.uhs ∧ (shard.applyTxs entries).locked = shard.locked) ↔
    ∀ entry ∈ entries, Disjoint shard.locked (shard.relevantInputs entry.1) ∧
      (entry.2 = true → shard.relevantOutputs entry.1 ⊆ shard.uhs) := by
  constructor
  · rintro ⟨hUhs, hLocked⟩ entry hEntry
    constructor
    · rw [Finset.disjoint_left]
      intro uhsId hIn
      rw [← hLocked, mem_applyTxs_locked] at hIn
      exact hIn.2 entry hEntry
    · intro hFlag uhsId hOutput
      rw [← hUhs, mem_applyTxs_uhs]
      exact Or.inr (Or.inl ⟨entry, hEntry, hFlag, hOutput⟩)
  · intro h
    constructor
    · ext uhsId
      rw [mem_applyTxs_uhs]
      refine ⟨?_, Or.inl⟩
      rintro (hOld | ⟨entry, hEntry, hFlag, hOutput⟩ | ⟨hLocked, entry, hFirst, _⟩)
      · exact hOld
      · exact (h entry hEntry).2 hFlag hOutput
      · have hListed : uhsId ∈ shard.relevantInputs entry.1 := by
          simpa using List.find?_some hFirst
        have hEntry := List.mem_of_find?_eq_some hFirst
        exact (Finset.disjoint_left.mp (h entry hEntry).1 hLocked hListed).elim
    · ext uhsId
      rw [mem_applyTxs_locked]
      exact ⟨And.left, fun hIn =>
        ⟨hIn, fun entry hEntry => Finset.disjoint_left.mp (h entry hEntry).1 hIn⟩⟩

/-- The condition is exact in every state of a running shard. -/
theorem harmless_iff_absorbsLate {crypto : Crypto} {shard : LockingShard} {request : Request}
    (hRunning : shard.running = true) :
    shard.Harmless crypto request ↔ shard.AbsorbsLate crypto request := by
  constructor
  · rintro ⟨next, reply, hProcess, hUhs, hLocked⟩
    cases processRequest_effect hRunning hProcess with
    | relock prepared => simp [AbsorbsLate, prepared]
    | lock unprepared =>
        simp only [AbsorbsLate, unprepared]
        exact (lockTxs_unchanged_iff crypto shard _).mp ⟨hUhs, hLocked⟩
    | reapply unprepared applied => simpa [AbsorbsLate, unprepared] using applied
    | apply prepared sameLength =>
        simp only [AbsorbsLate, prepared]
        exact ⟨sameLength, (applyTxs_unchanged_iff shard _).mp ⟨hUhs, hLocked⟩⟩
    | discard => simp [AbsorbsLate]
  · obtain ⟨dtxId, params⟩ := request
    intro h
    cases params with
    | lock txs =>
        cases hDtx : shard.preparedDtxs.lookup dtxId with
        | none =>
            simp only [AbsorbsLate, hDtx] at h
            exact ⟨_, _, (Effect.lock hDtx).processRequest_eq hRunning,
              (lockTxs_unchanged_iff crypto shard txs).mpr h⟩
        | some dtx => exact ⟨_, _, (Effect.relock hDtx).processRequest_eq hRunning, rfl, rfl⟩
    | apply completeTxs =>
        cases hDtx : shard.preparedDtxs.lookup dtxId with
        | none =>
            simp only [AbsorbsLate, hDtx] at h
            exact ⟨_, _, (Effect.reapply hDtx h).processRequest_eq hRunning, rfl, rfl⟩
        | some dtx =>
            simp only [AbsorbsLate, hDtx] at h
            exact ⟨_, _, (Effect.apply hDtx h.1).processRequest_eq hRunning,
              (applyTxs_unchanged_iff shard _).mpr h.2⟩
    | discard => exact ⟨_, _, Effect.discard.processRequest_eq hRunning, rfl, rfl⟩

end OpenCbdc.LockingShard

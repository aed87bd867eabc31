import OpenCbdc.LockingShard.Shard

/-! What the loops of the locking shard do to its sets, stated by membership.
Locking is described by the results it returns; applying is described by the
first transaction of the batch that lists an ID, because that one alone finds
the lock still in place. -/
namespace OpenCbdc.LockingShard

section Loops

/-- The loop over the inputs takes those of the shard's range out of the unspent IDs and
adds them to the locked ones. -/
theorem lockInputs_eq (inputs : List Hash) (shard : LockingShard) :
    inputs.foldl lockInput shard =
      { shard with
        uhs := shard.uhs \ inRange shard.outputRange inputs
        locked := shard.locked ∪ inRange shard.outputRange inputs } := by
  induction inputs generalizing shard with
  | nil => simp [inRange]
  | cons uhsId rest ih =>
      rw [List.foldl_cons, ih]
      by_cases h : hashInShardRange shard.outputRange uhsId = true
      · simp only [lockInput, h, ↓reduceIte, inRange_cons_of_mem rest h]
        congr 1
        · rw [Finset.erase_eq, sdiff_sdiff, Finset.sup_eq_union, ← Finset.insert_eq]
        · rw [Finset.insert_union, Finset.union_insert]
      · simp only [lockInput, h, Bool.false_eq_true, ↓reduceIte, inRange_cons_of_notMem rest h]

theorem applyOutputsLoop_eq (complete : Bool) (outputs : List Hash) (shard : LockingShard) :
    outputs.foldl (applyOutput complete) shard =
      { shard with
        uhs := if complete then shard.uhs ∪ inRange shard.outputRange outputs else shard.uhs } := by
  induction outputs generalizing shard with
  | nil => simp [inRange]
  | cons uhsId rest ih =>
      rw [List.foldl_cons, ih]
      cases complete with
      | false => simp [applyOutput]
      | true =>
          by_cases h : hashInShardRange shard.outputRange uhsId = true
          · simp [applyOutput, h, inRange_cons_of_mem rest h]
          · simp [applyOutput, h, inRange_cons_of_notMem rest h]

/-- The loop over the inputs of a decided transaction unlocks those of the shard's range. If
it is not completed, those that were locked are unspent again. -/
theorem applyInputsLoop_eq (complete : Bool) (inputs : List Hash) (shard : LockingShard) :
    inputs.foldl (applyInput complete) shard =
      { shard with
        locked := shard.locked \ inRange shard.outputRange inputs
        uhs := if complete then shard.uhs
          else shard.uhs ∪ (shard.locked ∩ inRange shard.outputRange inputs) } := by
  induction inputs generalizing shard with
  | nil => simp [inRange]
  | cons uhsId rest ih =>
      rw [List.foldl_cons, ih]
      by_cases h : hashInShardRange shard.outputRange uhsId = true
      · have hLocked : shard.locked.erase uhsId \ inRange shard.outputRange rest =
            shard.locked \ inRange shard.outputRange (uhsId :: rest) := by
          rw [inRange_cons_of_mem rest h, Finset.erase_eq, sdiff_sdiff, Finset.sup_eq_union,
            ← Finset.insert_eq]
        cases complete with
        | true => simp [applyInput, h, hLocked]
        | false =>
            have hUhs : (if uhsId ∈ shard.locked then insert uhsId shard.uhs else shard.uhs) ∪
                shard.locked.erase uhsId ∩ inRange shard.outputRange rest =
                shard.uhs ∪ shard.locked ∩ inRange shard.outputRange (uhsId :: rest) := by
              rw [inRange_cons_of_mem rest h]
              ext other
              by_cases hNe : other = uhsId
              · subst hNe
                by_cases hIn : other ∈ shard.locked <;> simp [hIn]
              · by_cases hIn : uhsId ∈ shard.locked <;> simp [hIn, hNe]
            simp only [applyInput, h, ↓reduceIte, hLocked, Bool.not_false, Bool.true_and,
              decide_eq_true_eq, Bool.false_eq_true, hUhs]
      · simp [applyInput, h, inRange_cons_of_notMem rest h]

end Loops

section Lock

/-- The condition under which `check_and_lock_tx` takes the locks of a
transaction. -/
def Lockable (crypto : Crypto) (shard : LockingShard) (tx : CompactTx) : Prop :=
  checkAttestations crypto tx shard.opts = true ∧ shard.relevantInputs tx ⊆ shard.uhs

/-- The answer for a transaction is true exactly if its attestations are enough and all its
inputs of the shard's range are there to be locked. -/
theorem checkAndLockTx_result (crypto : Crypto) (shard : LockingShard) (tx : CompactTx) :
    (shard.checkAndLockTx crypto tx).2 = true ↔ shard.Lockable crypto tx := by
  have hAll : tx.inputs.all (fun uhsId =>
      !(hashInShardRange shard.outputRange uhsId && decide (uhsId ∉ shard.uhs))) = true ↔
      shard.relevantInputs tx ⊆ shard.uhs := by
    simp only [List.all_eq_true, Bool.not_eq_true', Bool.and_eq_false_iff, decide_eq_false_iff_not,
      not_not, Finset.subset_iff, relevantInputs, mem_inRange]
    constructor
    · rintro h uhsId ⟨hIn, hRange⟩
      rcases h uhsId hIn with hOut | hMem
      · simp [hRange] at hOut
      · exact hMem
    · intro h uhsId hIn
      cases hRange : hashInShardRange shard.outputRange uhsId with
      | false => exact Or.inl rfl
      | true => exact Or.inr (h ⟨hIn, hRange⟩)
  rw [Lockable, ← hAll, ← Bool.and_eq_true]
  unfold checkAndLockTx
  split
  case isTrue h => exact iff_of_true rfl h
  case isFalse h => exact iff_of_false Bool.false_ne_true h

theorem checkAndLockTx_state (crypto : Crypto) (shard : LockingShard) (tx : CompactTx) :
    (shard.checkAndLockTx crypto tx).1 =
      if (shard.checkAndLockTx crypto tx).2 then
        { shard with
          uhs := shard.uhs \ shard.relevantInputs tx
          locked := shard.locked ∪ shard.relevantInputs tx }
      else shard := by
  unfold checkAndLockTx
  split
  · exact lockInputs_eq tx.inputs shard
  · rfl

variable (crypto : Crypto) (shard : LockingShard) (txs : List CompactTx)

/-- The locking loop touches nothing but the two sets. -/
theorem lockTxs_frame :
    (lockTxs crypto shard txs).1 =
      { shard with
        uhs := (lockTxs crypto shard txs).1.uhs
        locked := (lockTxs crypto shard txs).1.locked } := by
  induction txs generalizing shard with
  | nil => rfl
  | cons tx rest ih =>
      simp only [lockTxs]
      rw [ih, checkAndLockTx_state]
      split <;> rfl

@[simp] theorem lockTxs_outputRange :
    (lockTxs crypto shard txs).1.outputRange = shard.outputRange := by rw [lockTxs_frame]

@[simp] theorem lockTxs_running :
    (lockTxs crypto shard txs).1.running = shard.running := by rw [lockTxs_frame]

@[simp] theorem lockTxs_preparedDtxs :
    (lockTxs crypto shard txs).1.preparedDtxs = shard.preparedDtxs := by rw [lockTxs_frame]

@[simp] theorem lockTxs_appliedDtxs :
    (lockTxs crypto shard txs).1.appliedDtxs = shard.appliedDtxs := by rw [lockTxs_frame]

@[simp] theorem lockTxs_completedTxs :
    (lockTxs crypto shard txs).1.completedTxs = shard.completedTxs := by rw [lockTxs_frame]

@[simp] theorem lockTxs_opts :
    (lockTxs crypto shard txs).1.opts = shard.opts := by rw [lockTxs_frame]

def lockEntries : List (CompactTx × Bool) := txs.zip (lockTxs crypto shard txs).2

theorem lockEntries_cons (tx : CompactTx) :
    lockEntries crypto shard (tx :: txs) =
      (tx, (shard.checkAndLockTx crypto tx).2) ::
        lockEntries crypto (shard.checkAndLockTx crypto tx).1 txs := rfl

theorem checkAndLockTx_relevantInputs (tx other : CompactTx) :
    (shard.checkAndLockTx crypto tx).1.relevantInputs other = shard.relevantInputs other := by
  rw [checkAndLockTx_state]
  split <;> rfl

/-- The loop takes exactly the relevant inputs of the transactions it grants
out of the UHS. -/
theorem mem_lockTxs_uhs (uhsId : Hash) :
    uhsId ∈ (lockTxs crypto shard txs).1.uhs ↔
      uhsId ∈ shard.uhs ∧ ∀ entry ∈ lockEntries crypto shard txs, entry.2 = true →
        uhsId ∉ shard.relevantInputs entry.1 := by
  induction txs generalizing shard with
  | nil => simp [lockTxs, lockEntries]
  | cons tx rest ih =>
      have hHere : uhsId ∈ (shard.checkAndLockTx crypto tx).1.uhs ↔
          uhsId ∈ shard.uhs ∧ ((shard.checkAndLockTx crypto tx).2 = true →
            uhsId ∉ shard.relevantInputs tx) := by
        rw [checkAndLockTx_state]
        split
        case isTrue h => simp [h]
        case isFalse h => simp [h]
      simp only [lockTxs, ih, hHere, lockEntries_cons, List.forall_mem_cons,
        checkAndLockTx_relevantInputs, and_assoc]

/-- The loop adds exactly the relevant inputs of the transactions it grants
to the lock set. -/
theorem mem_lockTxs_locked (uhsId : Hash) :
    uhsId ∈ (lockTxs crypto shard txs).1.locked ↔
      uhsId ∈ shard.locked ∨ ∃ entry ∈ lockEntries crypto shard txs, entry.2 = true ∧
        uhsId ∈ shard.relevantInputs entry.1 := by
  induction txs generalizing shard with
  | nil => simp [lockTxs, lockEntries]
  | cons tx rest ih =>
      have hHere : uhsId ∈ (shard.checkAndLockTx crypto tx).1.locked ↔
          uhsId ∈ shard.locked ∨ ((shard.checkAndLockTx crypto tx).2 = true ∧
            uhsId ∈ shard.relevantInputs tx) := by
        rw [checkAndLockTx_state]
        split
        case isTrue h => simp [h]
        case isFalse h => simp [h]
      simp only [lockTxs, ih, hHere, lockEntries_cons, List.exists_mem_cons_iff,
        checkAndLockTx_relevantInputs, or_assoc]

/-- A granted transaction found its relevant inputs in the UHS of the state
before the call. -/
theorem lockEntries_granted {entry : CompactTx × Bool}
    (hEntry : entry ∈ lockEntries crypto shard txs) (hGranted : entry.2 = true) :
    shard.relevantInputs entry.1 ⊆ shard.uhs := by
  induction txs generalizing shard with
  | nil => simp [lockEntries] at hEntry
  | cons tx rest ih =>
      rw [lockEntries_cons, List.mem_cons] at hEntry
      rcases hEntry with rfl | hEntry
      · exact ((checkAndLockTx_result crypto shard tx).mp hGranted).2
      · have hLater := ih (shard.checkAndLockTx crypto tx).1 hEntry
        rw [checkAndLockTx_relevantInputs] at hLater
        refine hLater.trans ?_
        rw [checkAndLockTx_state]
        split
        · exact Finset.sdiff_subset
        · exact Finset.Subset.refl _

/-- No ID is locked for two transactions of one batch. -/
theorem lockEntries_pairwise :
    (lockEntries crypto shard txs).Pairwise fun first second =>
      first.2 = true → second.2 = true →
        Disjoint (shard.relevantInputs first.1) (shard.relevantInputs second.1) := by
  induction txs generalizing shard with
  | nil => exact List.Pairwise.nil
  | cons tx rest ih =>
      rw [lockEntries_cons, List.pairwise_cons]
      constructor
      · intro second hSecond hFirst hGranted
        have hLater := lockEntries_granted crypto (shard.checkAndLockTx crypto tx).1 rest
          hSecond hGranted
        rw [checkAndLockTx_relevantInputs, checkAndLockTx_state, if_pos hFirst] at hLater
        exact (Finset.disjoint_of_subset_left hLater Finset.sdiff_disjoint).symm
      · simpa only [checkAndLockTx_relevantInputs] using ih (shard.checkAndLockTx crypto tx).1

end Lock

section Apply

/-- Applying a transaction moves its IDs between the two sets. Besides them only the cache
of completed IDs changes. -/
theorem applyTx_eq (shard : LockingShard) (entry : CompactTx × Bool) :
    shard.applyTx entry =
      { shard with
        completedTxs := if hashInShardRange shard.outputRange entry.1.id then
          (shard.completedTxs.add entry.1.id).1 else shard.completedTxs
        locked := shard.locked \ shard.relevantInputs entry.1
        uhs := if entry.2 then shard.uhs ∪ shard.relevantOutputs entry.1
          else shard.uhs ∪ (shard.locked ∩ shard.relevantInputs entry.1) } := by
  unfold applyTx
  dsimp only
  rw [applyOutputsLoop_eq, applyInputsLoop_eq]
  cases entry.2 <;> split <;> rfl

theorem applyTxs_cons (shard : LockingShard) (entry : CompactTx × Bool)
    (rest : List (CompactTx × Bool)) :
    shard.applyTxs (entry :: rest) = (shard.applyTx entry).applyTxs rest := rfl

variable (shard : LockingShard) (entries : List (CompactTx × Bool))

/-- The applying loop touches the two sets and the cache only. -/
theorem applyTxs_frame :
    shard.applyTxs entries =
      { shard with
        uhs := (shard.applyTxs entries).uhs
        locked := (shard.applyTxs entries).locked
        completedTxs := (shard.applyTxs entries).completedTxs } := by
  induction entries generalizing shard with
  | nil => rfl
  | cons entry rest ih =>
      rw [applyTxs_cons, ih, applyTx_eq]

@[simp] theorem applyTxs_outputRange :
    (shard.applyTxs entries).outputRange = shard.outputRange := by rw [applyTxs_frame]

@[simp] theorem applyTxs_running :
    (shard.applyTxs entries).running = shard.running := by rw [applyTxs_frame]

@[simp] theorem applyTxs_preparedDtxs :
    (shard.applyTxs entries).preparedDtxs = shard.preparedDtxs := by rw [applyTxs_frame]

@[simp] theorem applyTxs_appliedDtxs :
    (shard.applyTxs entries).appliedDtxs = shard.appliedDtxs := by rw [applyTxs_frame]

@[simp] theorem applyTxs_opts :
    (shard.applyTxs entries).opts = shard.opts := by rw [applyTxs_frame]

theorem applyTx_relevantInputs (entry : CompactTx × Bool) (tx : CompactTx) :
    (shard.applyTx entry).relevantInputs tx = shard.relevantInputs tx := by
  rw [applyTx_eq]
  rfl

theorem applyTx_relevantOutputs (entry : CompactTx × Bool) (tx : CompactTx) :
    (shard.applyTx entry).relevantOutputs tx = shard.relevantOutputs tx := by
  rw [applyTx_eq]
  rfl

/-- Applying removes the lock of every ID that the batch lists, whatever its
flags. -/
theorem mem_applyTxs_locked (uhsId : Hash) :
    uhsId ∈ (shard.applyTxs entries).locked ↔
      uhsId ∈ shard.locked ∧ ∀ entry ∈ entries, uhsId ∉ shard.relevantInputs entry.1 := by
  induction entries generalizing shard with
  | nil => simp [applyTxs]
  | cons entry rest ih =>
      rw [applyTxs_cons, ih]
      simp only [applyTx_relevantInputs, List.forall_mem_cons]
      rw [applyTx_eq]
      simp only [Finset.mem_sdiff, and_assoc]

/-- The first entry of the batch that lists the ID as a relevant input. -/
def firstLister (uhsId : Hash) : Option (CompactTx × Bool) :=
  entries.find? fun entry => decide (uhsId ∈ shard.relevantInputs entry.1)

/-- What an apply adds to the UHS: the outputs it completes, and every locked
ID whose first lister in the batch is aborted. -/
theorem mem_applyTxs_uhs (uhsId : Hash) :
    uhsId ∈ (shard.applyTxs entries).uhs ↔
      uhsId ∈ shard.uhs ∨
      (∃ entry ∈ entries, entry.2 = true ∧ uhsId ∈ shard.relevantOutputs entry.1) ∨
      (uhsId ∈ shard.locked ∧
        ∃ entry, shard.firstLister entries uhsId = some entry ∧ entry.2 = false) := by
  induction entries generalizing shard with
  | nil => simp [applyTxs, firstLister]
  | cons entry rest ih =>
      have hFirst : (shard.applyTx entry).firstLister rest uhsId =
          shard.firstLister rest uhsId := by
        simp only [firstLister, applyTx_relevantInputs]
      rw [applyTxs_cons, ih, hFirst]
      simp only [applyTx_relevantOutputs, List.exists_mem_cons_iff]
      by_cases hListed : uhsId ∈ shard.relevantInputs entry.1
      · have hNow : shard.firstLister (entry :: rest) uhsId = some entry := by
          simp [firstLister, hListed]
        rw [hNow, applyTx_eq]
        cases hFlag : entry.2 with
        | true => simp [hFlag, hListed, or_assoc]
        | false => simp [hFlag, hListed, or_assoc, or_comm]
      · have hLater : shard.firstLister (entry :: rest) uhsId =
            shard.firstLister rest uhsId := by
          simp [firstLister, hListed]
        rw [hLater, applyTx_eq]
        cases hFlag : entry.2 with
        | true => simp [hListed, or_assoc]
        | false => simp [hListed]

end Apply

section Requests

def afterLock (crypto : Crypto) (shard : LockingShard) (txs : List CompactTx) (dtxId : Hash) :
    LockingShard :=
  { (lockTxs crypto shard txs).1 with
    preparedDtxs := Table.emplace shard.preparedDtxs dtxId
      { txs := txs, results := (lockTxs crypto shard txs).2 } }

def afterApply (shard : LockingShard) (dtx : PreparedDtx) (completeTxs : List Bool)
    (dtxId : Hash) : LockingShard :=
  { shard.applyTxs (dtx.txs.zip completeTxs) with
    preparedDtxs := shard.preparedDtxs.erase dtxId
    appliedDtxs := insert dtxId shard.appliedDtxs }

def afterDiscard (shard : LockingShard) (dtxId : Hash) : LockingShard :=
  { shard with appliedDtxs := shard.appliedDtxs.erase dtxId }

/-- Everything a request can do to a running shard without ending it. -/
inductive Effect (crypto : Crypto) (shard : LockingShard) :
    Request → LockingShard → Reply → Prop where
  | relock {dtxId : Hash} {txs : List CompactTx} {dtx : PreparedDtx}
      (prepared : shard.preparedDtxs.lookup dtxId = some dtx) :
      Effect crypto shard ⟨dtxId, .lock txs⟩ shard (.lock (some dtx.results))
  | lock {dtxId : Hash} {txs : List CompactTx}
      (unprepared : shard.preparedDtxs.lookup dtxId = none) :
      Effect crypto shard ⟨dtxId, .lock txs⟩ (shard.afterLock crypto txs dtxId)
        (.lock (some (lockTxs crypto shard txs).2))
  | reapply {dtxId : Hash} {completeTxs : List Bool}
      (unprepared : shard.preparedDtxs.lookup dtxId = none)
      (applied : dtxId ∈ shard.appliedDtxs) :
      Effect crypto shard ⟨dtxId, .apply completeTxs⟩ shard (.apply true)
  | apply {dtxId : Hash} {completeTxs : List Bool} {dtx : PreparedDtx}
      (prepared : shard.preparedDtxs.lookup dtxId = some dtx)
      (sameLength : completeTxs.length = dtx.txs.length) :
      Effect crypto shard ⟨dtxId, .apply completeTxs⟩ (shard.afterApply dtx completeTxs dtxId)
        (.apply true)
  | discard {dtxId : Hash} :
      Effect crypto shard ⟨dtxId, .discard⟩ (shard.afterDiscard dtxId) (.discard true)

variable {crypto : Crypto} {shard next : LockingShard} {request : Request} {reply : Reply}

/-- A running shard that survives a request has made one of these moves. -/
theorem processRequest_effect (hRunning : shard.running = true)
    (h : shard.processRequest crypto request = .ok (next, reply)) :
    Effect crypto shard request next reply := by
  obtain ⟨dtxId, params⟩ := request
  cases params with
  | lock txs =>
      cases hDtx : shard.preparedDtxs.lookup dtxId with
      | none =>
          simp only [processRequest, lockOutputs, hRunning, hDtx, ↓reduceIte,
            lockTxs_preparedDtxs, Except.ok.injEq, Prod.mk.injEq] at h
          obtain ⟨rfl, rfl⟩ := h
          exact .lock hDtx
      | some dtx =>
          simp only [processRequest, lockOutputs, hRunning, hDtx, ↓reduceIte,
            Except.ok.injEq, Prod.mk.injEq] at h
          obtain ⟨rfl, rfl⟩ := h
          exact .relock hDtx
  | apply completeTxs =>
      cases hDtx : shard.preparedDtxs.lookup dtxId with
      | none =>
          by_cases hApplied : dtxId ∈ shard.appliedDtxs
          · simp only [processRequest, applyOutputs, hRunning, hDtx, hApplied, ↓reduceIte,
              Except.ok.injEq, Prod.mk.injEq] at h
            obtain ⟨rfl, rfl⟩ := h
            exact .reapply hDtx hApplied
          · simp [processRequest, applyOutputs, hRunning, hDtx, hApplied] at h
      | some dtx =>
          by_cases hLength : completeTxs.length = dtx.txs.length
          · simp only [processRequest, applyOutputs, hRunning, hDtx, hLength, ↓reduceIte,
              applyTxs_preparedDtxs, applyTxs_appliedDtxs, Except.ok.injEq, Prod.mk.injEq] at h
            obtain ⟨rfl, rfl⟩ := h
            exact .apply hDtx hLength
          · simp [processRequest, applyOutputs, hRunning, hDtx, hLength] at h
  | discard =>
      simp only [processRequest, discardDtx, if_pos hRunning, Except.ok.injEq,
        Prod.mk.injEq] at h
      obtain ⟨rfl, rfl⟩ := h
      exact .discard

/-- Each of the moves is what the shard's code computes. -/
theorem Effect.processRequest_eq (hRunning : shard.running = true)
    (h : Effect crypto shard request next reply) :
    shard.processRequest crypto request = .ok (next, reply) := by
  cases h with
  | relock prepared => simp [processRequest, lockOutputs, hRunning, prepared]
  | lock unprepared => simp [processRequest, lockOutputs, hRunning, unprepared, afterLock]
  | reapply unprepared applied =>
      simp [processRequest, applyOutputs, hRunning, unprepared, applied]
  | apply prepared sameLength =>
      simp [processRequest, applyOutputs, hRunning, prepared, sameLength, afterApply]
  | discard => simp [processRequest, discardDtx, hRunning, afterDiscard]

theorem step_effect (hRunning : shard.running = true)
    (h : shard.step crypto request = some next) :
    ∃ reply, Effect crypto shard request next reply := by
  unfold step at h
  split at h
  · cases h
  case h_2 result hResult =>
      cases h
      exact ⟨result.2, processRequest_effect hRunning hResult⟩

theorem Effect.running (h : Effect crypto shard request next reply) :
    next.running = shard.running := by
  cases h <;> simp [afterLock, afterApply, afterDiscard]

theorem Effect.outputRange (h : Effect crypto shard request next reply) :
    next.outputRange = shard.outputRange := by
  cases h <;> simp [afterLock, afterApply, afterDiscard]

/-- A request says nothing about the other dtxs that are prepared. -/
theorem Effect.preparedDtxs_of_ne (h : Effect crypto shard request next reply) {dtxId : Hash}
    (hOther : dtxId ≠ request.dtxId) :
    next.preparedDtxs.lookup dtxId = shard.preparedDtxs.lookup dtxId := by
  cases h with
  | relock prepared => rfl
  | lock unprepared => exact Table.lookup_emplace_of_ne _ _ hOther
  | reapply unprepared applied => rfl
  | apply prepared sameLength => exact Finmap.lookup_erase_ne hOther
  | discard => rfl

/-- A request says nothing about the other dtxs that are applied. -/
theorem Effect.appliedDtxs_of_ne (h : Effect crypto shard request next reply) {dtxId : Hash}
    (hOther : dtxId ≠ request.dtxId) :
    dtxId ∈ next.appliedDtxs ↔ dtxId ∈ shard.appliedDtxs := by
  cases h with
  | relock prepared => rfl
  | lock unprepared => simp [afterLock]
  | reapply unprepared applied => rfl
  | apply prepared sameLength => simpa [afterApply] using fun h => (hOther h).elim
  | discard => simpa [afterDiscard] using fun _ => hOther

/-- A dtx becomes prepared by a lock request with its transactions only. -/
theorem Effect.prepared_of (h : Effect crypto shard request next reply) {dtxId : Hash}
    {dtx : PreparedDtx} (hDtx : next.preparedDtxs.lookup dtxId = some dtx) :
    shard.preparedDtxs.lookup dtxId = some dtx ∨ request = ⟨dtxId, .lock dtx.txs⟩ := by
  by_cases hOther : dtxId = request.dtxId
  · cases h with
    | relock prepared => exact Or.inl hDtx
    | @lock other txs unprepared =>
        obtain rfl : dtxId = other := hOther
        rw [afterLock, Table.lookup_emplace_self _ unprepared] at hDtx
        cases hDtx
        exact Or.inr rfl
    | reapply unprepared applied => exact Or.inl hDtx
    | @apply other completeTxs held prepared sameLength =>
        obtain rfl : dtxId = other := hOther
        rw [afterApply, Finmap.lookup_erase] at hDtx
        cases hDtx
    | discard => exact Or.inl hDtx
  · rw [h.preparedDtxs_of_ne hOther] at hDtx
    exact Or.inl hDtx

/-- A dtx becomes applied by an apply request while it is prepared only. -/
theorem Effect.applied_of (h : Effect crypto shard request next reply) {dtxId : Hash}
    (hApplied : dtxId ∈ next.appliedDtxs) :
    dtxId ∈ shard.appliedDtxs ∨ ∃ completeTxs dtx, request = ⟨dtxId, .apply completeTxs⟩ ∧
      shard.preparedDtxs.lookup dtxId = some dtx := by
  by_cases hOther : dtxId = request.dtxId
  · cases h with
    | relock prepared => exact Or.inl hApplied
    | lock unprepared => exact Or.inl (by simpa [afterLock] using hApplied)
    | reapply unprepared applied => exact Or.inl hApplied
    | @apply other completeTxs held prepared sameLength =>
        obtain rfl : dtxId = other := hOther
        exact Or.inr ⟨completeTxs, held, rfl, prepared⟩
    | discard => exact Or.inl (Finset.mem_of_mem_erase hApplied)
  · exact Or.inl ((h.appliedDtxs_of_ne hOther).mp hApplied)

end Requests

end OpenCbdc.LockingShard

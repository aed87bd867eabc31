import OpenCbdc.LockingShard.Commutation

/-! The whole effect of a batch on a shard whose lock and apply requests follow
one another. It is the effect of the completed transactions alone only if the
aborted ones free nothing that they have not locked themselves. -/
namespace OpenCbdc.LockingShard

def completedInputs (shard : LockingShard) (entries : List (CompactTx × Bool)) : Finset Hash :=
  inRange shard.outputRange ((entries.filter Prod.snd).flatMap fun entry => entry.1.inputs)

def completedOutputs (shard : LockingShard) (entries : List (CompactTx × Bool)) : Finset Hash :=
  inRange shard.outputRange ((entries.filter Prod.snd).flatMap fun entry => entry.1.uhsOutputs)

/-- No transaction of the batch lists an ID that was locked before, and no
input of a completed transaction is listed first by an aborted one. -/
structure FreesOwn (shard : LockingShard) (txs : List CompactTx) (flags : List Bool) : Prop where
  unlocked : ∀ tx ∈ txs, Disjoint (shard.relevantInputs tx) shard.locked
  spentFirst : ∀ uhsId ∈ shard.completedInputs (txs.zip flags), ∀ entry,
    shard.firstLister (txs.zip flags) uhsId = some entry → entry.2 = true

section Membership

variable {shard : LockingShard} {entries : List (CompactTx × Bool)} {uhsId : Hash}

theorem mem_completedInputs : uhsId ∈ shard.completedInputs entries ↔
    ∃ entry ∈ entries, entry.2 = true ∧ uhsId ∈ shard.relevantInputs entry.1 := by
  simp only [completedInputs, relevantInputs, mem_inRange, List.mem_flatMap, List.mem_filter]
  constructor
  · rintro ⟨⟨entry, ⟨hEntry, hFlag⟩, hInput⟩, hRange⟩
    exact ⟨entry, hEntry, hFlag, hInput, hRange⟩
  · rintro ⟨entry, hEntry, hFlag, hInput, hRange⟩
    exact ⟨⟨entry, ⟨hEntry, hFlag⟩, hInput⟩, hRange⟩

theorem mem_completedOutputs : uhsId ∈ shard.completedOutputs entries ↔
    ∃ entry ∈ entries, entry.2 = true ∧ uhsId ∈ shard.relevantOutputs entry.1 := by
  simp only [completedOutputs, relevantOutputs, mem_inRange, List.mem_flatMap, List.mem_filter]
  constructor
  · rintro ⟨⟨entry, ⟨hEntry, hFlag⟩, hOutput⟩, hRange⟩
    exact ⟨entry, hEntry, hFlag, hOutput, hRange⟩
  · rintro ⟨entry, hEntry, hFlag, hOutput, hRange⟩
    exact ⟨⟨entry, ⟨hEntry, hFlag⟩, hOutput⟩, hRange⟩

/-- The first lister is an entry of the batch that lists the ID. -/
theorem of_firstLister {entry : CompactTx × Bool}
    (h : shard.firstLister entries uhsId = some entry) :
    entry ∈ entries ∧ uhsId ∈ shard.relevantInputs entry.1 := by
  refine ⟨List.mem_of_find?_eq_some h, ?_⟩
  simpa using List.find?_some h

/-- An ID that some entry lists has a first lister. -/
theorem exists_firstLister {entry : CompactTx × Bool} (hEntry : entry ∈ entries)
    (h : uhsId ∈ shard.relevantInputs entry.1) :
    ∃ first, shard.firstLister entries uhsId = some first :=
  Option.isSome_iff_exists.mp (List.find?_isSome.mpr ⟨entry, hEntry, decide_eq_true h⟩)

end Membership

section Batch

variable {crypto : Crypto} {shard : LockingShard} {txs : List CompactTx} {flags : List Bool}
  {uhsId : Hash}

/-- The lock request has granted the ID to a transaction of the batch. -/
def Grants (crypto : Crypto) (shard : LockingShard) (txs : List CompactTx) (uhsId : Hash) : Prop :=
  ∃ entry ∈ lockEntries crypto shard txs, entry.2 = true ∧ uhsId ∈ shard.relevantInputs entry.1

theorem Grants.mem_uhs (h : shard.Grants crypto txs uhsId) : uhsId ∈ shard.uhs := by
  obtain ⟨entry, hEntry, hGranted, hListed⟩ := h
  exact lockEntries_granted crypto shard txs hEntry hGranted hListed

/-- An ID that was granted is listed in the batch, whatever its flags. -/
theorem Grants.exists_firstLister (h : shard.Grants crypto txs uhsId)
    (hLength : flags.length = txs.length) :
    ∃ first, shard.firstLister (txs.zip flags) uhsId = some first := by
  obtain ⟨entry, hEntry, _, hListed⟩ := h
  obtain ⟨place, hPlace, hGet⟩ := List.mem_iff_getElem.mp (List.of_mem_zip hEntry).1
  have hFlag : place < flags.length := hLength ▸ hPlace
  have hZip : (txs[place], flags[place]) ∈ txs.zip flags :=
    List.mem_iff_getElem.mpr ⟨place, by simp [hPlace, hFlag], by simp⟩
  exact LockingShard.exists_firstLister hZip (hGet ▸ hListed)

/-- A completed transaction was granted its inputs. -/
theorem grants_of_completed
    (hGranted : ∀ place : Nat, flags[place]? = some true →
      (lockTxs crypto shard txs).2[place]? = some true)
    (h : uhsId ∈ shard.completedInputs (txs.zip flags)) : shard.Grants crypto txs uhsId := by
  obtain ⟨entry, hEntry, hFlag, hListed⟩ := mem_completedInputs.mp h
  obtain ⟨place, hPlace⟩ := List.mem_iff_getElem?.mp hEntry
  obtain ⟨hTx, hFlagAt⟩ := List.getElem?_zip_eq_some.mp hPlace
  have hResult := hGranted place (hFlag ▸ hFlagAt)
  refine ⟨(entry.1, true), List.mem_iff_getElem?.mpr ⟨place, ?_⟩, rfl, hListed⟩
  exact List.getElem?_zip_eq_some.mpr ⟨hTx, hResult⟩

def afterBatch (crypto : Crypto) (shard : LockingShard) (txs : List CompactTx)
    (flags : List Bool) (dtxId : Hash) : LockingShard :=
  (shard.afterLock crypto txs dtxId).afterApply
    { txs := txs, results := (lockTxs crypto shard txs).2 } flags dtxId

theorem afterLock_relevantInputs (dtxId : Hash) (tx : CompactTx) :
    (shard.afterLock crypto txs dtxId).relevantInputs tx = shard.relevantInputs tx := by
  simp [afterLock, relevantInputs]

theorem afterLock_relevantOutputs (dtxId : Hash) (tx : CompactTx) :
    (shard.afterLock crypto txs dtxId).relevantOutputs tx = shard.relevantOutputs tx := by
  simp [afterLock, relevantOutputs]

theorem afterLock_firstLister (dtxId : Hash) (entries : List (CompactTx × Bool)) :
    (shard.afterLock crypto txs dtxId).firstLister entries uhsId =
      shard.firstLister entries uhsId := by
  simp only [firstLister, afterLock_relevantInputs]

/-- What is locked after both requests: the locks of before that no transaction
of the batch lists. -/
theorem mem_locked_afterBatch (dtxId : Hash) (hLength : flags.length = txs.length) :
    uhsId ∈ (shard.afterBatch crypto txs flags dtxId).locked ↔
      uhsId ∈ shard.locked ∧ ∀ tx ∈ txs, uhsId ∉ shard.relevantInputs tx := by
  have hFst : (txs.zip flags).map Prod.fst = txs := List.map_fst_zip (Nat.le_of_eq hLength.symm)
  have hListed : (∀ entry ∈ txs.zip flags, uhsId ∉ shard.relevantInputs entry.1) ↔
      ∀ tx ∈ txs, uhsId ∉ shard.relevantInputs tx := by
    rw [← List.forall_mem_map (f := Prod.fst) (P := fun tx => uhsId ∉ shard.relevantInputs tx),
      hFst]
  have hBatch := mem_applyTxs_locked (shard.afterLock crypto txs dtxId) (txs.zip flags) uhsId
  simp only [afterLock_relevantInputs, hListed] at hBatch
  refine hBatch.trans ?_
  have hLock := mem_lockTxs_locked crypto shard txs uhsId
  constructor
  · rintro ⟨hMem, hNone⟩
    rcases hLock.mp hMem with hBefore | ⟨entry, hEntry, _, hInput⟩
    · exact ⟨hBefore, hNone⟩
    · exact absurd hInput (hNone entry.1 (List.of_mem_zip hEntry).1)
  · rintro ⟨hBefore, hNone⟩
    exact ⟨hLock.mpr (Or.inl hBefore), hNone⟩

/-- What is unspent after both requests. -/
theorem mem_uhs_afterBatch (dtxId : Hash) :
    uhsId ∈ (shard.afterBatch crypto txs flags dtxId).uhs ↔
      (uhsId ∈ shard.uhs ∧ ¬shard.Grants crypto txs uhsId) ∨
      uhsId ∈ shard.completedOutputs (txs.zip flags) ∨
      ((uhsId ∈ shard.locked ∨ shard.Grants crypto txs uhsId) ∧
        ∃ entry, shard.firstLister (txs.zip flags) uhsId = some entry ∧ entry.2 = false) := by
  have hUhs : uhsId ∈ (shard.afterLock crypto txs dtxId).uhs ↔
      uhsId ∈ shard.uhs ∧ ¬shard.Grants crypto txs uhsId := by
    simp only [Grants, not_exists, not_and]
    exact mem_lockTxs_uhs crypto shard txs uhsId
  have hLocked : uhsId ∈ (shard.afterLock crypto txs dtxId).locked ↔
      uhsId ∈ shard.locked ∨ shard.Grants crypto txs uhsId :=
    mem_lockTxs_locked crypto shard txs uhsId
  have hBatch := mem_applyTxs_uhs (shard.afterLock crypto txs dtxId) (txs.zip flags) uhsId
  simp only [afterLock_relevantOutputs, afterLock_firstLister] at hBatch
  rw [hUhs, hLocked, ← mem_completedOutputs] at hBatch
  exact hBatch

/-- The locks are those of before exactly if the batch lists none of them. -/
theorem locked_afterBatch_iff (dtxId : Hash) (hLength : flags.length = txs.length) :
    (shard.afterBatch crypto txs flags dtxId).locked = shard.locked ↔
      ∀ tx ∈ txs, Disjoint (shard.relevantInputs tx) shard.locked := by
  constructor
  · intro hSame tx hTx
    rw [Finset.disjoint_right]
    intro uhsId hLocked
    rw [← hSame] at hLocked
    exact ((mem_locked_afterBatch dtxId hLength).mp hLocked).2 tx hTx
  · intro hUnlocked
    ext uhsId
    rw [mem_locked_afterBatch dtxId hLength]
    exact and_iff_left_of_imp fun hLocked tx hTx =>
      Finset.disjoint_right.mp (hUnlocked tx hTx) hLocked

/-- With no lock of before in the way, the completed transactions alone count
exactly if they list their inputs first. -/
theorem uhs_afterBatch_iff (dtxId : Hash) (hLength : flags.length = txs.length)
    (hGranted : ∀ place : Nat, flags[place]? = some true →
      (lockTxs crypto shard txs).2[place]? = some true)
    (hFresh : ∀ uhsId ∈ shard.completedOutputs (txs.zip flags), uhsId ∉ shard.uhs)
    (hUnlocked : ∀ tx ∈ txs, Disjoint (shard.relevantInputs tx) shard.locked) :
    (shard.afterBatch crypto txs flags dtxId).uhs =
        (shard.uhs \ shard.completedInputs (txs.zip flags)) ∪
          shard.completedOutputs (txs.zip flags) ↔
      ∀ uhsId ∈ shard.completedInputs (txs.zip flags), ∀ entry,
        shard.firstLister (txs.zip flags) uhsId = some entry → entry.2 = true := by
  constructor
  · intro hSame uhsId hSpent entry hFirst
    by_contra hAborted
    have hGrants := grants_of_completed hGranted hSpent
    have hBack : uhsId ∈ (shard.afterBatch crypto txs flags dtxId).uhs :=
      (mem_uhs_afterBatch dtxId).mpr
        (Or.inr (Or.inr ⟨Or.inr hGrants, entry, hFirst, Bool.eq_false_of_not_eq_true hAborted⟩))
    rw [hSame, Finset.mem_union, Finset.mem_sdiff] at hBack
    rcases hBack with ⟨_, hUnspent⟩ | hCreated
    · exact hUnspent hSpent
    · exact hFresh uhsId hCreated hGrants.mem_uhs
  · intro hSpentFirst
    ext uhsId
    rw [mem_uhs_afterBatch, Finset.mem_union, Finset.mem_sdiff]
    constructor
    · rintro (⟨hBefore, hFree⟩ | hCreated | ⟨hHeld, entry, hFirst, hAborted⟩)
      · exact Or.inl ⟨hBefore, fun hSpent => hFree (grants_of_completed hGranted hSpent)⟩
      · exact Or.inr hCreated
      · obtain ⟨hEntry, hListed⟩ := of_firstLister hFirst
        rcases hHeld with hLocked | hGrants
        · have hTx := hUnlocked entry.1 (List.of_mem_zip hEntry).1
          exact absurd hLocked (Finset.disjoint_left.mp hTx hListed)
        · refine Or.inl ⟨hGrants.mem_uhs, fun hSpent => ?_⟩
          rw [hSpentFirst uhsId hSpent entry hFirst] at hAborted
          cases hAborted
    · rintro (⟨hBefore, hUnspent⟩ | hCreated)
      · by_cases hGrants : shard.Grants crypto txs uhsId
        · obtain ⟨entry, hFirst⟩ := hGrants.exists_firstLister hLength
          refine Or.inr (Or.inr ⟨Or.inr hGrants, entry, hFirst, ?_⟩)
          obtain ⟨hEntry, hListed⟩ := of_firstLister hFirst
          refine Bool.eq_false_of_not_eq_true fun hFlag => hUnspent ?_
          exact mem_completedInputs.mpr ⟨entry, hEntry, hFlag, hListed⟩
        · exact Or.inl ⟨hBefore, hGrants⟩
      · exact Or.inr (Or.inl hCreated)

/-- A lock request of a new dtx and the apply request that follows it. -/
theorem eq_afterBatch {locked after : LockingShard} {dtxId : Hash} {results : List Bool}
    (hUnknown : shard.Unknown dtxId)
    (hLock : shard.lockOutputs crypto txs dtxId = (locked, some results))
    (hApply : locked.applyOutputs flags dtxId = .ok (after, true)) :
    results = (lockTxs crypto shard txs).2 ∧ flags.length = txs.length ∧
      after = shard.afterBatch crypto txs flags dtxId := by
  have hRunning : shard.running = true := by
    by_contra hStopped
    simp [lockOutputs, hStopped] at hLock
  have hFirst : shard.processRequest crypto ⟨dtxId, .lock txs⟩ =
      .ok (locked, .lock (some results)) := by
    simp only [processRequest, hLock]
  cases processRequest_effect hRunning hFirst with
  | relock prepared => simp [hUnknown.1] at prepared
  | lock unprepared =>
      have hPrepared := Table.lookup_emplace_self
        (⟨txs, (lockTxs crypto shard txs).2⟩ : PreparedDtx) unprepared
      have hSecond : (shard.afterLock crypto txs dtxId).processRequest crypto
          ⟨dtxId, .apply flags⟩ = .ok (after, .apply true) := by
        simp only [processRequest, hApply]
      cases processRequest_effect (by simpa [afterLock] using hRunning) hSecond with
      | reapply missing applied => simp [afterLock, hPrepared] at missing
      | apply prepared sameLength =>
          obtain rfl := Option.some.inj (prepared.symm.trans hPrepared)
          exact ⟨rfl, sameLength, rfl⟩

end Batch

/-- The batch has the effect of its completed transactions and leaves the locks
as they were, exactly if it frees nothing but its own. -/
theorem batch_exact_iff_freesOwn {crypto : Crypto} {shard locked after : LockingShard}
    {txs : List CompactTx} {dtxId : Hash} {results flags : List Bool}
    (hUnknown : shard.Unknown dtxId)
    (hLock : shard.lockOutputs crypto txs dtxId = (locked, some results))
    (hApply : locked.applyOutputs flags dtxId = .ok (after, true))
    (hGranted : ∀ place : Nat, flags[place]? = some true → results[place]? = some true)
    (hFresh : ∀ uhsId ∈ shard.completedOutputs (txs.zip flags),
      uhsId ∉ shard.uhs ∧ uhsId ∉ shard.locked) :
    (after.uhs = (shard.uhs \ shard.completedInputs (txs.zip flags)) ∪
        shard.completedOutputs (txs.zip flags) ∧ after.locked = shard.locked) ↔
      shard.FreesOwn txs flags := by
  obtain ⟨rfl, hLength, rfl⟩ := eq_afterBatch hUnknown hLock hApply
  have hUhs := uhs_afterBatch_iff dtxId hLength hGranted fun uhsId hOut => (hFresh uhsId hOut).1
  rw [locked_afterBatch_iff dtxId hLength]
  constructor
  · rintro ⟨hSame, hUnlocked⟩
    exact ⟨hUnlocked, (hUhs hUnlocked).mp hSame⟩
  · intro h
    exact ⟨(hUhs h.unlocked).mpr h.spentFirst, h.unlocked⟩

/-- A shard with one coin, a transaction that spends it, and one that spends it
together with a coin that does not exist. -/
def contestedShard : LockingShard := initial (0, 255) 1 .noAttestations {.ofByte 1}
def spenderTx : CompactTx := .unattested (.ofByte 7) [.ofByte 1] [.ofByte 20]
def lackingTx : CompactTx := .unattested (.ofByte 8) [.ofByte 1, .ofByte 2] [.ofByte 30]

/-- The transaction that gets the lock stands before the one that does not. -/
theorem batch_exact_iff_freesOwn_spenderFirst :
    ∃ after, (contestedShard.afterLock .unused [spenderTx, lackingTx] (.ofByte 9)).applyOutputs
        [true, false] (.ofByte 9) = .ok (after, true) ∧
      after.uhs = {.ofByte 20} ∧ after.locked = ∅ ∧
      contestedShard.FreesOwn [spenderTx, lackingTx] [true, false] := by
  have hLock : contestedShard.lockOutputs .unused [spenderTx, lackingTx] (.ofByte 9) =
      (contestedShard.afterLock .unused [spenderTx, lackingTx] (.ofByte 9),
        some [true, false]) := rfl
  have hApply : (contestedShard.afterLock .unused [spenderTx, lackingTx] (.ofByte 9)).applyOutputs
      [true, false] (.ofByte 9) =
        .ok (contestedShard.afterBatch .unused [spenderTx, lackingTx] [true, false] (.ofByte 9),
          true) := rfl
  refine ⟨_, hApply, by decide +kernel, by decide +kernel, ?_⟩
  exact (batch_exact_iff_freesOwn (by decide) hLock hApply (fun _ hFlag => hFlag)
    (by decide +kernel)).mp ⟨by decide +kernel, by decide +kernel⟩

/-- The other way round: the aborted transaction frees the lock of the completed
one, whose input is unspent again afterwards. -/
theorem aborted_tx_restores_spent_input :
    ∃ locked after, contestedShard.Unknown (.ofByte 9) ∧
      contestedShard.lockOutputs .unused [lackingTx, spenderTx] (.ofByte 9) =
        (locked, some [false, true]) ∧
      locked.applyOutputs [false, true] (.ofByte 9) = .ok (after, true) ∧
      (∀ tx ∈ [lackingTx, spenderTx], tx.inputs.Nodup) ∧
      (∀ uhsId ∈ contestedShard.completedOutputs ([lackingTx, spenderTx].zip [false, true]),
        uhsId ∉ contestedShard.uhs ∧ uhsId ∉ contestedShard.locked) ∧
      after.uhs = {.ofByte 1, .ofByte 20} ∧
      (contestedShard.uhs \
          contestedShard.completedInputs ([lackingTx, spenderTx].zip [false, true])) ∪
        contestedShard.completedOutputs ([lackingTx, spenderTx].zip [false, true]) =
          {.ofByte 20} :=
  ⟨contestedShard.afterLock .unused [lackingTx, spenderTx] (.ofByte 9),
    contestedShard.afterBatch .unused [lackingTx, spenderTx] [false, true] (.ofByte 9),
    by decide, rfl, rfl, by decide, by decide +kernel, by decide +kernel, by decide +kernel⟩

end OpenCbdc.LockingShard

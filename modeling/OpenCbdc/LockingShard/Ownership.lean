import OpenCbdc.LockingShard.Runs

/-! Who owns a lock. The lock set of a shard carries no owner, but the prepared
dtxs tell which of their transactions were granted. As long as an abort gives
back only what its own batch has locked, every granted transaction keeps its
locks to itself until its batch is applied. -/
namespace OpenCbdc.LockingShard

def Params.completeTxs? : Params → Option (List Bool)
  | .apply completeTxs => some completeTxs
  | _ => none

/-- The transaction in this place of a prepared dtx was granted and lists the ID
as a relevant input. -/
def Holds (shard : LockingShard) (dtxId : Hash) (place : Nat) (uhsId : Hash) : Prop :=
  ∃ dtx tx, shard.preparedDtxs.lookup dtxId = some dtx ∧ dtx.txs[place]? = some tx ∧
    dtx.results[place]? = some true ∧ uhsId ∈ shard.relevantInputs tx

/-- Granted transactions have their locks, and share none. -/
structure Owned (shard : LockingShard) : Prop where
  held : ∀ dtxId place uhsId, shard.Holds dtxId place uhsId → uhsId ∈ shard.locked
  unique : ∀ uhsId firstId first secondId second, shard.Holds firstId first uhsId →
    shard.Holds secondId second uhsId → firstId = secondId ∧ first = second
  disjoint : ∀ uhsId ∈ shard.locked, uhsId ∉ shard.uhs

/-- Every lock that an apply request gives back to the UHS was granted to a
transaction of the same batch that is aborted, too. -/
def ReleasesOwn (shard : LockingShard) (request : Request) : Prop :=
  ∀ completeTxs ∈ request.params.completeTxs?, ∀ dtx ∈ shard.preparedDtxs.lookup request.dtxId,
    ∀ uhsId ∈ shard.locked, ∀ entry ∈ shard.firstLister (dtx.txs.zip completeTxs) uhsId,
      entry.2 = false → ∃ own ∈ dtx.txs.zip (dtx.results.zip completeTxs),
        uhsId ∈ shard.relevantInputs own.1 ∧ own.2 = (true, false)

instance (shard : LockingShard) (request : Request) : Decidable (shard.ReleasesOwn request) :=
  inferInstanceAs (Decidable (∀ completeTxs ∈ request.params.completeTxs?, _))

def CreatesOutput (shard : LockingShard) (uhsId : Hash) (request : Request) : Prop :=
  ∃ entry ∈ shard.settled request, entry.2 = true ∧ uhsId ∈ shard.relevantOutputs entry.1

/-- The flags of an apply request complete only what was granted, in terms of
places. -/
def CompletesGranted (shard : LockingShard) (request : Request) : Prop :=
  ∀ completeTxs dtx, request.params = .apply completeTxs →
    shard.preparedDtxs.lookup request.dtxId = some dtx →
      ∀ place : Nat, completeTxs[place]? = some true → dtx.results[place]? = some true

section Requests

variable {crypto : Crypto} {shard next : LockingShard} {request : Request} {reply : Reply}

theorem Effect.relevantInputs (h : Effect crypto shard request next reply) (tx : CompactTx) :
    next.relevantInputs tx = shard.relevantInputs tx := by
  rw [LockingShard.relevantInputs, h.outputRange, LockingShard.relevantInputs]

theorem Effect.relevantOutputs (h : Effect crypto shard request next reply) (tx : CompactTx) :
    next.relevantOutputs tx = shard.relevantOutputs tx := by
  rw [LockingShard.relevantOutputs, h.outputRange, LockingShard.relevantOutputs]

/-- A granted transaction of another dtx was granted before. -/
theorem Effect.holds_of_ne (h : Effect crypto shard request next reply) {dtxId : Hash}
    (hOther : dtxId ≠ request.dtxId) {place : Nat} {uhsId : Hash} :
    next.Holds dtxId place uhsId ↔ shard.Holds dtxId place uhsId := by
  simp only [Holds, h.preparedDtxs_of_ne hOther, h.relevantInputs]

/-- Only an apply request makes a shard drop the record of a prepared dtx. -/
theorem Effect.kept_or_applied (h : Effect crypto shard request next reply) {dtxId : Hash}
    {dtx : PreparedDtx} (hDtx : shard.preparedDtxs.lookup dtxId = some dtx) :
    next.preparedDtxs.lookup dtxId = some dtx ∨ ∃ completeTxs,
      request = ⟨dtxId, .apply completeTxs⟩ ∧ next = shard.afterApply dtx completeTxs dtxId := by
  by_cases hSame : dtxId = request.dtxId
  · cases h with
    | relock prepared => exact Or.inl hDtx
    | @lock other txs unprepared =>
        obtain rfl : dtxId = other := hSame
        rw [unprepared] at hDtx
        cases hDtx
    | reapply unprepared applied => exact Or.inl hDtx
    | @apply other completeTxs found prepared sameLength =>
        obtain rfl : dtxId = other := hSame
        obtain rfl : dtx = found := Option.some.inj (hDtx.symm.trans prepared)
        exact Or.inr ⟨completeTxs, rfl, rfl⟩
    | discard => exact Or.inl hDtx
  · exact Or.inl ((h.preparedDtxs_of_ne hSame).trans hDtx)

/-- IDs appear in a shard as outputs of completed transactions only. -/
theorem Effect.mem_of_mem_next (h : Effect crypto shard request next reply) {uhsId : Hash}
    (hIn : uhsId ∈ next.uhs ∪ next.locked) :
    uhsId ∈ shard.uhs ∪ shard.locked ∨ shard.CreatesOutput uhsId request := by
  rw [Finset.mem_union] at hIn ⊢
  cases h with
  | relock prepared => exact Or.inl hIn
  | @lock dtxId txs unprepared =>
      left
      rcases hIn with hUhs | hLocked
      · exact Or.inl ((mem_lockTxs_uhs crypto shard txs uhsId).mp hUhs).1
      · rcases (mem_lockTxs_locked crypto shard txs uhsId).mp hLocked with
          hOld | ⟨entry, hEntry, hGranted, hListed⟩
        · exact Or.inr hOld
        · exact Or.inl (lockEntries_granted crypto shard txs hEntry hGranted hListed)
  | reapply unprepared applied => exact Or.inl hIn
  | @apply dtxId completeTxs dtx prepared sameLength =>
      rcases hIn with hUhs | hLocked
      · rcases (mem_applyTxs_uhs shard _ uhsId).mp hUhs with hOld | hCreated | ⟨hLocked, _⟩
        · exact Or.inl (Or.inl hOld)
        · right
          rw [CreatesOutput, settled_apply prepared]
          exact hCreated
        · exact Or.inl (Or.inr hLocked)
      · exact Or.inl (Or.inr ((mem_applyTxs_locked shard _ uhsId).mp hLocked).1)
  | discard => exact Or.inl hIn

section Apply

variable {dtxId : Hash} {completeTxs : List Bool} {dtx : PreparedDtx}
variable (hPrepared : shard.preparedDtxs.lookup dtxId = some dtx)
variable (hFlags : shard.CompletesGranted ⟨dtxId, .apply completeTxs⟩)

include hPrepared hFlags

theorem holds_of_completed {tx : CompactTx} {place : Nat} {uhsId : Hash}
    (hTx : dtx.txs[place]? = some tx) (hFlag : completeTxs[place]? = some true)
    (hListed : uhsId ∈ shard.relevantInputs tx) : shard.Holds dtxId place uhsId :=
  ⟨dtx, tx, hPrepared, hTx, hFlags completeTxs dtx rfl hPrepared place hFlag, hListed⟩

/-- Whoever lists a locked ID first in the batch, a granted transaction of the
batch has that flag. -/
theorem exists_holds_of_firstLister (hOwn : shard.ReleasesOwn ⟨dtxId, .apply completeTxs⟩)
    {uhsId : Hash} (hLocked : uhsId ∈ shard.locked) {entry : CompactTx × Bool}
    (hFirst : shard.firstLister (dtx.txs.zip completeTxs) uhsId = some entry) :
    ∃ place, shard.Holds dtxId place uhsId ∧ completeTxs[place]? = some entry.2 := by
  cases hFlag : entry.2 with
  | true =>
      have hListed : uhsId ∈ shard.relevantInputs entry.1 := by
        simpa using List.find?_some hFirst
      obtain ⟨place, hPlace⟩ := List.mem_iff_getElem?.mp (List.mem_of_find?_eq_some hFirst)
      obtain ⟨hTx, hComplete⟩ := List.getElem?_zip_eq_some.mp hPlace
      rw [hFlag] at hComplete
      exact ⟨place, holds_of_completed hPrepared hFlags hTx hComplete hListed, hComplete⟩
  | false =>
      obtain ⟨own, hIn, hListed, hPair⟩ :=
        hOwn completeTxs rfl dtx hPrepared uhsId hLocked entry hFirst hFlag
      obtain ⟨place, hPlace⟩ := List.mem_iff_getElem?.mp hIn
      obtain ⟨hTx, hBoth⟩ := List.getElem?_zip_eq_some.mp hPlace
      obtain ⟨hResult, hComplete⟩ := List.getElem?_zip_eq_some.mp hBoth
      rw [hPair] at hResult hComplete
      exact ⟨place, ⟨dtx, own.1, hPrepared, hTx, hResult, hListed⟩, hComplete⟩

end Apply

section Lock

variable {dtxId : Hash} {txs : List CompactTx}
variable (hUnprepared : shard.preparedDtxs.lookup dtxId = none)

include hUnprepared

/-- What a new dtx holds is what the loop has granted it. -/
theorem holds_afterLock_self {place : Nat} {uhsId : Hash} :
    (shard.afterLock crypto txs dtxId).Holds dtxId place uhsId ↔
      ∃ tx, (lockEntries crypto shard txs)[place]? = some (tx, true) ∧
        uhsId ∈ shard.relevantInputs tx := by
  have hInputs (tx : CompactTx) : (shard.afterLock crypto txs dtxId).relevantInputs tx =
      shard.relevantInputs tx := (Effect.lock hUnprepared).relevantInputs tx
  have hLookup : (shard.afterLock crypto txs dtxId).preparedDtxs.lookup dtxId =
      some ⟨txs, (lockTxs crypto shard txs).2⟩ := Table.lookup_emplace_self _ hUnprepared
  simp only [Holds, hInputs, hLookup, Option.some_inj, lockEntries, List.getElem?_zip_eq_some]
  constructor
  · rintro ⟨_, tx, rfl, hTx, hGranted, hListed⟩
    exact ⟨tx, ⟨hTx, hGranted⟩, hListed⟩
  · rintro ⟨tx, ⟨hTx, hGranted⟩, hListed⟩
    exact ⟨_, tx, rfl, hTx, hGranted, hListed⟩

/-- A new dtx takes its locks from the UHS, so nobody else holds them. -/
theorem Owned.afterLock (h : shard.Owned) : (shard.afterLock crypto txs dtxId).Owned := by
  have hEffect : Effect crypto shard ⟨dtxId, .lock txs⟩ (shard.afterLock crypto txs dtxId)
      (.lock (some (lockTxs crypto shard txs).2)) := .lock hUnprepared
  have hNew : ∀ {place : Nat} {uhsId : Hash},
      (shard.afterLock crypto txs dtxId).Holds dtxId place uhsId → uhsId ∈ shard.uhs := by
    intro place uhsId hHolds
    obtain ⟨tx, hEntry, hListed⟩ := (holds_afterLock_self hUnprepared).mp hHolds
    exact lockEntries_granted crypto shard txs (List.mem_of_getElem? hEntry) rfl hListed
  have hOld : ∀ {other : Hash} {place : Nat} {uhsId : Hash}, other ≠ dtxId →
      (shard.afterLock crypto txs dtxId).Holds other place uhsId →
        shard.Holds other place uhsId :=
    fun hNe hHolds => (hEffect.holds_of_ne hNe).mp hHolds
  have hApart : ∀ {place other : Nat} {uhsId : Hash}, place < other →
      (shard.afterLock crypto txs dtxId).Holds dtxId place uhsId →
        ¬(shard.afterLock crypto txs dtxId).Holds dtxId other uhsId := by
    intro place other uhsId hLt hFirst hSecond
    obtain ⟨first, hFirst, hFirstListed⟩ := (holds_afterLock_self hUnprepared).mp hFirst
    obtain ⟨second, hSecond, hSecondListed⟩ := (holds_afterLock_self hUnprepared).mp hSecond
    obtain ⟨hPlace, hFirst⟩ := List.getElem?_eq_some_iff.mp hFirst
    obtain ⟨hOther, hSecond⟩ := List.getElem?_eq_some_iff.mp hSecond
    have hDisjoint := List.pairwise_iff_getElem.mp (lockEntries_pairwise crypto shard txs)
      place other hPlace hOther hLt
    rw [hFirst, hSecond] at hDisjoint
    exact Finset.disjoint_left.mp (hDisjoint rfl rfl) hFirstListed hSecondListed
  refine ⟨?_, ?_, ?_⟩
  · intro other place uhsId hHolds
    refine (mem_lockTxs_locked crypto shard txs uhsId).mpr ?_
    by_cases hSame : other = dtxId
    · subst hSame
      obtain ⟨tx, hEntry, hListed⟩ := (holds_afterLock_self hUnprepared).mp hHolds
      exact Or.inr ⟨_, List.mem_of_getElem? hEntry, rfl, hListed⟩
    · exact Or.inl (h.held other place uhsId (hOld hSame hHolds))
  · intro uhsId firstId first secondId second hFirst hSecond
    by_cases hFirstId : firstId = dtxId
    · subst hFirstId
      by_cases hSecondId : secondId = firstId
      · subst hSecondId
        refine ⟨rfl, ?_⟩
        rcases Nat.lt_trichotomy first second with hLt | hSame | hLt
        · exact (hApart hLt hFirst hSecond).elim
        · exact hSame
        · exact (hApart hLt hSecond hFirst).elim
      · exact (h.disjoint uhsId (h.held _ _ _ (hOld hSecondId hSecond)) (hNew hFirst)).elim
    · by_cases hSecondId : secondId = dtxId
      · subst hSecondId
        exact (h.disjoint uhsId (h.held _ _ _ (hOld hFirstId hFirst)) (hNew hSecond)).elim
      · exact h.unique uhsId _ _ _ _ (hOld hFirstId hFirst) (hOld hSecondId hSecond)
  · intro uhsId hLocked hUhs
    obtain ⟨hBefore, hUntaken⟩ := (mem_lockTxs_uhs crypto shard txs uhsId).mp hUhs
    rcases (mem_lockTxs_locked crypto shard txs uhsId).mp hLocked with
      hHeld | ⟨entry, hEntry, hGranted, hListed⟩
    · exact h.disjoint uhsId hHeld hBefore
    · exact hUntaken entry hEntry hGranted hListed

end Lock

section Settle

variable {dtxId : Hash} {completeTxs : List Bool} {dtx : PreparedDtx}
variable (hPrepared : shard.preparedDtxs.lookup dtxId = some dtx)
variable (hFlags : shard.CompletesGranted ⟨dtxId, .apply completeTxs⟩)
variable (hOwn : shard.ReleasesOwn ⟨dtxId, .apply completeTxs⟩)
variable (hFresh : ∀ uhsId, shard.CreatesOutput uhsId ⟨dtxId, .apply completeTxs⟩ →
  uhsId ∉ shard.locked)

include hPrepared hFlags hOwn in
/-- Another dtx does not hold what the applied one lists. -/
theorem Owned.unlisted_of_other (h : shard.Owned) {other : Hash} {place : Nat} {uhsId : Hash}
    (hNe : other ≠ dtxId) (hHolds : shard.Holds other place uhsId) :
    ∀ entry ∈ dtx.txs.zip completeTxs, uhsId ∉ shard.relevantInputs entry.1 := by
  intro entry hEntry hListed
  have hLocked := h.held other place uhsId hHolds
  cases hFirst : shard.firstLister (dtx.txs.zip completeTxs) uhsId with
  | none => simpa [hListed] using List.find?_eq_none.mp hFirst entry hEntry
  | some first =>
      obtain ⟨mine, hMine, _⟩ :=
        exists_holds_of_firstLister hPrepared hFlags hOwn hLocked hFirst
      exact hNe (h.unique uhsId other place dtxId mine hHolds hMine).1

include hPrepared hFlags hOwn hFresh

/-- Applying a dtx releases its locks. The other dtxs keep theirs, since they share none
with it. -/
theorem Owned.afterApply (h : shard.Owned) :
    (shard.afterApply dtx completeTxs dtxId).Owned := by
  have hInputs (tx : CompactTx) : (shard.afterApply dtx completeTxs dtxId).relevantInputs tx =
      shard.relevantInputs tx := by simp [relevantInputs, LockingShard.afterApply]
  have hOther : ∀ {other : Hash} {place : Nat} {uhsId : Hash},
      (shard.afterApply dtx completeTxs dtxId).Holds other place uhsId →
        other ≠ dtxId ∧ shard.Holds other place uhsId := by
    rintro other place uhsId ⟨found, tx, hFound, hTx, hResult, hListed⟩
    rw [hInputs] at hListed
    rw [LockingShard.afterApply] at hFound
    obtain ⟨hNe, hOld⟩ := Table.of_lookup_erase hFound
    exact ⟨hNe, found, tx, hOld, hTx, hResult, hListed⟩
  refine ⟨?_, ?_, ?_⟩
  · intro other place uhsId hHolds
    obtain ⟨hNe, hOld⟩ := hOther hHolds
    exact (mem_applyTxs_locked shard _ uhsId).mpr ⟨h.held other place uhsId hOld,
      h.unlisted_of_other hPrepared hFlags hOwn hNe hOld⟩
  · intro uhsId firstId first secondId second hFirst hSecond
    exact h.unique uhsId _ _ _ _ (hOther hFirst).2 (hOther hSecond).2
  · intro uhsId hLocked hUhs
    obtain ⟨hBefore, hUnlisted⟩ := (mem_applyTxs_locked shard _ uhsId).mp hLocked
    rcases (mem_applyTxs_uhs shard _ uhsId).mp hUhs with hOld | hCreated | ⟨_, entry, hFirst, _⟩
    · exact h.disjoint uhsId hBefore hOld
    · refine hFresh uhsId ?_ hBefore
      rw [CreatesOutput, settled_apply hPrepared]
      exact hCreated
    · have hListed : uhsId ∈ shard.relevantInputs entry.1 := by
        simpa using List.find?_some hFirst
      exact hUnlisted entry (List.mem_of_find?_eq_some hFirst) hListed

/-- The inputs of a completed transaction are gone. -/
theorem Owned.spent_afterApply (h : shard.Owned) {tx : CompactTx} {place : Nat} {uhsId : Hash}
    (hTx : dtx.txs[place]? = some tx) (hFlag : completeTxs[place]? = some true)
    (hListed : uhsId ∈ shard.relevantInputs tx) :
    uhsId ∉ (shard.afterApply dtx completeTxs dtxId).uhs ∧
      uhsId ∉ (shard.afterApply dtx completeTxs dtxId).locked := by
  have hHolds := holds_of_completed hPrepared hFlags hTx hFlag hListed
  have hLocked := h.held dtxId place uhsId hHolds
  constructor
  · intro hUhs
    rcases (mem_applyTxs_uhs shard _ uhsId).mp hUhs with
      hOld | hCreated | ⟨_, entry, hFirst, hAbort⟩
    · exact h.disjoint uhsId hLocked hOld
    · refine hFresh uhsId ?_ hLocked
      rw [CreatesOutput, settled_apply hPrepared]
      exact hCreated
    · obtain ⟨other, hOther, hOtherFlag⟩ :=
        exists_holds_of_firstLister hPrepared hFlags hOwn hLocked hFirst
      obtain ⟨_, rfl⟩ := h.unique uhsId _ _ _ _ hHolds hOther
      rw [hFlag, hAbort] at hOtherFlag
      cases hOtherFlag
  · intro hStill
    obtain ⟨_, hUnlisted⟩ := (mem_applyTxs_locked shard _ uhsId).mp hStill
    exact hUnlisted (tx, true) (List.mem_of_getElem? (List.getElem?_zip_eq_some.mpr ⟨hTx, hFlag⟩))
      hListed

end Settle

/-- One request keeps the locks with their owners. -/
theorem Effect.owned (h : Effect crypto shard request next reply) (hOwned : shard.Owned)
    (hFlags : shard.CompletesGranted request) (hOwn : shard.ReleasesOwn request)
    (hFresh : ∀ uhsId, shard.CreatesOutput uhsId request → uhsId ∉ shard.locked) :
    next.Owned := by
  cases h with
  | relock prepared => exact hOwned
  | lock unprepared => exact hOwned.afterLock unprepared
  | reapply unprepared applied => exact hOwned
  | apply prepared sameLength => exact hOwned.afterApply prepared hFlags hOwn hFresh
  | discard => exact ⟨hOwned.held, hOwned.unique, hOwned.disjoint⟩

end Requests

theorem owned_initial (outputRange : ShardRange) (cacheSize : Nat) (opts : Options)
    (preseed : Finset Hash) : (initial outputRange cacheSize opts preseed).Owned := by
  have hNone : ∀ dtxId place uhsId,
      ¬(initial outputRange cacheSize opts preseed).Holds dtxId place uhsId := by
    rintro dtxId place uhsId ⟨dtx, tx, hDtx, _⟩
    rw [initial, Finmap.lookup_empty] at hDtx
    cases hDtx
  exact ⟨fun _ _ _ hHolds => (hNone _ _ _ hHolds).elim,
    fun _ _ _ _ _ hFirst => (hNone _ _ _ hFirst).elim, fun _ hLocked => by cases hLocked⟩

end OpenCbdc.LockingShard

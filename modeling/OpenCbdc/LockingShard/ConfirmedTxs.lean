import OpenCbdc.LockingShard.Runs

/-! The transaction IDs that `check_tx_id` reports. The cache is filled for
every transaction of an applied batch, so an aborted transaction is reported
too unless one with the same ID was completed. -/
namespace OpenCbdc.LockingShard

open TransitionSystem

/-- A positive answer of `check_tx_id` is backed by a request of the run that
completed a transaction with this ID. -/
def ConfirmationsBacked (crypto : Crypto) (start : LockingShard) (requests : List Request)
    (shard : LockingShard) : Prop :=
  ∀ txId, shard.checkTxId txId = some true →
    Happened (step crypto) start requests (fun state => state.CompletesTx txId)

/-- The flags of an apply request beside the lock results they answer. -/
def flagsAndResults (shard : LockingShard) (request : Request) : List (Bool × Bool) :=
  match request.params, shard.preparedDtxs.lookup request.dtxId with
  | .apply completeTxs, some dtx => completeTxs.zip dtx.results
  | _, _ => []

/-- The flags of an apply request complete only what the shard had granted. -/
def FlagsGranted (shard : LockingShard) (request : Request) : Prop :=
  ∀ pair ∈ shard.flagsAndResults request, pair.1 = true → pair.2 = true

instance (shard : LockingShard) (request : Request) : Decidable (shard.FlagsGranted request) :=
  inferInstanceAs (Decidable (∀ pair ∈ shard.flagsAndResults request, _))

/-- Whenever a request of the run aborts a transaction whose ID the shard
caches, this request or an earlier one completes a transaction with that ID. -/
def AbortsCompleted (crypto : Crypto) (start : LockingShard) (requests : List Request) : Prop :=
  ∀ before request after state, requests = before ++ request :: after →
    run (step crypto) start before = some state → ∀ txId, state.AbortsTx txId request →
      Happened (step crypto) start (before ++ [request]) (fun state => state.CompletesTx txId)

theorem AbortsCompleted.concat {crypto : Crypto} {start : LockingShard}
    {requests : List Request} {request : Request}
    (h : AbortsCompleted crypto start (requests ++ [request])) :
    AbortsCompleted crypto start requests := by
  intro before earlier after state hRequests hRun
  exact h before earlier (after ++ [request]) state (by simp [hRequests]) hRun

/-- The applying loop caches nothing but the IDs of its transactions. -/
theorem applyTxs_completedTxs (shard : LockingShard) (entries : List (CompactTx × Bool))
    {txId : Hash} (h : txId ∈ (shard.applyTxs entries).completedTxs.vals) :
    txId ∈ shard.completedTxs.vals ∨
      ∃ entry ∈ entries, entry.1.id = txId ∧ hashInShardRange shard.outputRange txId = true := by
  induction entries generalizing shard with
  | nil => exact Or.inl h
  | cons entry rest ih =>
      rcases ih (shard.applyTx entry) h with hHere | ⟨later, hLater, hId, hRange⟩
      · rw [applyTx_eq] at hHere
        dsimp only at hHere
        split at hHere
        case isTrue hIn =>
            rcases Finset.mem_insert.mp (CacheSet.add_vals_subset _ _ hHere) with rfl | hOld
            · exact Or.inr ⟨entry, List.mem_cons_self .., rfl, hIn⟩
            · exact Or.inl hOld
        case isFalse hOut => exact Or.inl hHere
      · rw [applyTx_eq] at hRange
        exact Or.inr ⟨later, List.mem_cons_of_mem _ hLater, hId, hRange⟩

/-- One request adds to the cache only what it completes or aborts. -/
theorem Effect.completedTxs {crypto : Crypto} {shard next : LockingShard} {request : Request}
    {reply : Reply} (h : Effect crypto shard request next reply) {txId : Hash}
    (hIn : txId ∈ next.completedTxs.vals) :
    txId ∈ shard.completedTxs.vals ∨ shard.CompletesTx txId request ∨
      shard.AbortsTx txId request := by
  cases h with
  | relock prepared => exact Or.inl hIn
  | lock unprepared => exact Or.inl (by simpa [afterLock] using hIn)
  | reapply unprepared applied => exact Or.inl hIn
  | @apply dtxId completeTxs dtx prepared sameLength =>
      rcases applyTxs_completedTxs shard _ hIn with hOld | ⟨entry, hEntry, hId, hRange⟩
      · exact Or.inl hOld
      · have hSettled : entry ∈ shard.settled ⟨dtxId, .apply completeTxs⟩ := by
          rwa [settled_apply prepared]
        cases hFlag : entry.2 with
        | true => exact Or.inr (Or.inl ⟨entry, hSettled, hFlag, hId⟩)
        | false => exact Or.inr (Or.inr ⟨entry, hSettled, hFlag, hId, hRange⟩)
  | discard => exact Or.inl hIn

/-- In every run whose aborts concern no ID that was not also completed,
`check_tx_id` confirms completed transactions only. -/
theorem confirmations_backed_of_aborts_completed (crypto : Crypto) (outputRange : ShardRange)
    (cacheSize : Nat) (opts : Options) (preseed : Finset Hash)
    (requests : List Request) (shard : LockingShard)
    (hRun : run (step crypto) (initial outputRange cacheSize opts preseed) requests = some shard)
    (hAborts : AbortsCompleted crypto (initial outputRange cacheSize opts preseed) requests) :
    ConfirmationsBacked crypto (initial outputRange cacheSize opts preseed) requests shard := by
  have hInvariant : shard.running = true ∧
      (AbortsCompleted crypto (initial outputRange cacheSize opts preseed) requests →
        ∀ txId ∈ shard.completedTxs.vals, Happened (step crypto)
          (initial outputRange cacheSize opts preseed) requests
          (fun state => state.CompletesTx txId)) := by
    refine run_induction (motive := fun requests state => state.running = true ∧
      (AbortsCompleted crypto (initial outputRange cacheSize opts preseed) requests →
        ∀ txId ∈ state.completedTxs.vals, Happened (step crypto)
          (initial outputRange cacheSize opts preseed) requests
          (fun state => state.CompletesTx txId))) ⟨rfl, fun _ txId hIn => ?_⟩ ?_ hRun
    · simp [initial, CacheSet.empty] at hIn
    · intro before state request next hBefore ih hStep
      obtain ⟨reply, hEffect⟩ := step_effect ih.1 hStep
      refine ⟨hEffect.running.trans ih.1, fun hAll txId hIn => ?_⟩
      rcases hEffect.completedTxs hIn with hOld | hCompletes | hAborted
      · exact (ih.2 hAll.concat txId hOld).later [request]
      · exact Happened.last hBefore hCompletes
      · exact hAll before request [] state rfl hBefore txId hAborted
  intro txId hChecked
  exact hInvariant.2 hAborts txId (by simpa [checkTxId, CacheSet.contains] using hChecked)

theorem abortsCompleted_of_none_aborted {crypto : Crypto} {start : LockingShard}
    {requests : List Request}
    (h : Guarded (step crypto) start
      (fun state request => ∀ entry ∈ state.settled request, entry.2 = true) requests) :
    AbortsCompleted crypto start requests := by
  rintro before request after state hRequests hRun txId ⟨entry, hEntry, hFlag, _⟩
  rw [h before request after state hRequests hRun entry hEntry] at hFlag
  cases hFlag

/-- A completed transaction is confirmed, and rightly so. -/
theorem confirmations_backed_completed :
    let tx := CompactTx.unattested (.ofByte 9) [.ofByte 1] [.ofByte 2]
    let requests : List Request := [⟨.ofByte 7, .lock [tx]⟩, ⟨.ofByte 7, .apply [true]⟩]
    ∃ shard, run (step .unused) (initial (0, 255) 4 .noAttestations {.ofByte 1}) requests =
        some shard ∧ shard.checkTxId tx.id = some true ∧
      ConfirmationsBacked .unused (initial (0, 255) 4 .noAttestations {.ofByte 1}) requests
        shard := by
  intro tx requests
  have hTest : (run (step .unused) (initial (0, 255) 4 .noAttestations {.ofByte 1}) requests).any
      (fun shard => shard.checkTxId tx.id == some true) = true := by decide
  have hAborts : AbortsCompleted .unused (initial (0, 255) 4 .noAttestations {.ofByte 1})
      requests := abortsCompleted_of_none_aborted (by decide)
  obtain ⟨shard, hRun, hShard⟩ := exists_run_of_test hTest
  have hChecked : shard.checkTxId tx.id = some true := by simpa using hShard
  refine ⟨shard, hRun, hChecked, ?_⟩
  exact confirmations_backed_of_aborts_completed .unused _ _ _ _ requests shard hRun hAborts

/-- A transaction whose only input does not exist is locked in vain, aborted,
and reported as confirmed. -/
theorem aborted_tx_confirmed :
    let tx := CompactTx.unattested (.ofByte 9) [.ofByte 1] [.ofByte 2]
    let start := initial (0, 255) 4 .noAttestations ∅
    let requests := [⟨.ofByte 7, .lock [tx]⟩, ⟨.ofByte 7, .apply [false]⟩]
    ∃ shard, run (step .unused) start requests = some shard ∧
      Guarded (step .unused) start FlagsGranted requests ∧
      shard.checkTxId tx.id = some true ∧
      ¬ConfirmationsBacked .unused start requests shard := by
  intro tx start requests
  have hTest : (run (step .unused) start requests).any
      (fun shard => shard.checkTxId tx.id == some true) = true := by decide
  obtain ⟨shard, hRun, hShard⟩ := exists_run_of_test hTest
  have hChecked : shard.checkTxId tx.id = some true := by simpa using hShard
  exact ⟨shard, hRun, by decide, hChecked, fun hBacked =>
    absurd (hBacked tx.id hChecked) (by decide)⟩

end OpenCbdc.LockingShard

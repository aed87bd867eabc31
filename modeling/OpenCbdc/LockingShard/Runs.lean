import OpenCbdc.Library.Run
import OpenCbdc.LockingShard.Effects

/-! Whole runs of one locking shard: which IDs can leave it, who holds its
locks, how it absorbs repeated requests and which transaction IDs it reports as
confirmed. -/
namespace OpenCbdc.LockingShard

open TransitionSystem

/-- The transactions that a request settles, with their completion flags. -/
def settled (shard : LockingShard) (request : Request) : List (CompactTx × Bool) :=
  match request.params, shard.preparedDtxs.lookup request.dtxId with
  | .apply completeTxs, some dtx => dtx.txs.zip completeTxs
  | _, _ => []

def SpendsInput (shard : LockingShard) (uhsId : Hash) (request : Request) : Prop :=
  ∃ entry ∈ shard.settled request, entry.2 = true ∧ uhsId ∈ shard.relevantInputs entry.1

def CompletesTx (shard : LockingShard) (txId : Hash) (request : Request) : Prop :=
  ∃ entry ∈ shard.settled request, entry.2 = true ∧ entry.1.id = txId

/-- The request aborts a transaction with this ID, which the shard caches. -/
def AbortsTx (shard : LockingShard) (txId : Hash) (request : Request) : Prop :=
  ∃ entry ∈ shard.settled request, entry.2 = false ∧ entry.1.id = txId ∧
    hashInShardRange shard.outputRange txId = true

instance (shard : LockingShard) (uhsId : Hash) (request : Request) :
    Decidable (shard.SpendsInput uhsId request) :=
  inferInstanceAs (Decidable (∃ entry ∈ shard.settled request, _))

instance (shard : LockingShard) (txId : Hash) (request : Request) :
    Decidable (shard.CompletesTx txId request) :=
  inferInstanceAs (Decidable (∃ entry ∈ shard.settled request, _))

theorem settled_apply {shard : LockingShard} {dtxId : Hash} {dtx : PreparedDtx}
    (h : shard.preparedDtxs.lookup dtxId = some dtx) (completeTxs : List Bool) :
    shard.settled ⟨dtxId, .apply completeTxs⟩ = dtx.txs.zip completeTxs := by
  simp [settled, h]

theorem mem_zip_of_mem {dtx : PreparedDtx} {flags : List Bool} {tx : CompactTx}
    (hLength : flags.length = dtx.txs.length) (hTx : tx ∈ dtx.txs) :
    ∃ flag, (tx, flag) ∈ dtx.txs.zip flags := by
  rw [← List.map_fst_zip hLength.ge, List.mem_map] at hTx
  obtain ⟨⟨_, flag⟩, hEntry, rfl⟩ := hTx
  exact ⟨flag, hEntry⟩

section Coins

variable {crypto : Crypto} {shard next : LockingShard} {request : Request} {reply : Reply}

/-- One request keeps every unspent ID unless it spends it. -/
theorem Effect.keeps_unspent (h : Effect crypto shard request next reply) {uhsId : Hash}
    (hIn : uhsId ∈ shard.uhs ∪ shard.locked) (hNot : ¬shard.SpendsInput uhsId request) :
    uhsId ∈ next.uhs ∪ next.locked := by
  rw [Finset.mem_union] at hIn ⊢
  cases h with
  | relock prepared => exact hIn
  | @lock dtxId txs unprepared =>
      change uhsId ∈ (lockTxs crypto shard txs).1.uhs ∨ uhsId ∈ (lockTxs crypto shard txs).1.locked
      rw [mem_lockTxs_uhs, mem_lockTxs_locked]
      by_cases hTaken : ∃ entry ∈ lockEntries crypto shard txs, entry.2 = true ∧
          uhsId ∈ shard.relevantInputs entry.1
      · exact Or.inr (Or.inr hTaken)
      · rcases hIn with hUhs | hLocked
        · exact Or.inl ⟨hUhs, fun entry hEntry hGranted hListed =>
            hTaken ⟨entry, hEntry, hGranted, hListed⟩⟩
        · exact Or.inr (Or.inl hLocked)
  | reapply unprepared applied => exact hIn
  | @apply dtxId completeTxs dtx prepared sameLength =>
      change uhsId ∈ (shard.applyTxs (dtx.txs.zip completeTxs)).uhs ∨
        uhsId ∈ (shard.applyTxs (dtx.txs.zip completeTxs)).locked
      rw [mem_applyTxs_uhs, mem_applyTxs_locked]
      rcases hIn with hUhs | hLocked
      · exact Or.inl (Or.inl hUhs)
      · cases hFirst : shard.firstLister (dtx.txs.zip completeTxs) uhsId with
        | none =>
            refine Or.inr ⟨hLocked, fun entry hEntry => ?_⟩
            simpa using List.find?_eq_none.mp hFirst entry hEntry
        | some entry =>
            have hListed : uhsId ∈ shard.relevantInputs entry.1 := by
              simpa using List.find?_some hFirst
            refine Or.inl (Or.inr (Or.inr ⟨hLocked, entry, rfl, ?_⟩))
            cases hFlag : entry.2 with
            | false => rfl
            | true =>
                refine (hNot ⟨entry, ?_, hFlag, hListed⟩).elim
                rw [settled_apply prepared]
                exact List.mem_of_find?_eq_some hFirst
  | discard => exact hIn

/-- Every lock is a relevant input of a transaction that was granted in a dtx
which is still prepared. -/
def LocksHeld (shard : LockingShard) : Prop :=
  ∀ uhsId ∈ shard.locked, ∃ dtxId dtx, shard.preparedDtxs.lookup dtxId = some dtx ∧
    ∃ entry ∈ dtx.txs.zip dtx.results, entry.2 = true ∧ uhsId ∈ shard.relevantInputs entry.1

/-- One request keeps every lock in the hands of a prepared dtx. An apply
removes the locks of all inputs its dtx lists, hence all that only this dtx
could account for. -/
theorem Effect.locksHeld (h : Effect crypto shard request next reply)
    (hHeld : shard.LocksHeld) : next.LocksHeld := by
  cases h with
  | relock prepared => exact hHeld
  | @lock dtxId txs unprepared =>
      intro uhsId hLocked
      have hInputs (tx : CompactTx) : (shard.afterLock crypto txs dtxId).relevantInputs tx =
          shard.relevantInputs tx := by simp [relevantInputs, afterLock]
      simp only [hInputs]
      rcases (mem_lockTxs_locked crypto shard txs uhsId).mp hLocked with hOld | hNew
      · obtain ⟨other, dtx, hDtx, hEntry⟩ := hHeld uhsId hOld
        have hNe : other ≠ dtxId := by
          rintro rfl
          rw [unprepared] at hDtx
          cases hDtx
        exact ⟨other, dtx, (Table.lookup_emplace_of_ne _ _ hNe).trans hDtx, hEntry⟩
      · exact ⟨dtxId, _, Table.lookup_emplace_self _ unprepared, hNew⟩
  | reapply unprepared applied => exact hHeld
  | @apply dtxId completeTxs dtx prepared sameLength =>
      intro uhsId hLocked
      have hInputs (tx : CompactTx) : (shard.afterApply dtx completeTxs dtxId).relevantInputs tx =
          shard.relevantInputs tx := by simp [relevantInputs, afterApply]
      simp only [hInputs]
      obtain ⟨hOld, hFree⟩ := (mem_applyTxs_locked shard _ uhsId).mp hLocked
      obtain ⟨other, held, hDtx, entry, hEntry, hGranted, hListed⟩ := hHeld uhsId hOld
      have hNe : other ≠ dtxId := by
        rintro rfl
        rw [prepared] at hDtx
        cases hDtx
        obtain ⟨flag, hZip⟩ := mem_zip_of_mem sameLength (List.of_mem_zip hEntry).1
        exact hFree _ hZip hListed
      exact ⟨other, held, (Finmap.lookup_erase_ne hNe).trans hDtx, entry, hEntry, hGranted, hListed⟩
  | discard => exact hHeld

theorem run_running {start : LockingShard} (hStart : start.running = true)
    {requests : List Request} (h : run (step crypto) start requests = some shard) :
    shard.running = true := by
  refine run_invariant (motive := fun state => state.running = true) hStart ?_ h
  intro state request next hRunning hStep
  obtain ⟨reply, hEffect⟩ := step_effect hRunning hStep
  exact hEffect.running.trans hRunning

theorem checkUnspent_of_mem {uhsId : Hash} (h : uhsId ∈ shard.uhs ∪ shard.locked) :
    shard.checkUnspent uhsId = some true := by
  simpa [checkUnspent] using h

/-- No run loses an unspent ID without a completed transaction that spends it,
and no lock outlives the prepared dtx it was granted to. -/
theorem unspent_kept_and_locks_held (crypto : Crypto) (outputRange : ShardRange)
    (cacheSize : Nat) (opts : Options) (preseed : Finset Hash)
    (requests more : List Request) (shard later : LockingShard)
    (hRun : run (step crypto) (initial outputRange cacheSize opts preseed) requests = some shard)
    (hMore : run (step crypto) shard more = some later) :
    (∀ uhsId ∈ shard.uhs ∪ shard.locked, shard.checkUnspent uhsId = some true ∧
      (¬Happened (step crypto) shard more (fun state => state.SpendsInput uhsId) →
        uhsId ∈ later.uhs ∪ later.locked ∧ later.checkUnspent uhsId = some true)) ∧
    shard.LocksHeld ∧ (shard.preparedDtxs = ∅ → shard.locked = ∅) := by
  have hRunning : shard.running = true := run_running rfl hRun
  have hHeld : shard.LocksHeld := by
    have hBoth : shard.running = true ∧ shard.LocksHeld := by
      refine run_invariant (motive := fun state => state.running = true ∧ state.LocksHeld)
        ⟨rfl, fun uhsId hLocked => ?_⟩ ?_ hRun
      · simp [initial] at hLocked
      · intro state request next hState hStep
        obtain ⟨reply, hEffect⟩ := step_effect hState.1 hStep
        exact ⟨hEffect.running.trans hState.1, hEffect.locksHeld hState.2⟩
    exact hBoth.2
  refine ⟨fun uhsId hIn => ⟨checkUnspent_of_mem hIn, fun hNot => ?_⟩, hHeld, fun hNone => ?_⟩
  · have hKept : later.running = true ∧ uhsId ∈ later.uhs ∪ later.locked := by
      have hGuarded : Guarded (step crypto) shard
          (fun state request => ¬state.SpendsInput uhsId request) more := by
        simpa [guarded_iff_not_happened] using hNot
      refine guarded_invariant (motive := fun state => state.running = true ∧
        uhsId ∈ state.uhs ∪ state.locked) ⟨hRunning, hIn⟩ ?_ hMore hGuarded
      intro state request next hState hGuard hStep
      obtain ⟨reply, hEffect⟩ := step_effect hState.1 hStep
      exact ⟨hEffect.running.trans hState.1, hEffect.keeps_unspent hState.2 hGuard⟩
    exact ⟨hKept.2, checkUnspent_of_mem hKept.2⟩
  · apply Finset.eq_empty_of_forall_notMem
    intro uhsId hLocked
    obtain ⟨dtxId, dtx, hDtx, _⟩ := hHeld uhsId hLocked
    rw [hNone, Finmap.lookup_empty] at hDtx
    cases hDtx

/-- A lock, an apply that completes the transaction, and what is left. -/
theorem unspent_kept_and_locks_held_spend :
    let tx := CompactTx.unattested (.ofByte 9) [.ofByte 1] [.ofByte 2]
    let start := initial (0, 255) 4 .noAttestations {.ofByte 1, .ofByte 3}
    ∃ shard later, run (step .unused) start [⟨.ofByte 7, .lock [tx]⟩] = some shard ∧
      run (step .unused) shard [⟨.ofByte 7, .apply [true]⟩] = some later ∧
      Hash.ofByte 1 ∈ shard.locked ∧ Hash.ofByte 3 ∈ later.uhs ∪ later.locked ∧
      shard.LocksHeld := by
  intro tx start
  have hRun : run (step .unused) start [⟨.ofByte 7, .lock [tx]⟩] =
      some (start.afterLock .unused [tx] (.ofByte 7)) := by rfl
  have hMore : ∃ later, run (step .unused) (start.afterLock .unused [tx] (.ofByte 7))
      [⟨.ofByte 7, .apply [true]⟩] = some later := ⟨_, rfl⟩
  obtain ⟨later, hMore⟩ := hMore
  have hMain := unspent_kept_and_locks_held .unused (0, 255) 4 .noAttestations
    {.ofByte 1, .ofByte 3} _ _ _ later hRun hMore
  refine ⟨_, later, hRun, hMore, by decide, ?_, hMain.2.1⟩
  exact ((hMain.1 (.ofByte 3) (by decide)).2 (by decide)).1

end Coins

section Repeats

variable {crypto : Crypto} {shard next : LockingShard} {request : Request} {reply : Reply}

/-- The shard still knows the answer to a request and needs no change for it. -/
def Absorbs (shard : LockingShard) (request : Request) (reply : Reply) : Prop :=
  match request.params with
  | .lock _ => ∃ dtx, shard.preparedDtxs.lookup request.dtxId = some dtx ∧
      reply = .lock (some dtx.results)
  | .apply _ => shard.preparedDtxs.lookup request.dtxId = none ∧
      request.dtxId ∈ shard.appliedDtxs ∧ reply = .apply true
  | .discard => request.dtxId ∉ shard.appliedDtxs ∧ reply = .discard true

/-- Whatever a request did, the shard can absorb it right afterwards. -/
theorem Effect.absorbs (h : Effect crypto shard request next reply) :
    next.Absorbs request reply := by
  cases h with
  | relock prepared => exact ⟨_, prepared, rfl⟩
  | lock unprepared => exact ⟨_, Table.lookup_emplace_self _ unprepared, rfl⟩
  | reapply unprepared applied => exact ⟨unprepared, applied, rfl⟩
  | apply prepared sameLength =>
      exact ⟨Finmap.lookup_erase _ _, Finset.mem_insert_self _ _, rfl⟩
  | discard => exact ⟨Finset.notMem_erase _ _, rfl⟩

/-- The shard holds what it has answered a lock request with. -/
theorem Effect.prepared_of_locked {results : List Bool}
    (h : Effect crypto shard request next (.lock (some results))) :
    ∃ dtx, next.preparedDtxs.lookup request.dtxId = some dtx ∧ dtx.results = results := by
  cases h with
  | relock prepared => exact ⟨_, prepared, rfl⟩
  | lock unprepared => exact ⟨_, Table.lookup_emplace_self _ unprepared, rfl⟩

theorem Effect.unprepared_of_applied (h : Effect crypto shard request next (.apply true)) :
    request.dtxId ∉ next.preparedDtxs := by
  cases h with
  | reapply unprepared applied => exact Finmap.lookup_eq_none.mp unprepared
  | apply prepared sameLength => exact Finmap.lookup_eq_none.mp (Finmap.lookup_erase _ _)

theorem Effect.unapplied_of_discarded (h : Effect crypto shard request next (.discard true)) :
    request.dtxId ∉ next.appliedDtxs := by
  cases h with
  | discard => exact Finset.notMem_erase _ _

/-- Requests of other dtxs do not make the shard forget. -/
theorem Absorbs.after_other (hAbsorbs : shard.Absorbs request reply)
    {other : Request} {answer : Reply} (h : Effect crypto shard other next answer)
    (hOther : other.dtxId ≠ request.dtxId) :
    next.Absorbs request reply := by
  have hPrepared := h.preparedDtxs_of_ne hOther.symm
  have hApplied := h.appliedDtxs_of_ne hOther.symm
  unfold Absorbs at hAbsorbs ⊢
  rw [hPrepared, hApplied]
  exact hAbsorbs

/-- A request that the shard knows the answer to is one of the effects, the one that leaves
the shard as it is. -/
theorem Absorbs.effect (h : shard.Absorbs request reply) :
    Effect crypto shard request shard reply := by
  obtain ⟨dtxId, params⟩ := request
  cases params with
  | lock txs =>
      obtain ⟨dtx, hDtx, rfl⟩ := h
      exact .relock hDtx
  | apply completeTxs =>
      obtain ⟨hDtx, hApplied, rfl⟩ := h
      exact .reapply hDtx hApplied
  | discard =>
      obtain ⟨hApplied, rfl⟩ := h
      have hSame : shard.afterDiscard dtxId = shard := by
        simp [afterDiscard, Finset.erase_eq_of_notMem hApplied]
      have hEffect : Effect crypto shard ⟨dtxId, .discard⟩ (shard.afterDiscard dtxId)
          (.discard true) := .discard
      rwa [hSame] at hEffect

/-- A request delivered again, with only requests of other dtxs in between,
gets the answer it got before and changes nothing at all. -/
theorem repeated_request_absorbed (crypto : Crypto) (outputRange : ShardRange)
    (cacheSize : Nat) (opts : Options) (preseed : Finset Hash)
    (history others : List Request) (first second third : LockingShard)
    (request : Request) (reply : Reply)
    (hHistory : run (step crypto) (initial outputRange cacheSize opts preseed) history =
      some first)
    (hFirst : first.processRequest crypto request = .ok (second, reply))
    (hOthers : run (step crypto) second others = some third)
    (hOther : ∀ other ∈ others, other.dtxId ≠ request.dtxId) :
    third.processRequest crypto request = .ok (third, reply) := by
  have hRunning : first.running = true := run_running rfl hHistory
  have hEffect := processRequest_effect hRunning hFirst
  have hThird : third.running = true ∧ third.Absorbs request reply := by
    have hGuarded : Guarded (step crypto) second
        (fun _ other => other.dtxId ≠ request.dtxId) others := by
      intro before other after state hOthers _
      exact hOther other (by simp [hOthers])
    refine guarded_invariant (motive := fun state => state.running = true ∧
      state.Absorbs request reply) ⟨hEffect.running.trans hRunning, hEffect.absorbs⟩ ?_
      hOthers hGuarded
    intro state other next hState hNe hStep
    obtain ⟨answer, hMove⟩ := step_effect hState.1 hStep
    exact ⟨hMove.running.trans hState.1, hState.2.after_other hMove hNe⟩
  exact hThird.2.effect.processRequest_eq hThird.1

/-- A lock repeated after another dtx has spent an ID of its own. -/
theorem repeated_request_absorbed_lock :
    let tx := CompactTx.unattested (.ofByte 9) [.ofByte 1] [.ofByte 2]
    let other := CompactTx.unattested (.ofByte 8) [.ofByte 3] [.ofByte 4]
    let start := initial (0, 255) 4 .noAttestations {.ofByte 1, .ofByte 3}
    let others := [⟨.ofByte 6, .lock [other]⟩, ⟨.ofByte 6, .apply [true]⟩]
    ∃ third, run (step .unused) (start.afterLock .unused [tx] (.ofByte 7)) others = some third ∧
      third.processRequest .unused ⟨.ofByte 7, .lock [tx]⟩ =
        .ok (third, .lock (some [true])) := by
  intro tx other start others
  have hOthers : ∃ third, run (step .unused) (start.afterLock .unused [tx] (.ofByte 7)) others =
      some third := ⟨_, rfl⟩
  obtain ⟨third, hOthers⟩ := hOthers
  exact ⟨third, hOthers, repeated_request_absorbed .unused (0, 255) 4 .noAttestations
    {.ofByte 1, .ofByte 3} [] others start _ third ⟨.ofByte 7, .lock [tx]⟩ _ rfl rfl hOthers
    (by decide)⟩

end Repeats

end OpenCbdc.LockingShard

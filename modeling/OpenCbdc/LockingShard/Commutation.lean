import OpenCbdc.LockingShard.Effects
import OpenCbdc.Library.Interleaving

/-! Batches that share no UHS ID do not disturb each other on a shard. What a
dtx observes of a shard is its own prepared and applied entries and the two sets
as far as they concern the IDs of its transactions. -/
namespace OpenCbdc.LockingShard

open Interleaving

/-- A request with its reply, unless it ends the process. -/
def answer (crypto : Crypto) (shard : LockingShard) (request : Request) :
    Option (LockingShard × Reply) :=
  (shard.processRequest crypto request).toOption

/-- A dtx on a shard: its transactions, and the flags with which they are
applied. -/
structure Batch where
  dtxId : Hash
  txs : List CompactTx
  completeTxs : List Bool
  completeTxs_length : completeTxs.length = txs.length
deriving DecidableEq

namespace Batch

def requests (batch : Batch) : List Request :=
  [⟨batch.dtxId, .lock batch.txs⟩, ⟨batch.dtxId, .apply batch.completeTxs⟩, ⟨batch.dtxId, .discard⟩]

def Mentions (batch : Batch) (uhsId : Hash) : Prop :=
  ∃ tx ∈ batch.txs, uhsId ∈ tx.inputs ∨ uhsId ∈ tx.uhsOutputs

theorem dtxId_of_mem_requests {batch : Batch} {request : Request}
    (h : request ∈ batch.requests) : request.dtxId = batch.dtxId := by
  simp only [requests, List.mem_cons, List.not_mem_nil, or_false] at h
  rcases h with rfl | rfl | rfl <;> rfl

theorem txs_of_mem_requests {batch : Batch} {dtxId : Hash} {txs : List CompactTx}
    (h : (⟨dtxId, .lock txs⟩ : Request) ∈ batch.requests) : txs = batch.txs := by
  have hSame : dtxId = batch.dtxId ∧ txs = batch.txs := by simpa [requests] using h
  exact hSame.2

end Batch

/-- The shard has neither a prepared nor an applied entry of the dtx. -/
def Unknown (shard : LockingShard) (dtxId : Hash) : Prop :=
  shard.preparedDtxs.lookup dtxId = none ∧ dtxId ∉ shard.appliedDtxs

instance (shard : LockingShard) (dtxId : Hash) : Decidable (shard.Unknown dtxId) :=
  inferInstanceAs (Decidable (_ ∧ _))

/-- The dtxs have distinct IDs, and no UHS ID occurs in two of them. -/
structure Independent (batches : List Batch) : Prop where
  distinct : (batches.map Batch.dtxId).Nodup
  disjoint : ∀ first ∈ batches, ∀ second ∈ batches, first.dtxId ≠ second.dtxId →
    ∀ uhsId, first.Mentions uhsId → ¬second.Mentions uhsId

/-- The schedule holds the requests of the batches, each dtx's own in their
order. -/
structure Interleaves (batches : List Batch) (schedule : List Request) : Prop where
  known : ∀ request ∈ schedule, ∃ batch ∈ batches, request ∈ batch.requests
  ordered : ∀ batch ∈ batches,
    schedule.filter (fun request => request.dtxId = batch.dtxId) = batch.requests

/-- What is asked for a dtx and replied to it. -/
def repliesTo (dtxId : Hash) (log : List (Request × Reply)) : List (Request × Reply) :=
  log.filter fun entry => entry.1.dtxId = dtxId

section Agreement

/-- The shards have the same configuration, and their sets agree about some of
the UHS IDs. -/
structure AgreeOn (ids : Hash → Prop) (first second : LockingShard) : Prop where
  running : first.running = second.running
  outputRange : first.outputRange = second.outputRange
  opts : first.opts = second.opts
  uhs : ∀ uhsId, ids uhsId → (uhsId ∈ first.uhs ↔ uhsId ∈ second.uhs)
  locked : ∀ uhsId, ids uhsId → (uhsId ∈ first.locked ↔ uhsId ∈ second.locked)

variable {ids : Hash → Prop} {first second third : LockingShard}

theorem AgreeOn.refl (shard : LockingShard) : AgreeOn ids shard shard :=
  ⟨rfl, rfl, rfl, fun _ _ => Iff.rfl, fun _ _ => Iff.rfl⟩

theorem AgreeOn.trans (h : AgreeOn ids first second) (hNext : AgreeOn ids second third) :
    AgreeOn ids first third where
  running := h.running.trans hNext.running
  outputRange := h.outputRange.trans hNext.outputRange
  opts := h.opts.trans hNext.opts
  uhs uhsId hId := (h.uhs uhsId hId).trans (hNext.uhs uhsId hId)
  locked uhsId hId := (h.locked uhsId hId).trans (hNext.locked uhsId hId)

theorem AgreeOn.symm (h : AgreeOn ids first second) : AgreeOn ids second first where
  running := h.running.symm
  outputRange := h.outputRange.symm
  opts := h.opts.symm
  uhs uhsId hId := (h.uhs uhsId hId).symm
  locked uhsId hId := (h.locked uhsId hId).symm

theorem AgreeOn.relevantInputs_eq (h : AgreeOn ids first second) (tx : CompactTx) :
    first.relevantInputs tx = second.relevantInputs tx := by
  rw [relevantInputs, relevantInputs, h.outputRange]

theorem AgreeOn.relevantOutputs_eq (h : AgreeOn ids first second) (tx : CompactTx) :
    first.relevantOutputs tx = second.relevantOutputs tx := by
  rw [relevantOutputs, relevantOutputs, h.outputRange]

variable (crypto : Crypto)

/-- Where two shards agree about the inputs of a transaction, it gets the same
result on both. -/
theorem AgreeOn.checkAndLockTx_result (h : AgreeOn ids first second) {tx : CompactTx}
    (hTx : ∀ uhsId ∈ tx.inputs, ids uhsId) :
    (first.checkAndLockTx crypto tx).2 = (second.checkAndLockTx crypto tx).2 := by
  have hSubset : first.relevantInputs tx ⊆ first.uhs ↔ second.relevantInputs tx ⊆ second.uhs := by
    rw [h.relevantInputs_eq tx]
    refine forall_congr' fun uhsId => ?_
    refine imp_congr_right fun hRelevant => h.uhs uhsId (hTx uhsId ?_)
    exact (mem_inRange.mp hRelevant).1
  rw [Bool.eq_iff_iff, LockingShard.checkAndLockTx_result, LockingShard.checkAndLockTx_result,
    Lockable, Lockable, h.opts, hSubset]

theorem AgreeOn.checkAndLockTx (h : AgreeOn ids first second) {tx : CompactTx}
    (hTx : ∀ uhsId ∈ tx.inputs, ids uhsId) :
    AgreeOn ids (first.checkAndLockTx crypto tx).1 (second.checkAndLockTx crypto tx).1 := by
  rw [checkAndLockTx_state, checkAndLockTx_state, h.checkAndLockTx_result crypto hTx,
    h.relevantInputs_eq tx]
  split
  · refine ⟨h.running, h.outputRange, h.opts, ?_, ?_⟩
    · intro uhsId hId
      rw [Finset.mem_sdiff, Finset.mem_sdiff, h.uhs uhsId hId]
    · intro uhsId hId
      rw [Finset.mem_union, Finset.mem_union, h.locked uhsId hId]
  · exact h

/-- The locking loop returns the same results and leads to agreement again. -/
theorem AgreeOn.lockTxs (h : AgreeOn ids first second) {txs : List CompactTx}
    (hTxs : ∀ tx ∈ txs, ∀ uhsId ∈ tx.inputs, ids uhsId) :
    (lockTxs crypto first txs).2 = (lockTxs crypto second txs).2 ∧
      AgreeOn ids (lockTxs crypto first txs).1 (lockTxs crypto second txs).1 := by
  induction txs generalizing first second with
  | nil => exact ⟨rfl, h⟩
  | cons tx rest ih =>
      have hTx := hTxs tx List.mem_cons_self
      obtain ⟨hResults, hRest⟩ := ih (h.checkAndLockTx crypto hTx)
        fun later hLater => hTxs later (List.mem_cons_of_mem _ hLater)
      refine ⟨?_, hRest⟩
      simp only [LockingShard.lockTxs, h.checkAndLockTx_result crypto hTx, hResults]

theorem AgreeOn.applyTx (h : AgreeOn ids first second) (entry : CompactTx × Bool) :
    AgreeOn ids (first.applyTx entry) (second.applyTx entry) := by
  rw [applyTx_eq, applyTx_eq, h.relevantInputs_eq, h.relevantOutputs_eq]
  refine ⟨h.running, h.outputRange, h.opts, ?_, ?_⟩
  · intro uhsId hId
    cases entry.2 with
    | true => simp [h.uhs uhsId hId]
    | false => simp [h.uhs uhsId hId, h.locked uhsId hId]
  · intro uhsId hId
    rw [Finset.mem_sdiff, Finset.mem_sdiff, h.locked uhsId hId]

theorem AgreeOn.applyTxs (h : AgreeOn ids first second) (entries : List (CompactTx × Bool)) :
    AgreeOn ids (first.applyTxs entries) (second.applyTxs entries) := by
  induction entries generalizing first second with
  | nil => exact h
  | cons entry rest ih => exact ih (h.applyTx entry)

end Agreement

section Frame

variable {ids : Hash → Prop} (shard : LockingShard)

theorem mem_of_lockEntries {crypto : Crypto} {txs : List CompactTx} {entry : CompactTx × Bool}
    (h : entry ∈ lockEntries crypto shard txs) : entry.1 ∈ txs :=
  (List.of_mem_zip h).1

/-- Locking changes nothing about the IDs that are no inputs of the batch. -/
theorem agreeOn_lockTxs (crypto : Crypto) {txs : List CompactTx}
    (hTxs : ∀ uhsId, ids uhsId → ∀ tx ∈ txs, uhsId ∉ tx.inputs) :
    AgreeOn ids (lockTxs crypto shard txs).1 shard := by
  refine ⟨lockTxs_running .., lockTxs_outputRange .., lockTxs_opts .., ?_, ?_⟩
  · intro uhsId hId
    rw [mem_lockTxs_uhs]
    refine and_iff_left fun entry hEntry _ hRelevant => ?_
    exact hTxs uhsId hId entry.1 (mem_of_lockEntries shard hEntry) (mem_inRange.mp hRelevant).1
  · intro uhsId hId
    rw [mem_lockTxs_locked]
    refine or_iff_left ?_
    rintro ⟨entry, hEntry, _, hRelevant⟩
    exact hTxs uhsId hId entry.1 (mem_of_lockEntries shard hEntry) (mem_inRange.mp hRelevant).1

/-- Applying changes nothing about the IDs that the batch does not mention. -/
theorem agreeOn_applyTxs {entries : List (CompactTx × Bool)}
    (hEntries : ∀ uhsId, ids uhsId → ∀ entry ∈ entries,
      uhsId ∉ entry.1.inputs ∧ uhsId ∉ entry.1.uhsOutputs) :
    AgreeOn ids (shard.applyTxs entries) shard := by
  refine ⟨applyTxs_running .., applyTxs_outputRange .., applyTxs_opts .., ?_, ?_⟩
  · intro uhsId hId
    rw [mem_applyTxs_uhs]
    refine or_iff_left ?_
    rintro (⟨entry, hEntry, _, hRelevant⟩ | ⟨_, entry, hFirst, _⟩)
    · exact (hEntries uhsId hId entry hEntry).2 (mem_inRange.mp hRelevant).1
    · have hListed : uhsId ∈ shard.relevantInputs entry.1 := by
        simpa using List.find?_some hFirst
      exact (hEntries uhsId hId entry (List.mem_of_find?_eq_some hFirst)).1
        (mem_inRange.mp hListed).1
  · intro uhsId hId
    rw [mem_applyTxs_locked]
    refine and_iff_left fun entry hEntry hRelevant => ?_
    exact (hEntries uhsId hId entry hEntry).1 (mem_inRange.mp hRelevant).1

end Frame

section Answers

variable {crypto : Crypto} {shard next : LockingShard} {request : Request} {reply : Reply}

def Request.refusal (request : Request) : Reply :=
  match request.params with
  | .lock _ => .lock none
  | .apply _ => .apply false
  | .discard => .discard false

theorem answer_of_stopped (h : shard.running = false) :
    shard.answer crypto request = some (shard, request.refusal) := by
  obtain ⟨dtxId, params⟩ := request
  cases params <;>
    simp [answer, processRequest, lockOutputs, applyOutputs, discardDtx, h, Request.refusal,
      Except.toOption]

/-- On a running shard the answers are exactly the effects. -/
theorem answer_iff_effect (h : shard.running = true) :
    shard.answer crypto request = some (next, reply) ↔ Effect crypto shard request next reply := by
  constructor
  · intro hAnswer
    refine processRequest_effect h ?_
    cases hResult : shard.processRequest crypto request with
    | error fatal => simp [answer, hResult, Except.toOption] at hAnswer
    | ok result =>
        rw [answer, hResult] at hAnswer
        rw [Option.some.inj hAnswer]
  · intro hEffect
    rw [answer, hEffect.processRequest_eq h]
    rfl

/-- A dtx that the shard does not know passes its three phases. -/
theorem serve_requests (crypto : Crypto) {batch : Batch} (h : shard.Unknown batch.dtxId) :
    ∃ finish log, serve (answer crypto) shard batch.requests = some (finish, log) := by
  cases hRunning : shard.running with
  | false => simp [serve, Batch.requests, answer_of_stopped hRunning]
  | true =>
      have hLock : Effect crypto shard ⟨batch.dtxId, .lock batch.txs⟩ _ _ := .lock h.1
      have hPrepared : (shard.afterLock crypto batch.txs batch.dtxId).preparedDtxs.lookup
          batch.dtxId = some ⟨batch.txs, (lockTxs crypto shard batch.txs).2⟩ :=
        Table.lookup_emplace_self _ h.1
      have hApply : Effect crypto _ ⟨batch.dtxId, .apply batch.completeTxs⟩ _ _ :=
        .apply hPrepared batch.completeTxs_length
      have hRunningLock := hLock.running.trans hRunning
      have hRunningApply := hApply.running.trans hRunningLock
      have hDiscard : ∀ {state : LockingShard}, state.running = true →
          state.answer crypto ⟨batch.dtxId, .discard⟩ =
            some (state.afterDiscard batch.dtxId, .discard true) :=
        fun hState => (answer_iff_effect hState).mpr .discard
      simp [serve, Batch.requests, (answer_iff_effect hRunning).mpr hLock,
        (answer_iff_effect hRunningLock).mpr hApply, hDiscard hRunningApply]

end Answers

section Observation

/-- The UHS IDs that a dtx of the family mentions, and for no dtx those that
none of them mentions. -/
def Footprint (batches : List Batch) : Option Hash → Hash → Prop
  | some dtxId, uhsId => ∃ batch ∈ batches, batch.dtxId = dtxId ∧ batch.Mentions uhsId
  | none, uhsId => ∀ batch ∈ batches, ¬batch.Mentions uhsId

/-- What a dtx can observe of two shards is the same. -/
structure ObservesSame (batches : List Batch) (key : Option Hash) (first second : LockingShard) :
    Prop where
  agree : AgreeOn (Footprint batches key) first second
  preparedDtxs : ∀ dtxId, key = some dtxId →
    first.preparedDtxs.lookup dtxId = second.preparedDtxs.lookup dtxId
  appliedDtxs : ∀ dtxId, key = some dtxId →
    (dtxId ∈ first.appliedDtxs ↔ dtxId ∈ second.appliedDtxs)

theorem ObservesSame.symm {batches : List Batch} {key : Option Hash} {first second : LockingShard}
    (h : ObservesSame batches key first second) : ObservesSame batches key second first where
  agree := h.agree.symm
  preparedDtxs dtxId hKey := (h.preparedDtxs dtxId hKey).symm
  appliedDtxs dtxId hKey := (h.appliedDtxs dtxId hKey).symm

theorem ObservesSame.trans {batches : List Batch} {key : Option Hash}
    {first second third : LockingShard} (h : ObservesSame batches key first second)
    (hNext : ObservesSame batches key second third) : ObservesSame batches key first third where
  agree := h.agree.trans hNext.agree
  preparedDtxs dtxId hKey := (h.preparedDtxs dtxId hKey).trans (hNext.preparedDtxs dtxId hKey)
  appliedDtxs dtxId hKey := (h.appliedDtxs dtxId hKey).trans (hNext.appliedDtxs dtxId hKey)

/-- The dtxs of the family are prepared with their own transactions only. -/
def PreparedFrom (batches : List Batch) (shard : LockingShard) : Prop :=
  ∀ batch ∈ batches, ∀ dtx, shard.preparedDtxs.lookup batch.dtxId = some dtx → dtx.txs = batch.txs

variable {crypto : Crypto} {batches : List Batch} {shard alone next : LockingShard}
  {request : Request} {reply : Reply}

theorem Independent.unmentioned (h : Independent batches) {batch : Batch} (hBatch : batch ∈ batches)
    {key : Option Hash} (hKey : some batch.dtxId ≠ key) {uhsId : Hash}
    (hId : Footprint batches key uhsId) : ¬batch.Mentions uhsId := by
  cases key with
  | none => exact hId batch hBatch
  | some dtxId =>
      obtain ⟨owner, hOwner, rfl, hMentions⟩ := hId
      refine h.disjoint owner hOwner batch hBatch ?_ uhsId hMentions
      exact fun hSame => hKey (congrArg some hSame.symm)

/-- Two dtxs of the family with one ID are the same. -/
theorem Independent.eq_of_dtxId_eq (h : Independent batches) {first second : Batch}
    (hFirst : first ∈ batches) (hSecond : second ∈ batches) (hId : first.dtxId = second.dtxId) :
    first = second :=
  List.inj_on_of_nodup_map h.distinct hFirst hSecond hId

theorem PreparedFrom.effect (h : Independent batches) (hPrepared : PreparedFrom batches shard)
    {owner : Batch} (hOwner : owner ∈ batches) (hRequest : request ∈ owner.requests)
    (hEffect : Effect crypto shard request next reply) : PreparedFrom batches next := by
  intro batch hBatch dtx hDtx
  rcases hEffect.prepared_of hDtx with hBefore | rfl
  · exact hPrepared batch hBatch dtx hBefore
  · obtain rfl := h.eq_of_dtxId_eq hOwner hBatch (Batch.dtxId_of_mem_requests hRequest).symm
    exact Batch.txs_of_mem_requests hRequest

/-- A request touches nothing that another dtx observes. -/
theorem ObservesSame.other (h : Independent batches) (hPrepared : PreparedFrom batches shard)
    {owner : Batch} (hOwner : owner ∈ batches) (hRequest : request ∈ owner.requests)
    {key : Option Hash} (hKey : some request.dtxId ≠ key)
    (hSame : ObservesSame batches key shard alone)
    (hEffect : Effect crypto shard request next reply) : ObservesSame batches key next alone := by
  have hId := Batch.dtxId_of_mem_requests hRequest
  have hUnmentioned : ∀ uhsId, Footprint batches key uhsId → ∀ tx ∈ owner.txs,
      uhsId ∉ tx.inputs ∧ uhsId ∉ tx.uhsOutputs := by
    intro uhsId hFootprint tx hTx
    have hNot := h.unmentioned hOwner (hId ▸ hKey) hFootprint
    exact ⟨fun hIn => hNot ⟨tx, hTx, Or.inl hIn⟩, fun hOut => hNot ⟨tx, hTx, Or.inr hOut⟩⟩
  have hFrame : AgreeOn (Footprint batches key) next shard := by
    cases hEffect with
    | relock prepared => exact .refl shard
    | lock unprepared =>
        obtain rfl := Batch.txs_of_mem_requests hRequest
        have hLock := agreeOn_lockTxs shard crypto fun uhsId hFootprint tx hTx =>
          (hUnmentioned uhsId hFootprint tx hTx).1
        exact ⟨hLock.running, hLock.outputRange, hLock.opts, hLock.uhs, hLock.locked⟩
    | reapply unprepared applied => exact .refl shard
    | @apply dtxId completeTxs dtx prepared sameLength =>
        obtain rfl : dtxId = owner.dtxId := hId
        have hTxs := hPrepared owner hOwner dtx prepared
        have hApply := agreeOn_applyTxs shard fun uhsId hFootprint entry
          (hEntry : entry ∈ dtx.txs.zip completeTxs) =>
            hUnmentioned uhsId hFootprint entry.1 (hTxs ▸ (List.of_mem_zip hEntry).1)
        exact ⟨hApply.running, hApply.outputRange, hApply.opts, hApply.uhs, hApply.locked⟩
    | discard => exact ⟨rfl, rfl, rfl, fun _ _ => Iff.rfl, fun _ _ => Iff.rfl⟩
  have hOther : ∀ dtxId, key = some dtxId → dtxId ≠ request.dtxId := by
    rintro dtxId rfl rfl
    exact hKey rfl
  refine ⟨hFrame.trans hSame.agree, ?_, ?_⟩
  · intro dtxId hDtx
    rw [hEffect.preparedDtxs_of_ne (hOther dtxId hDtx), hSame.preparedDtxs dtxId hDtx]
  · intro dtxId hDtx
    rw [hEffect.appliedDtxs_of_ne (hOther dtxId hDtx), hSame.appliedDtxs dtxId hDtx]

/-- A request does to what its own dtx observes the same on both shards. -/
theorem ObservesSame.own {owner : Batch} (hOwner : owner ∈ batches)
    (hRequest : request ∈ owner.requests)
    (hSame : ObservesSame batches (some request.dtxId) shard alone)
    (hEffect : Effect crypto alone request next reply) :
    ∃ last, Effect crypto shard request last reply ∧
      ObservesSame batches (some request.dtxId) last next := by
  have hId := Batch.dtxId_of_mem_requests hRequest
  have hAgree := hSame.agree
  have hLookup := hSame.preparedDtxs _ rfl
  have hApplied := hSame.appliedDtxs _ rfl
  cases hEffect with
  | relock prepared => exact ⟨shard, .relock (hLookup.trans prepared), hSame⟩
  | @lock dtxId txs unprepared =>
      obtain rfl := Batch.txs_of_mem_requests hRequest
      have hInputs : ∀ tx ∈ owner.txs, ∀ uhsId ∈ tx.inputs,
          Footprint batches (some dtxId) uhsId := fun tx hTx uhsId hIn =>
        ⟨owner, hOwner, hId.symm, tx, hTx, Or.inl hIn⟩
      obtain ⟨hResults, hLock⟩ := hAgree.lockTxs crypto hInputs
      refine ⟨shard.afterLock crypto owner.txs dtxId, ?_, ?_⟩
      · rw [← hResults]
        exact .lock (hLookup.trans unprepared)
      · refine ⟨⟨hLock.running, hLock.outputRange, hLock.opts, hLock.uhs, hLock.locked⟩, ?_, ?_⟩
        · rintro _ ⟨⟩
          rw [afterLock, afterLock, Table.lookup_emplace_self _ (hLookup.trans unprepared),
            Table.lookup_emplace_self _ unprepared, hResults]
        · rintro _ ⟨⟩
          simpa [afterLock] using hApplied
  | reapply unprepared applied =>
      exact ⟨shard, .reapply (hLookup.trans unprepared) (hApplied.mpr applied), hSame⟩
  | @apply dtxId completeTxs dtx prepared sameLength =>
      refine ⟨shard.afterApply dtx completeTxs dtxId,
        .apply (hLookup.trans prepared) sameLength, ?_⟩
      have hApply := hAgree.applyTxs (dtx.txs.zip completeTxs)
      refine ⟨⟨hApply.running, hApply.outputRange, hApply.opts, hApply.uhs, hApply.locked⟩, ?_, ?_⟩
      · rintro _ ⟨⟩
        rw [afterApply, afterApply, Finmap.lookup_erase, Finmap.lookup_erase]
      · rintro _ ⟨⟩
        simp [afterApply]
  | @discard dtxId =>
      refine ⟨shard.afterDiscard dtxId, .discard, ?_⟩
      refine ⟨⟨hAgree.running, hAgree.outputRange, hAgree.opts, hAgree.uhs, hAgree.locked⟩, ?_, ?_⟩
      · rintro _ ⟨⟩
        exact hLookup
      · rintro _ ⟨⟩
        simp [afterDiscard]

/-- The dtxs of an independent family are separated on a shard. -/
theorem Independent.separated (crypto : Crypto) (h : Independent batches) :
    Separated (answer crypto) (fun request : Request => some request.dtxId)
      (fun request => ∃ batch ∈ batches, request ∈ batch.requests)
      (PreparedFrom batches) (ObservesSame batches) where
  keeps := by
    rintro shard request next reply hPrepared ⟨owner, hOwner, hRequest⟩ hAnswer
    cases hRunning : shard.running with
    | false =>
        rw [answer_of_stopped hRunning] at hAnswer
        cases hAnswer
        exact hPrepared
    | true =>
        exact hPrepared.effect h hOwner hRequest ((answer_iff_effect hRunning).mp hAnswer)
  own := by
    rintro shard alone request next reply _ _ ⟨owner, hOwner, hRequest⟩ hSame hAnswer
    cases hRunning : alone.running with
    | false =>
        rw [answer_of_stopped hRunning] at hAnswer
        cases hAnswer
        exact ⟨shard, answer_of_stopped (hSame.agree.running.trans hRunning), hSame⟩
    | true =>
        obtain ⟨last, hEffect, hLast⟩ := hSame.own hOwner hRequest
          ((answer_iff_effect hRunning).mp hAnswer)
        exact ⟨last, (answer_iff_effect (hSame.agree.running.trans hRunning)).mpr hEffect, hLast⟩
  other := by
    rintro key shard alone request next reply hPrepared ⟨owner, hOwner, hRequest⟩ hKey hSame hAnswer
    cases hRunning : shard.running with
    | false =>
        rw [answer_of_stopped hRunning] at hAnswer
        cases hAnswer
        exact hSame
    | true =>
        exact hSame.other h hPrepared hOwner hRequest hKey ((answer_iff_effect hRunning).mp hAnswer)

end Observation

section Schedules

variable {batches : List Batch}

/-- A schedule asks nothing for a dtx that is not in the family. -/
theorem Interleaves.filter_eq_nil {schedule : List Request} (h : Interleaves batches schedule)
    {key : Option Hash} (hKey : ¬∃ batch ∈ batches, key = some batch.dtxId) :
    schedule.filter (fun request => some request.dtxId = key) = [] := by
  refine List.filter_eq_nil_iff.mpr fun request hRequest hSame => hKey ?_
  obtain ⟨batch, hBatch, hMem⟩ := h.known request hRequest
  refine ⟨batch, hBatch, ?_⟩
  rw [← Batch.dtxId_of_mem_requests hMem]
  exact (of_decide_eq_true hSame).symm

/-- Two interleavings ask the same for every dtx. -/
theorem Interleaves.filter_eq {schedule other : List Request} (h : Interleaves batches schedule)
    (hOther : Interleaves batches other) (key : Option Hash) :
    schedule.filter (fun request => some request.dtxId = key) =
      other.filter fun request => some request.dtxId = key := by
  by_cases hKey : ∃ batch ∈ batches, key = some batch.dtxId
  · obtain ⟨batch, hBatch, rfl⟩ := hKey
    simp only [Option.some.injEq]
    rw [h.ordered batch hBatch, hOther.ordered batch hBatch]
  · rw [h.filter_eq_nil hKey, hOther.filter_eq_nil hKey]

/-- Of dtxs that run one after another, a dtx contributes its own requests. -/
theorem filter_serial {order : List Batch} (hDistinct : (order.map Batch.dtxId).Nodup)
    {batch : Batch} (hBatch : batch ∈ order) :
    (order.flatMap Batch.requests).filter (fun request => request.dtxId = batch.dtxId) =
      batch.requests := by
  have hOwn : ∀ other : Batch, other.requests.filter (fun request => request.dtxId = batch.dtxId) =
      if other.dtxId = batch.dtxId then other.requests else [] := by
    intro other
    split
    case isTrue h => simp [Batch.requests, h]
    case isFalse h => simp [Batch.requests, h]
  induction order with
  | nil => simp at hBatch
  | cons first rest ih =>
      rw [List.map_cons, List.nodup_cons] at hDistinct
      rw [List.flatMap_cons, List.filter_append, hOwn]
      rcases List.mem_cons.mp hBatch with rfl | hRest
      · have hLater : (rest.flatMap Batch.requests).filter
            (fun request => request.dtxId = batch.dtxId) = [] := by
          refine List.filter_eq_nil_iff.mpr fun request hRequest hSame => hDistinct.1 ?_
          obtain ⟨other, hOther, hMem⟩ := List.mem_flatMap.mp hRequest
          rw [← of_decide_eq_true hSame, Batch.dtxId_of_mem_requests hMem]
          exact List.mem_map_of_mem hOther
        rw [if_pos rfl, hLater, List.append_nil]
      · have hOther : first.dtxId ≠ batch.dtxId := fun hSame =>
          hDistinct.1 (hSame ▸ List.mem_map_of_mem hRest)
        rw [if_neg hOther, ih hDistinct.2 hRest, List.nil_append]

/-- Running the dtxs one after another is one of the interleavings. -/
theorem Independent.interleaves_serial (h : Independent batches) {order : List Batch}
    (hOrder : order.Perm batches) : Interleaves batches (order.flatMap Batch.requests) where
  known := by
    intro request hRequest
    obtain ⟨batch, hBatch, hMem⟩ := List.mem_flatMap.mp hRequest
    exact ⟨batch, hOrder.mem_iff.mp hBatch, hMem⟩
  ordered := by
    intro batch hBatch
    refine filter_serial ?_ (hOrder.mem_iff.mpr hBatch)
    exact (hOrder.map Batch.dtxId).nodup_iff.mpr h.distinct

variable (crypto : Crypto) (shard : LockingShard)

/-- Every interleaving succeeds and shows each dtx what it would see alone. -/
theorem Independent.serve_alone (h : Independent batches)
    (hUnknown : ∀ batch ∈ batches, shard.Unknown batch.dtxId) :
    ∃ (alone : Option Hash → LockingShard) (logs : Option Hash → List (Request × Reply)),
      ∀ schedule, Interleaves batches schedule →
        ∃ finish log, serve (answer crypto) shard schedule = some (finish, log) ∧
          ∀ key, ObservesSame batches key finish (alone key) ∧
            log.filter (fun entry => some entry.1.dtxId = key) = logs key := by
  have hSerial := h.interleaves_serial (List.Perm.refl batches)
  have hAlone : ∀ key : Option Hash, ∃ finish log, serve (answer crypto) shard
      ((batches.flatMap Batch.requests).filter fun request => some request.dtxId = key) =
        some (finish, log) := by
    intro key
    by_cases hKey : ∃ batch ∈ batches, key = some batch.dtxId
    · obtain ⟨batch, hBatch, rfl⟩ := hKey
      simp only [Option.some.injEq]
      rw [hSerial.ordered batch hBatch]
      exact serve_requests crypto (hUnknown batch hBatch)
    · rw [hSerial.filter_eq_nil hKey]
      exact ⟨shard, [], rfl⟩
  choose alone logs hRuns using hAlone
  have hPrepared : PreparedFrom batches shard := by
    intro batch hBatch dtx hDtx
    rw [(hUnknown batch hBatch).1] at hDtx
    cases hDtx
  refine ⟨alone, logs, fun schedule hSchedule => ?_⟩
  refine (h.separated crypto).serve_eq_alone hSchedule.known hPrepared fun key => ?_
  refine ⟨shard, hPrepared, ⟨.refl shard, fun _ _ => rfl, fun _ _ => Iff.rfl⟩, ?_⟩
  rw [hSchedule.filter_eq hSerial key]
  exact hRuns key

/-- Where each dtx observes the same and the rest is the same, the sets are
the same. -/
theorem sets_eq_of_observesSame {first second : LockingShard}
    (h : ∀ key, ObservesSame batches key first second) :
    first.uhs = second.uhs ∧ first.locked = second.locked := by
  have hAgree : ∀ uhsId, ∃ key, Footprint batches key uhsId := by
    intro uhsId
    by_cases hMentioned : ∃ batch ∈ batches, batch.Mentions uhsId
    · obtain ⟨batch, hBatch, hMentions⟩ := hMentioned
      exact ⟨some batch.dtxId, batch, hBatch, rfl, hMentions⟩
    · exact ⟨none, fun batch hBatch hMentions => hMentioned ⟨batch, hBatch, hMentions⟩⟩
  constructor
  · ext uhsId
    obtain ⟨key, hKey⟩ := hAgree uhsId
    exact (h key).agree.uhs uhsId hKey
  · ext uhsId
    obtain ⟨key, hKey⟩ := hAgree uhsId
    exact (h key).agree.locked uhsId hKey

/-- Independent dtxs commute on a shard: every interleaving of their requests
gets the replies of a serial execution and ends with its two sets. -/
theorem independent_dtxs_commute (h : Independent batches)
    (hUnknown : ∀ batch ∈ batches, shard.Unknown batch.dtxId) {schedule : List Request}
    (hSchedule : Interleaves batches schedule) {order : List Batch} (hOrder : order.Perm batches) :
    ∃ last log serialLast serialLog,
      serve (answer crypto) shard schedule = some (last, log) ∧
      serve (answer crypto) shard (order.flatMap Batch.requests) = some (serialLast, serialLog) ∧
      last.uhs = serialLast.uhs ∧ last.locked = serialLast.locked ∧
      ∀ batch ∈ batches, repliesTo batch.dtxId log = repliesTo batch.dtxId serialLog := by
  obtain ⟨alone, logs, hAll⟩ := h.serve_alone crypto shard hUnknown
  obtain ⟨last, log, hServe, hKeys⟩ := hAll schedule hSchedule
  obtain ⟨serialLast, serialLog, hSerial, hSerialKeys⟩ := hAll _ (h.interleaves_serial hOrder)
  have hSame : ∀ key, ObservesSame batches key last serialLast := fun key =>
    (hKeys key).1.trans (hSerialKeys key).1.symm
  obtain ⟨hUhs, hLocked⟩ := sets_eq_of_observesSame hSame
  refine ⟨last, log, serialLast, serialLog, hServe, hSerial, hUhs, hLocked, ?_⟩
  intro batch _
  have hReplies := (hKeys (some batch.dtxId)).2.trans (hSerialKeys (some batch.dtxId)).2.symm
  simpa only [repliesTo, Option.some.injEq] using hReplies

end Schedules

section Example

def conflictBatch : Batch where
  dtxId := Hash.ofByte 1
  txs := [.unattested (Hash.ofByte 10) [Hash.ofByte 20] [Hash.ofByte 21],
    .unattested (Hash.ofByte 11) [Hash.ofByte 20] [Hash.ofByte 22]]
  completeTxs := [true, false]
  completeTxs_length := rfl

def abortedBatch : Batch where
  dtxId := Hash.ofByte 2
  txs := [.unattested (Hash.ofByte 12) [Hash.ofByte 30] [Hash.ofByte 31]]
  completeTxs := [false]
  completeTxs_length := rfl

def commutationShard : LockingShard :=
  .initial (0, 255) 8 .noAttestations {Hash.ofByte 20, Hash.ofByte 30}

def commutationSchedule : List Request :=
  [⟨Hash.ofByte 1, .lock conflictBatch.txs⟩, ⟨Hash.ofByte 2, .lock abortedBatch.txs⟩,
    ⟨Hash.ofByte 2, .apply [false]⟩, ⟨Hash.ofByte 1, .apply [true, false]⟩,
    ⟨Hash.ofByte 1, .discard⟩, ⟨Hash.ofByte 2, .discard⟩]

theorem independent_dtxs_commute_pair :
    Independent [conflictBatch, abortedBatch] ∧
    Interleaves [conflictBatch, abortedBatch] commutationSchedule ∧
    ∃ last log serialLast serialLog,
      serve (answer Crypto.unused) commutationShard commutationSchedule = some (last, log) ∧
      serve (answer Crypto.unused) commutationShard
        ([abortedBatch, conflictBatch].flatMap Batch.requests) = some (serialLast, serialLog) ∧
      last.uhs = serialLast.uhs ∧ last.locked = serialLast.locked ∧
      ∀ batch ∈ [conflictBatch, abortedBatch],
        repliesTo batch.dtxId log = repliesTo batch.dtxId serialLog := by
  have hIds : ∀ first ∈ [20, 21, 22], ∀ second ∈ [30, 31],
      Hash.ofByte first ≠ Hash.ofByte second := by decide +kernel
  have hConflict : ∀ uhsId, conflictBatch.Mentions uhsId →
      ∃ byte ∈ [20, 21, 22], uhsId = Hash.ofByte byte := by
    intro uhsId hMentions
    simpa [Batch.Mentions, conflictBatch, CompactTx.unattested, or_assoc, or_comm,
      or_left_comm] using hMentions
  have hAborted : ∀ uhsId, abortedBatch.Mentions uhsId →
      ∃ byte ∈ [30, 31], uhsId = Hash.ofByte byte := by
    intro uhsId hMentions
    simpa [Batch.Mentions, abortedBatch, CompactTx.unattested] using hMentions
  have hDisjoint : ∀ uhsId, conflictBatch.Mentions uhsId → ¬abortedBatch.Mentions uhsId := by
    intro uhsId hFirst hSecond
    obtain ⟨first, hFirstByte, rfl⟩ := hConflict uhsId hFirst
    obtain ⟨second, hSecondByte, hSame⟩ := hAborted _ hSecond
    exact hIds first hFirstByte second hSecondByte hSame
  have hIndependent : Independent [conflictBatch, abortedBatch] := by
    refine ⟨by decide, ?_⟩
    simp only [List.forall_mem_cons, List.not_mem_nil, false_implies, implies_true, and_true, ne_eq,
      not_true_eq_false, true_and]
    exact ⟨fun _ => hDisjoint, fun _ uhsId hSecond hFirst => hDisjoint uhsId hFirst hSecond⟩
  have hSchedule : Interleaves [conflictBatch, abortedBatch] commutationSchedule :=
    ⟨by decide, by decide +kernel⟩
  refine ⟨hIndependent, hSchedule, ?_⟩
  exact independent_dtxs_commute Crypto.unused commutationShard hIndependent
    (by decide) hSchedule (List.Perm.swap _ _ _)

end Example

end OpenCbdc.LockingShard

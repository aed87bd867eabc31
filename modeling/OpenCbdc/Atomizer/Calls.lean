import OpenCbdc.Atomizer.Insert
import OpenCbdc.Library.Run

/-! Runs of the atomizer: the calls it receives, what each of them can do, and
which notifications are pending after a whole history of calls. -/
namespace OpenCbdc.Atomizer

open TransitionSystem

inductive Call where
  | insert (blockHeight : Nat) (tx : CompactTx) (attestations : Finset Nat)
  | insertComplete (oldestAttestation : Nat) (tx : CompactTx)
  | makeBlock
deriving DecidableEq

/-- A call as a transition. A fault ends the process. -/
def step (atomizer : Atomizer) : Call → Option Atomizer
  | .insert blockHeight tx attestations =>
      match atomizer.insert blockHeight tx attestations with
      | .error _ => none
      | .ok (next, _) => some next
  | .insertComplete oldestAttestation tx =>
      match atomizer.insertComplete oldestAttestation tx with
      | .error _ => none
      | .ok (next, _) => some next
  | .makeBlock => some atomizer.makeBlock.1

/-- The call moves the transaction to the complete ones. -/
def Accepts (atomizer : Atomizer) (call : Call) (tx : CompactTx) : Prop :=
  ∃ next, atomizer.step call = some next ∧ next.completeTxs = atomizer.completeTxs ++ [tx]

instance (atomizer : Atomizer) (call : Call) (tx : CompactTx) :
    Decidable (atomizer.Accepts call tx) :=
  decidable_of_iff ((atomizer.step call).any fun next =>
    next.completeTxs = atomizer.completeTxs ++ [tx]) (by simp [Accepts, Option.any_eq_true])

def CompletesTx (txId : Hash) (atomizer : Atomizer) (call : Call) : Prop :=
  ∃ blockHeight tx attestations moved, call = .insert blockHeight tx attestations ∧
    tx.id = txId ∧ atomizer.Accepts call moved

inductive Effect (atomizer : Atomizer) : Call → Atomizer → Prop where
  | outOfRange {blockHeight : Nat} {tx : CompactTx} {attestations : Finset Nat}
      (beyond : atomizer.spentCacheDepth < atomizer.getNotificationOffset blockHeight) :
      Effect atomizer (.insert blockHeight tx attestations) atomizer
  | file {blockHeight : Nat} {tx : CompactTx} {attestations : Finset Nat}
      (within : atomizer.getNotificationOffset blockHeight ≤ atomizer.spentCacheDepth) :
      Effect atomizer (.insert blockHeight tx attestations)
        (atomizer.notify (atomizer.getNotificationOffset blockHeight) tx attestations)
  | complete {blockHeight : Nat} {tx : CompactTx} {attestations : Finset Nat} {next : Atomizer}
      {moved : CompactTx}
      (within : atomizer.getNotificationOffset blockHeight ≤ atomizer.spentCacheDepth)
      (completes : Completes
        (atomizer.notify (atomizer.getNotificationOffset blockHeight) tx attestations)
        (atomizer.filedAs blockHeight tx) tx.id next moved) :
      Effect atomizer (.insert blockHeight tx attestations) next
  | refuse {oldestAttestation : Nat} {tx : CompactTx} :
      Effect atomizer (.insertComplete oldestAttestation tx) atomizer
  | accept {oldestAttestation : Nat} {tx : CompactTx}
      (unspent : ∀ offset ≤ atomizer.getNotificationOffset oldestAttestation, ∀ inp ∈ tx.inputs,
        ∃ spent, atomizer.spent[offset]? = some spent ∧ inp ∉ spent) :
      Effect atomizer (.insertComplete oldestAttestation tx)
        ((atomizer.addTxToStxoCache tx).pushComplete tx)
  | makeBlock : Effect atomizer .makeBlock atomizer.makeBlock.1

section Effect

variable {atomizer next : Atomizer} {call : Call}

/-- A call is refused, files a notification, completes a transaction or makes a block. -/
theorem effect_of_step (h : atomizer.step call = some next) : Effect atomizer call next := by
  cases call with
  | insert blockHeight tx attestations =>
      simp only [step] at h
      split at h
      · cases h
      case h_2 result err hInsert =>
          obtain rfl := Option.some.inj h
          rcases insert_cases hInsert with ⟨hBeyond, rfl⟩ | ⟨hWithin, rfl | ⟨moved, hCompletes⟩⟩
          · exact .outOfRange hBeyond
          · exact .file hWithin
          · exact .complete hWithin hCompletes
  | insertComplete oldestAttestation tx =>
      simp only [step] at h
      split at h
      · cases h
      case h_2 result err hInsert =>
          obtain rfl := Option.some.inj h
          cases err with
          | none =>
              obtain ⟨rfl, hUnspent⟩ := insertComplete_accepted hInsert
              exact .accept hUnspent
          | some err =>
              rw [insertComplete_refused hInsert]
              exact .refuse
  | makeBlock =>
      cases h
      exact .makeBlock

theorem Effect.spentCacheDepth (h : Effect atomizer call next) :
    next.spentCacheDepth = atomizer.spentCacheDepth := by
  cases h with
  | outOfRange | refuse | accept | makeBlock => rfl
  | file within => exact (notify_frame _ _ _).2.2.2
  | complete within completes =>
      exact completes.spentCacheDepth.trans (notify_frame _ _ _).2.2.2

/-- Only a new block raises the height. -/
theorem Effect.bestHeight (h : Effect atomizer call next) :
    next.bestHeight = atomizer.bestHeight + if call = .makeBlock then 1 else 0 := by
  cases h with
  | outOfRange | refuse | accept => rfl
  | makeBlock => rfl
  | file within => simp [(notify_frame _ _ _).2.2.1]
  | complete within completes => simp [completes.bestHeight, (notify_frame _ _ _).2.2.1]

theorem accepts_iff (h : atomizer.step call = some next) (tx : CompactTx) :
    atomizer.Accepts call tx ↔ next.completeTxs = atomizer.completeTxs ++ [tx] := by
  constructor
  · rintro ⟨other, hOther, hTx⟩
    obtain rfl : next = other := Option.some.inj (h.symm.trans hOther)
    exact hTx
  · exact fun hTx => ⟨next, h, hTx⟩

/-- A call that completes nothing leaves the complete transactions alone. -/
theorem not_completesTx (h : atomizer.step call = some next) (txId : Hash)
    (hSame : next.completeTxs = atomizer.completeTxs) : ¬CompletesTx txId atomizer call := by
  rintro ⟨_, _, _, moved, _, _, hAccepts⟩
  have hMoved := (accepts_iff h moved).mp hAccepts
  rw [hSame] at hMoved
  simp at hMoved

/-- A transaction is accepted by one of two calls. -/
theorem Effect.accepts_cases (h : Effect atomizer call next) {tx : CompactTx}
    (hTx : next.completeTxs = atomizer.completeTxs ++ [tx]) :
    (∃ blockHeight notified attestations, call = .insert blockHeight notified attestations ∧
      atomizer.getNotificationOffset blockHeight ≤ atomizer.spentCacheDepth ∧
      Completes (atomizer.notify (atomizer.getNotificationOffset blockHeight) notified attestations)
        (atomizer.filedAs blockHeight notified) notified.id next tx) ∨
    ∃ oldestAttestation, call = .insertComplete oldestAttestation tx ∧
      next = (atomizer.addTxToStxoCache tx).pushComplete tx ∧
      ∀ offset ≤ atomizer.getNotificationOffset oldestAttestation, ∀ inp ∈ tx.inputs,
        ∃ spent, atomizer.spent[offset]? = some spent ∧ inp ∉ spent := by
  cases h with
  | outOfRange beyond => simp at hTx
  | file within => simp [(notify_frame _ _ _).1] at hTx
  | @complete blockHeight notified attestations _ moved within completes =>
      have hMoved := completes.completeTxs
      rw [(notify_frame _ _ _).1, hTx] at hMoved
      obtain rfl := List.singleton_inj.mp (List.append_cancel_left hMoved)
      exact Or.inl ⟨blockHeight, notified, attestations, rfl, within, completes⟩
  | refuse => simp at hTx
  | @accept oldestAttestation other unspent =>
      obtain rfl := List.singleton_inj.mp (List.append_cancel_left hTx)
      exact Or.inr ⟨oldestAttestation, rfl, rfl, unspent⟩
  | makeBlock => simp [Atomizer.makeBlock] at hTx

end Effect

section Heights

variable {start finish : Atomizer} {calls : List Call}

/-- The depth of the caches is fixed, and heights never fall. -/
theorem frame_of_run (h : run step start calls = some finish) :
    finish.spentCacheDepth = start.spentCacheDepth ∧ start.bestHeight ≤ finish.bestHeight := by
  refine run_invariant (motive := fun state => state.spentCacheDepth = start.spentCacheDepth ∧
    start.bestHeight ≤ state.bestHeight) ⟨rfl, Nat.le_refl _⟩ ?_ h
  rintro state call next ⟨hDepth, hHeight⟩ hStep
  have hEffect := effect_of_step hStep
  refine ⟨hEffect.spentCacheDepth.trans hDepth, ?_⟩
  rw [hEffect.bestHeight]
  omega

/-- A state that a run has passed is not higher than its end. -/
theorem bestHeight_le_of_passed {before after : List Call} {state : Atomizer}
    (hRun : run step start calls = some finish) (hCalls : calls = before ++ after)
    (hState : run step start before = some state) : state.bestHeight ≤ finish.bestHeight := by
  rw [hCalls, run_append, hState] at hRun
  exact (frame_of_run hRun).2

end Heights

section History

variable {start finish : Atomizer} {calls : List Call}

/-- The call files a notification of the transaction, whose slot has moved to
the given offset by the time the atomizer has the given height. -/
def Files (txId : Hash) (offset height : Nat) (atomizer : Atomizer) (call : Call) : Prop :=
  ∃ blockHeight tx attestations, call = .insert blockHeight tx attestations ∧ tx.id = txId ∧
    atomizer.getNotificationOffset blockHeight ≤ atomizer.spentCacheDepth ∧
    atomizer.getNotificationOffset blockHeight + height = offset + atomizer.bestHeight

/-- A block shifts every slot by one, and the oldest slot is dropped. -/
theorem pendingAt_makeBlock (atomizer : Atomizer) (offset : Nat) (txId : Hash) :
    atomizer.makeBlock.1.pendingAt offset txId =
      match offset with
      | 0 => none
      | before + 1 => if before < atomizer.spentCacheDepth then atomizer.pendingAt before txId
          else none := by
  rw [pendingAt, makeBlock_txs]
  cases offset with
  | zero => simp
  | succ before =>
      rw [List.getElem?_cons_succ, List.getElem?_take]
      by_cases hBefore : before < atomizer.spentCacheDepth
      · rw [if_pos hBefore]
        simp [hBefore, pendingAt]
      · simp [hBefore]

theorem files_insert {txId : Hash} {offset blockHeight : Nat} {atomizer : Atomizer}
    {tx : CompactTx} {attestations : Finset Nat} :
    Files txId offset atomizer.bestHeight atomizer (.insert blockHeight tx attestations) ↔
      tx.id = txId ∧ atomizer.getNotificationOffset blockHeight ≤ atomizer.spentCacheDepth ∧
        atomizer.getNotificationOffset blockHeight = offset := by
  constructor
  · rintro ⟨_, _, _, hCall, hId, hWithin, hOffset⟩
    cases hCall
    exact ⟨hId, hWithin, by omega⟩
  · rintro ⟨hId, hWithin, rfl⟩
    exact ⟨blockHeight, tx, attestations, rfl, hId, hWithin, rfl⟩

/-- With a new block every slot moves on by one. -/
theorem files_succ (txId : Hash) (offset height : Nat) :
    Files txId (offset + 1) (height + 1) = Files txId offset height := by
  funext atomizer call
  simp only [Files, eq_iff_iff]
  constructor
  · rintro ⟨blockHeight, tx, attestations, hCall, hId, hWithin, hOffset⟩
    exact ⟨blockHeight, tx, attestations, hCall, hId, hWithin, by omega⟩
  · rintro ⟨blockHeight, tx, attestations, hCall, hId, hWithin, hOffset⟩
    exact ⟨blockHeight, tx, attestations, hCall, hId, hWithin, by omega⟩

/-- Nothing has been filed for a height that was not reached. -/
theorem not_since_files_zero {txId : Hash} {kept : Atomizer → Call → Prop}
    (h : run step start calls = some finish) :
    ¬Since step start calls (Files txId 0 (finish.bestHeight + 1)) kept := by
  rintro ⟨before, call, after, state, hCalls, hState, ⟨_, _, _, _, _, _, hOffset⟩, _⟩
  have hPassed := bestHeight_le_of_passed h hCalls hState
  omega

/-- A slot holds an entry of the transaction exactly if a notification of it was
filed there and the transaction has not been completed by a notification since. -/
def Waits (start : Atomizer) (txId : Hash) (calls : List Call) (state : Atomizer) : Prop :=
  ∀ offset, (∃ entry, state.pendingAt offset txId = some entry) ↔
    offset ≤ state.spentCacheDepth ∧
      Since step start calls (Files txId offset state.bestHeight)
        fun state call => ¬CompletesTx txId state call

section Waits

variable {state next : Atomizer} {call : Call} {txId : Hash}

/-- A call that concerns neither the pending entries nor the height. -/
theorem Waits.quiet (h : Waits start txId calls state) (hRun : run step start calls = some state)
    (hPending : ∀ offset, next.pendingAt offset txId = state.pendingAt offset txId)
    (hHeight : next.bestHeight = state.bestHeight)
    (hDepth : next.spentCacheDepth = state.spentCacheDepth)
    (hFiles : ∀ offset, ¬Files txId offset state.bestHeight state call)
    (hCompletes : ¬CompletesTx txId state call) : Waits start txId (calls ++ [call]) next := by
  intro offset
  rw [since_concat hRun, hPending, hHeight, hDepth, h offset]
  simp only [hFiles, hCompletes, not_false_eq_true, true_and, false_or]

/-- Filing a notification puts an entry in one slot, and that call is the one the slot waits
since. -/
theorem Waits.file (h : Waits start txId calls state) (hRun : run step start calls = some state)
    {blockHeight : Nat} {tx : CompactTx} {attestations : Finset Nat}
    (hWithin : state.getNotificationOffset blockHeight ≤ state.spentCacheDepth)
    (hCompletes : ¬CompletesTx txId state (.insert blockHeight tx attestations)) :
    Waits start txId (calls ++ [.insert blockHeight tx attestations])
      (state.notify (state.getNotificationOffset blockHeight) tx attestations) := by
  intro offset
  obtain ⟨_, _, hHeight, hDepth⟩ := @notify_frame state (state.getNotificationOffset blockHeight)
    tx attestations
  rw [since_concat hRun, hHeight, hDepth, files_insert, pendingAt_notify hWithin]
  simp only [hCompletes, not_false_eq_true, true_and]
  by_cases hHere : offset = state.getNotificationOffset blockHeight ∧ txId = tx.id
  · rw [if_pos hHere]
    exact iff_of_true ⟨_, rfl⟩
      ⟨hHere.1 ▸ hWithin, Or.inl ⟨hHere.2.symm, hWithin, hHere.1.symm⟩⟩
  · rw [if_neg hHere, h offset]
    refine and_congr_right fun _ => (or_iff_right ?_).symm
    rintro ⟨hId, _, hOffset⟩
    exact hHere ⟨hOffset.symm, hId.symm⟩

/-- The entries of a completed transaction are gone, and so is their history. -/
theorem Waits.complete (hRun : run step start calls = some state)
    (hCompletes : CompletesTx txId state call)
    (hPending : ∀ offset, next.pendingAt offset txId = none) :
    Waits start txId (calls ++ [call]) next := by
  intro offset
  rw [since_concat hRun, hPending]
  simp [hCompletes]

/-- A block shifts the slots and the heights together, so each slot keeps its notification.
-/
theorem Waits.makeBlock (h : Waits start txId calls state)
    (hRun : run step start calls = some state) :
    Waits start txId (calls ++ [.makeBlock]) state.makeBlock.1 := by
  intro offset
  have hFiles : ∀ height, ¬Files txId offset height state .makeBlock := by
    rintro height ⟨_, _, _, hCall, _⟩
    cases hCall
  have hCompletes : ¬CompletesTx txId state .makeBlock := by
    rintro ⟨_, _, _, _, hCall, _⟩
    cases hCall
  rw [since_concat hRun, pendingAt_makeBlock]
  simp only [hFiles, hCompletes, not_false_eq_true, true_and, false_or]
  show _ ↔ offset ≤ state.spentCacheDepth ∧
    Since step start calls (Files txId offset (state.bestHeight + 1)) _
  cases offset with
  | zero => simp [not_since_files_zero hRun]
  | succ before =>
      rw [files_succ]
      by_cases hBefore : before < state.spentCacheDepth
      · simp only [hBefore, ↓reduceIte, h before]
        exact and_congr_left' (iff_of_true (Nat.le_of_lt hBefore) hBefore)
      · refine iff_of_false (by simp [hBefore]) ?_
        rintro ⟨hWithin, _⟩
        exact hBefore hWithin

/-- Every call keeps to the history. -/
theorem Waits.effect (h : Waits start txId calls state) (hRun : run step start calls = some state)
    (hStep : state.step call = some next) : Waits start txId (calls ++ [call]) next := by
  cases effect_of_step hStep with
  | @outOfRange blockHeight tx attestations beyond =>
      refine h.quiet hRun (fun _ => rfl) rfl rfl (fun offset => ?_) (not_completesTx hStep txId rfl)
      rw [files_insert]
      rintro ⟨_, hWithin, _⟩
      omega
  | file within =>
      exact h.file hRun within (not_completesTx hStep txId (notify_frame _ _ _).1)
  | @complete blockHeight tx attestations _ moved within completes =>
      obtain ⟨hComplete, _, hHeight, hDepth⟩ := @notify_frame state
        (state.getNotificationOffset blockHeight) tx attestations
      by_cases hId : txId = tx.id
      · refine Waits.complete hRun ?_ fun offset => by rw [completes.pendingAt, if_pos hId]
        exact ⟨blockHeight, tx, attestations, moved, rfl, hId.symm,
          (accepts_iff hStep moved).mpr (hComplete ▸ completes.completeTxs)⟩
      · refine h.quiet hRun (fun offset => ?_) (completes.bestHeight.trans hHeight)
          (completes.spentCacheDepth.trans hDepth) (fun offset => ?_) ?_
        · rw [completes.pendingAt, if_neg hId, pendingAt_notify within,
            if_neg fun hBoth => hId hBoth.2]
        · rw [files_insert]
          exact fun hFiled => hId hFiled.1.symm
        · rintro ⟨_, _, _, _, hCall, hSame, _⟩
          cases hCall
          exact hId hSame.symm
  | refuse =>
      refine h.quiet hRun (fun _ => rfl) rfl rfl (fun _ => ?_) (not_completesTx hStep txId rfl)
      rintro ⟨_, _, _, hCall, _⟩
      cases hCall
  | accept unspent =>
      refine h.quiet hRun (fun _ => rfl) rfl rfl (fun _ => ?_) ?_
      · rintro ⟨_, _, _, hCall, _⟩
        cases hCall
      · rintro ⟨_, _, _, _, hCall, _⟩
        cases hCall
  | makeBlock => exact h.makeBlock hRun

end Waits

theorem pendingAt_new (bestHeight stxoCacheDepth offset : Nat) (txId : Hash) :
    (new bestHeight stxoCacheDepth).pendingAt offset txId = none := by
  rw [pendingAt, new, List.getElem?_replicate]
  split <;> simp

/-- What is pending after any run of a new atomizer. -/
theorem waits_of_run {bestHeight stxoCacheDepth : Nat}
    (h : run step (new bestHeight stxoCacheDepth) calls = some finish) (txId : Hash) :
    Waits (new bestHeight stxoCacheDepth) txId calls finish := by
  refine run_induction (motive := Waits (new bestHeight stxoCacheDepth) txId) ?_ ?_ h
  · intro offset
    simp [pendingAt_new, since_nil]
  · intro calls state call next hRun hWaits hStep
    exact hWaits.effect hRun hStep

end History

section Sources

variable {start finish state next : Atomizer} {calls : List Call}

def Attests (txId : Hash) (index : Nat) (atomizer : Atomizer) (call : Call) : Prop :=
  ∃ blockHeight tx attestations, call = .insert blockHeight tx attestations ∧
    atomizer.getNotificationOffset blockHeight ≤ atomizer.spentCacheDepth ∧
    tx.id = txId ∧ index ∈ attestations

/-- An entry holds a transaction and attestations from notifications for its ID. -/
structure FromCalls (start : Atomizer) (calls : List Call) (txId : Hash)
    (entry : CompactTx × Finset Nat) : Prop where
  key : ∃ blockHeight attestations, Call.insert blockHeight entry.1 attestations ∈ calls
  id : entry.1.id = txId
  attested : ∀ index ∈ entry.2, Happened step start calls (Attests txId index)

theorem FromCalls.later {txId : Hash} {entry : CompactTx × Finset Nat}
    (h : FromCalls start calls txId entry) (more : List Call) :
    FromCalls start (calls ++ more) txId entry where
  key := by
    obtain ⟨blockHeight, attestations, hMem⟩ := h.key
    exact ⟨blockHeight, attestations, List.mem_append_left _ hMem⟩
  id := h.id
  attested index hIndex := (h.attested index hIndex).later more

def Sourced (start : Atomizer) (calls : List Call) (state : Atomizer) : Prop :=
  ∀ offset txId entry, state.pendingAt offset txId = some entry → FromCalls start calls txId entry

/-- A call that files nothing only moves or clears entries. -/
theorem Sourced.subset (h : Sourced start calls state)
    (hSubset : ∀ offset txId entry, next.pendingAt offset txId = some entry →
      ∃ before, state.pendingAt before txId = some entry) (more : List Call) :
    Sourced start (calls ++ more) next := by
  intro offset txId entry hEntry
  obtain ⟨before, hBefore⟩ := hSubset offset txId entry hEntry
  exact (h before txId entry hBefore).later more

/-- The entry of a slot is made of the notification and of the entry that was there before.
-/
theorem Sourced.notify (h : Sourced start calls state) (hRun : run step start calls = some state)
    {blockHeight : Nat} (hWithin : state.getNotificationOffset blockHeight ≤ state.spentCacheDepth)
    (tx : CompactTx) (attestations : Finset Nat) :
    Sourced start (calls ++ [.insert blockHeight tx attestations])
      (state.notify (state.getNotificationOffset blockHeight) tx attestations) := by
  have hCall : ∀ index ∈ attestations, Happened step start
      (calls ++ [.insert blockHeight tx attestations]) (Attests tx.id index) := fun index hIndex =>
    Happened.last hRun ⟨blockHeight, tx, attestations, rfl, hWithin, rfl, hIndex⟩
  intro offset txId entry hEntry
  rw [pendingAt_notify hWithin] at hEntry
  split at hEntry
  case isFalse => exact (h offset txId entry hEntry).later _
  case isTrue hHere =>
      rw [hHere.2]
      cases hKnown : state.pendingAt (state.getNotificationOffset blockHeight) tx.id with
      | none =>
          rw [hKnown] at hEntry
          obtain rfl := Option.some.inj hEntry
          exact ⟨⟨blockHeight, attestations, List.mem_append_right _ (List.mem_singleton_self _)⟩,
            rfl, hCall⟩
      | some known =>
          rw [hKnown] at hEntry
          obtain rfl := Option.some.inj hEntry
          have hBefore := (h _ _ known hKnown).later [.insert blockHeight tx attestations]
          refine ⟨hBefore.key, hBefore.id, fun index hIndex => ?_⟩
          rcases Finset.mem_union.mp hIndex with hOld | hNew
          · exact hBefore.attested index hOld
          · exact hCall index hNew

/-- The key under which a notification is filed comes from a notification. -/
theorem Sourced.filedAs (h : Sourced start calls state) (hRun : run step start calls = some state)
    {blockHeight : Nat} (hWithin : state.getNotificationOffset blockHeight ≤ state.spentCacheDepth)
    (tx : CompactTx) (attestations : Finset Nat) :
    ∃ attested, FromCalls start (calls ++ [.insert blockHeight tx attestations]) tx.id
      (state.filedAs blockHeight tx, attested) := by
  have hEntry := pendingAt_notify hWithin tx attestations
    (state.getNotificationOffset blockHeight) tx.id
  rw [if_pos ⟨rfl, rfl⟩] at hEntry
  rw [Atomizer.filedAs, ← mergeEntry_fst _ tx attestations]
  exact ⟨_, h.notify hRun hWithin tx attestations _ _ _ hEntry⟩

/-- The attestations that `insert` adds up were filed by notifications. -/
theorem Sourced.attests_of_gathered (h : Sourced start calls state) {txId : Hash} {index : Nat}
    (hIndex : index ∈ (state.gather txId).totalAttestations) :
    Happened step start calls (Attests txId index) := by
  obtain ⟨offset, entry, _, hEntry, hAttested⟩ :=
    ((gathers_gather state txId).total index).mp hIndex
  exact (h offset txId entry hEntry).attested index hAttested

/-- Whatever a call does, the pending entries go on to come from notifications of the run.
-/
theorem Sourced.effect {call : Call} (h : Sourced start calls state)
    (hRun : run step start calls = some state) (hEffect : Effect state call next) :
    Sourced start (calls ++ [call]) next := by
  cases hEffect with
  | outOfRange | refuse | accept => exact h.subset (fun offset _ _ hEntry => ⟨offset, hEntry⟩) _
  | file within => exact h.notify hRun within _ _
  | complete within completes =>
      intro offset txId entry hEntry
      rw [completes.pendingAt] at hEntry
      split at hEntry
      · cases hEntry
      · exact h.notify hRun within _ _ offset txId entry hEntry
  | makeBlock =>
      refine h.subset (fun offset txId entry hEntry => ?_) _
      rw [pendingAt_makeBlock] at hEntry
      cases offset with
      | zero => cases hEntry
      | succ before =>
          dsimp only at hEntry
          split at hEntry
          · exact ⟨before, hEntry⟩
          · cases hEntry

/-- Nothing is pending that no notification has brought. -/
theorem sourced_of_run {bestHeight stxoCacheDepth : Nat}
    (h : run step (new bestHeight stxoCacheDepth) calls = some finish) :
    Sourced (new bestHeight stxoCacheDepth) calls finish := by
  refine run_induction (motive := Sourced (new bestHeight stxoCacheDepth)) ?_ ?_ h
  · intro offset txId entry hEntry
    rw [pendingAt_new] at hEntry
    cases hEntry
  · intro calls state call next hRun hSourced hStep
    exact hSourced.effect hRun (effect_of_step hStep)

end Sources

section Reports

variable {start finish : Atomizer} {calls : List Call} {tx : CompactTx}

/-- The entries that leave the cache with a new block are reported. -/
theorem mem_makeBlock_errs (atomizer : Atomizer) (txId : Hash) :
    (⟨txId, .incomplete⟩ : TxError) ∈ atomizer.makeBlock.2.2 ↔
      ∃ entry, atomizer.pendingAt atomizer.spentCacheDepth txId = some entry := by
  obtain ⟨slot, hSlot⟩ := exists_slot (Nat.le_refl atomizer.spentCacheDepth)
  simp only [Atomizer.makeBlock, pendingAt, hSlot, Option.elim_some, Option.bind_some,
    Finset.mem_image, Finmap.mem_keys]
  constructor
  · rintro ⟨other, hOther, hErr⟩
    obtain rfl : other = txId := congrArg TxError.txId hErr
    exact Finmap.mem_iff.mp hOther
  · exact fun hEntry => ⟨txId, Finmap.mem_iff.mpr hEntry, rfl⟩

/-- The transaction that a notification moves has the ID of the one it is for. -/
theorem id_moved {bestHeight stxoCacheDepth : Nat} {atomizer : Atomizer}
    (hRun : run step (new bestHeight stxoCacheDepth) calls = some atomizer) {blockHeight : Nat}
    {notified moved : CompactTx} {attestations : Finset Nat}
    (hMoved : atomizer.Accepts (.insert blockHeight notified attestations) moved) :
    moved.id = notified.id := by
  obtain ⟨next, hStep, hComplete⟩ := hMoved
  rcases (effect_of_step hStep).accepts_cases hComplete with
    ⟨_, _, _, hCall, hWithin, hCompletes⟩ | ⟨_, hCall, _⟩
  · cases hCall
    obtain ⟨attested, hOldest⟩ := hCompletes.oldest
    exact ((sourced_of_run hRun).notify hRun hWithin _ _ _ _ _ hOldest).id
  · cases hCall

/-- A notification has completed the transaction, and a block has it. -/
def Confirmed (start : Atomizer) (calls : List Call) (tx : CompactTx) : Prop :=
  ∃ before after state, calls = before ++ .makeBlock :: after ∧
    run step start before = some state ∧ tx ∈ state.makeBlock.2.1.transactions ∧
    Happened step start before fun earlier call =>
      ∃ blockHeight notified attestations, call = .insert blockHeight notified attestations ∧
        earlier.Accepts call tx

theorem Confirmed.happened {bestHeight stxoCacheDepth : Nat}
    (h : Confirmed (new bestHeight stxoCacheDepth) calls tx) :
    Happened step (new bestHeight stxoCacheDepth) calls (CompletesTx tx.id) := by
  obtain ⟨before, after, _, rfl, _, _, first, call, rest, state, rfl, hState, hCompletes⟩ := h
  obtain ⟨blockHeight, notified, attestations, rfl, hAccepts⟩ := hCompletes
  refine Happened.later ⟨first, _, rest, state, rfl, hState, ?_⟩ _
  exact ⟨blockHeight, notified, attestations, tx, rfl,
    (id_moved hState hAccepts).symm, hAccepts⟩

/-- After the transaction was completed a further notification of it was filed.
The notification has since moved to the last slot, and the transaction was not
completed a second time. -/
def LateNotification (start : Atomizer) (calls : List Call) (finish : Atomizer) (txId : Hash) :
    Prop :=
  ∃ before call after state, calls = before ++ call :: after ∧
    run step start before = some state ∧
    Files txId finish.spentCacheDepth finish.bestHeight state call ∧
    Guarded step state (fun state call => ¬CompletesTx txId state call) (call :: after) ∧
    Happened step start before (CompletesTx txId)

/-- A confirmed transaction is reported as incomplete with the next block
exactly if a late notification of it has been filed. -/
theorem confirmed_reported_iff_late {bestHeight stxoCacheDepth : Nat}
    (hRun : run step (new bestHeight stxoCacheDepth) calls = some finish)
    (hConfirmed : Confirmed (new bestHeight stxoCacheDepth) calls tx) :
    (⟨tx.id, .incomplete⟩ : TxError) ∈ finish.makeBlock.2.2 ↔
      LateNotification (new bestHeight stxoCacheDepth) calls finish tx.id := by
  rw [mem_makeBlock_errs, waits_of_run hRun tx.id, and_iff_right (Nat.le_refl _)]
  constructor
  · intro hSince
    exact hSince.exists_after hConfirmed.happened fun _ _ hCompletes hNot => hNot hCompletes
  · rintro ⟨before, call, after, state, hCalls, hState, hFiles, hGuard, _⟩
    exact ⟨before, call, after, state, hCalls, hState, hFiles, hGuard⟩

/-- A notification is delivered again after its transaction is in a block. -/
def deliveredTwice : List Call :=
  let notification := .insert 0 (.unattested (.ofByte 1) [.ofByte 2] [.ofByte 3]) {0}
  [notification, .makeBlock, notification]

theorem confirmed_deliveredTwice :
    Confirmed (new 0 1) deliveredTwice (.unattested (.ofByte 1) [.ofByte 2] [.ofByte 3]) := by
  have hTest : (run step (new 0 1) (deliveredTwice.take 1)).any (fun atomizer =>
      .unattested (.ofByte 1) [.ofByte 2] [.ofByte 3] ∈ atomizer.completeTxs) = true := by
    decide +kernel
  obtain ⟨state, hRun, hComplete⟩ := exists_run_of_test hTest
  exact ⟨deliveredTwice.take 1, deliveredTwice.drop 2, state, rfl, hRun,
    of_decide_eq_true hComplete, [], _, [], new 0 1, rfl, rfl, 0, _, _, rfl, by decide +kernel⟩

theorem reported_deliveredTwice :
    ∃ finish, run step (new 0 1) deliveredTwice = some finish ∧
      (⟨.ofByte 1, .incomplete⟩ : TxError) ∈ finish.makeBlock.2.2 := by
  have hTest : (run step (new 0 1) deliveredTwice).any (fun atomizer =>
      (⟨.ofByte 1, .incomplete⟩ : TxError) ∈ atomizer.makeBlock.2.2) = true := by
    decide +kernel
  obtain ⟨finish, hRun, hReported⟩ := exists_run_of_test hTest
  exact ⟨finish, hRun, of_decide_eq_true hReported⟩

/-- The transaction is in the first block, and the second one reports it. -/
theorem confirmed_tx_reported :
    ∃ finish, run step (new 0 1) deliveredTwice = some finish ∧
      Confirmed (new 0 1) deliveredTwice (.unattested (.ofByte 1) [.ofByte 2] [.ofByte 3]) ∧
      (⟨.ofByte 1, .incomplete⟩ : TxError) ∈ finish.makeBlock.2.2 := by
  obtain ⟨finish, hRun, hReported⟩ := reported_deliveredTwice
  exact ⟨finish, hRun, confirmed_deliveredTwice, hReported⟩

theorem confirmed_reported_iff_late_deliveredTwice :
    ∃ finish, run step (new 0 1) deliveredTwice = some finish ∧
      LateNotification (new 0 1) deliveredTwice finish (.ofByte 1) := by
  obtain ⟨finish, hRun, hReported⟩ := reported_deliveredTwice
  exact ⟨finish, hRun, (confirmed_reported_iff_late hRun confirmed_deliveredTwice).mp hReported⟩

end Reports

end OpenCbdc.Atomizer

import OpenCbdc.Atomizer.Calls

/-! The spent cache over whole runs. Each slot belongs to one height, and a
transaction that is accepted later cannot have been attested before an input of
it was spent. -/
namespace OpenCbdc.Atomizer

open TransitionSystem

def SpentAt (atomizer : Atomizer) (offset : Nat) (inp : Hash) : Prop :=
  ∃ spent, atomizer.spent[offset]? = some spent ∧ inp ∈ spent

def AcceptsInput (inp : Hash) (atomizer : Atomizer) (call : Call) : Prop :=
  ∃ tx, atomizer.Accepts call tx ∧ inp ∈ tx.inputs

/-- The input is accepted at the height that has the given distance. -/
def AcceptedAt (inp : Hash) (offset height : Nat) (atomizer : Atomizer) (call : Call) : Prop :=
  atomizer.bestHeight + offset = height ∧ AcceptsInput inp atomizer call

/-- The heights of the attestations that are used for the transaction of a call.
A notification uses all that are pending, itself included. -/
def Uses (atomizer : Atomizer) (call : Call) (height : Nat) : Prop :=
  match call with
  | .insert blockHeight tx attestations =>
      ∃ entry,
        (atomizer.notify (atomizer.getNotificationOffset blockHeight) tx attestations).pendingAt
          (atomizer.getNotificationOffset height) tx.id = some entry
  | .insertComplete oldestAttestation _ => height = oldestAttestation
  | .makeBlock => False

/-- `insert` checks and caches the inputs of the key in the slot of the
notification, and moves the key in the oldest slot. They are equal only if
these have the same inputs. -/
def MovesChecked (atomizer : Atomizer) (call : Call) : Prop :=
  ∀ blockHeight tx attestations moved, call = .insert blockHeight tx attestations →
    atomizer.Accepts call moved →
      ∀ inp, inp ∈ moved.inputs ↔ inp ∈ (atomizer.filedAs blockHeight tx).inputs

section Slots

variable {atomizer next : Atomizer} {inp : Hash}

theorem SpentAt.congr (h : next.spent = atomizer.spent) (offset : Nat) :
    next.SpentAt offset inp ↔ atomizer.SpentAt offset inp := by
  rw [SpentAt, SpentAt, h]

theorem spentAt_add {inputs : Finset Hash}
    (h : next.spent = atomizer.spent.modify 0 (· ∪ inputs)) (offset : Nat) :
    next.SpentAt offset inp ↔ offset = 0 ∧ inp ∈ inputs ∨ atomizer.SpentAt offset inp := by
  rw [SpentAt, h, List.getElem?_modify, SpentAt]
  by_cases hOffset : offset = 0
  · subst hOffset
    obtain ⟨first, hFirst⟩ : ∃ first, atomizer.spent[0]? = some first :=
      ⟨_, List.getElem?_eq_getElem (by rw [atomizer.spent_length]; omega)⟩
    simp [hFirst, or_comm]
  · simp [hOffset, Ne.symm hOffset]

theorem spentAt_makeBlock_zero : ¬atomizer.makeBlock.1.SpentAt 0 inp := by
  rintro ⟨spent, hSpent, hInp⟩
  rw [makeBlock_spent] at hSpent
  cases hSpent
  exact Finset.notMem_empty _ hInp

theorem spentAt_makeBlock_succ {offset : Nat} (h : offset < atomizer.spentCacheDepth) :
    atomizer.makeBlock.1.SpentAt (offset + 1) inp ↔ atomizer.SpentAt offset inp := by
  rw [SpentAt, makeBlock_spent, List.getElem?_cons_succ, List.getElem?_take_of_lt h, SpentAt]

end Slots

section History

variable {start state next finish : Atomizer} {calls : List Call} {call : Call}

theorem acceptedAt_succ (inp : Hash) (offset height : Nat) :
    AcceptedAt inp (offset + 1) (height + 1) = AcceptedAt inp offset height := by
  funext atomizer call
  simp only [AcceptedAt, ← Nat.add_assoc, Nat.add_right_cancel_iff]

/-- Each slot holds what was accepted at its height. -/
def SlotsExact (start : Atomizer) (calls : List Call) (state : Atomizer) : Prop :=
  ∀ offset ≤ state.spentCacheDepth, ∀ inp, state.SpentAt offset inp ↔
    Happened step start calls (AcceptedAt inp offset state.bestHeight)

/-- A call after which the complete transactions are the same. -/
theorem SlotsExact.quiet (h : SlotsExact start calls state)
    (hRun : run step start calls = some state) (hStep : state.step call = some next)
    (hComplete : next.completeTxs = state.completeTxs) (hSpent : next.spent = state.spent)
    (hHeight : next.bestHeight = state.bestHeight)
    (hDepth : next.spentCacheDepth = state.spentCacheDepth) :
    SlotsExact start (calls ++ [call]) next := by
  intro offset hOffset inp
  rw [SpentAt.congr hSpent, happened_concat hRun, hHeight, h offset (hDepth ▸ hOffset)]
  refine (or_iff_left ?_).symm
  rintro ⟨_, tx, hAccepts, _⟩
  have hTx := (accepts_iff hStep tx).mp hAccepts
  rw [hComplete] at hTx
  simp at hTx

/-- A call that accepts a transaction and caches its inputs. -/
theorem SlotsExact.accept {tx : CompactTx} {inputs : Finset Hash} (h : SlotsExact start calls state)
    (hRun : run step start calls = some state) (hStep : state.step call = some next)
    (hComplete : next.completeTxs = state.completeTxs ++ [tx])
    (hSpent : next.spent = state.spent.modify 0 (· ∪ inputs))
    (hInputs : ∀ inp, inp ∈ tx.inputs ↔ inp ∈ inputs)
    (hHeight : next.bestHeight = state.bestHeight)
    (hDepth : next.spentCacheDepth = state.spentCacheDepth) :
    SlotsExact start (calls ++ [call]) next := by
  intro offset hOffset inp
  have hAccepts : AcceptsInput inp state call ↔ inp ∈ inputs := by
    rw [← hInputs inp]
    constructor
    · rintro ⟨other, hOther, hInp⟩
      have hSame := (accepts_iff hStep other).mp hOther
      rw [hComplete] at hSame
      rwa [List.singleton_inj.mp (List.append_cancel_left hSame)]
    · exact fun hInp => ⟨tx, (accepts_iff hStep tx).mpr hComplete, hInp⟩
  rw [spentAt_add hSpent, happened_concat hRun, hHeight, h offset (hDepth ▸ hOffset), or_comm,
    AcceptedAt, hAccepts, Nat.add_eq_left]

/-- With a new block every slot moves on, and nothing was accepted at its height. -/
theorem SlotsExact.makeBlock (h : SlotsExact start calls state)
    (hRun : run step start calls = some state) :
    SlotsExact start (calls ++ [.makeBlock]) state.makeBlock.1 := by
  intro offset hOffset inp
  rw [happened_concat hRun, or_iff_left]
  · cases offset with
    | zero =>
        refine iff_of_false spentAt_makeBlock_zero ?_
        rintro ⟨before, call, after, earlier, hCalls, hEarlier, hHeight, _⟩
        have hPassed := bestHeight_le_of_passed hRun hCalls hEarlier
        have hNext : state.makeBlock.1.bestHeight = state.bestHeight + 1 := rfl
        omega
    | succ offset =>
        have hBelow : offset < state.spentCacheDepth := hOffset
        rw [spentAt_makeBlock_succ hBelow, h offset (Nat.le_of_lt hBelow), ← acceptedAt_succ]
        rfl
  · rintro ⟨_, tx, hAccepts, _⟩
    have hTx := (accepts_iff rfl tx).mp hAccepts
    simp [Atomizer.makeBlock] at hTx

/-- Each call keeps the slots exact, as long as what it moves is what it has checked. -/
theorem SlotsExact.step (h : SlotsExact start calls state)
    (hRun : run step start calls = some state) (hMoves : MovesChecked state call)
    (hStep : state.step call = some next) : SlotsExact start (calls ++ [call]) next := by
  cases effect_of_step hStep with
  | outOfRange | refuse => exact h.quiet hRun hStep rfl rfl rfl rfl
  | file within =>
      obtain ⟨hComplete, hSpent, hHeight, hDepth⟩ := notify_frame _ _ _
      exact h.quiet hRun hStep hComplete hSpent hHeight hDepth
  | @complete blockHeight tx attestations _ moved within completes =>
      obtain ⟨hComplete, hSpent, hHeight, hDepth⟩ := @notify_frame state
        (state.getNotificationOffset blockHeight) tx attestations
      have hMoved : next.completeTxs = state.completeTxs ++ [moved] :=
        hComplete ▸ completes.completeTxs
      refine h.accept hRun hStep hMoved (hSpent ▸ completes.spent) (fun inp => ?_)
        (completes.bestHeight.trans hHeight) (completes.spentCacheDepth.trans hDepth)
      rw [List.mem_toFinset]
      exact hMoves blockHeight tx attestations moved rfl ((accepts_iff hStep moved).mpr hMoved) inp
  | accept unspent =>
      exact h.accept hRun hStep rfl rfl (fun inp => List.mem_toFinset.symm) rfl rfl
  | makeBlock => exact h.makeBlock hRun

theorem slotsExact_of_run {bestHeight stxoCacheDepth : Nat}
    (hRun : run step (new bestHeight stxoCacheDepth) calls = some finish)
    (hGuard : Guarded step (new bestHeight stxoCacheDepth) MovesChecked calls) :
    SlotsExact (new bestHeight stxoCacheDepth) calls finish := by
  refine guarded_induction (motive := SlotsExact (new bestHeight stxoCacheDepth)) ?_ ?_ hRun hGuard
  · intro offset _ inp
    refine iff_of_false ?_ (happened_nil _ _ _)
    rintro ⟨spent, hSpent, hInp⟩
    rw [new, List.getElem?_replicate] at hSpent
    split at hSpent
    · cases hSpent
      exact Finset.notMem_empty _ hInp
    · cases hSpent
  · intro calls state call next hRun _ hExact hMoves hStep
    exact hExact.step hRun hMoves hStep

end History

section Soundness

variable {start atomizer finish : Atomizer} {calls : List Call} {call : Call} {tx : CompactTx}
  {inp : Hash}

/-- An accepted transaction was looked up in every slot back to the oldest
attestation that is used for it. -/
theorem unspent_of_accepts {height : Nat} (hAccepts : atomizer.Accepts call tx)
    (hMoves : MovesChecked atomizer call) (hUses : Uses atomizer call height)
    (hInp : inp ∈ tx.inputs) :
    ∀ offset ≤ atomizer.getNotificationOffset height,
      ∃ spent, atomizer.spent[offset]? = some spent ∧ inp ∉ spent := by
  intro offset hOffset
  obtain ⟨next, hStep, hComplete⟩ := id hAccepts
  rcases (effect_of_step hStep).accepts_cases hComplete with
    ⟨blockHeight, notified, attestations, rfl, _, hCompletes⟩ |
    ⟨oldestAttestation, rfl, _, hUnspent⟩
  · obtain ⟨entry, hEntry⟩ := hUses
    have hChecked := (hMoves blockHeight notified attestations tx rfl hAccepts inp).mp hInp
    have hGathers := gathers_gather (atomizer.notify (atomizer.getNotificationOffset blockHeight)
      notified attestations) notified.id
    have hOldest := (hGathers.oldest _ ((hGathers.txIts _).mpr
      ⟨Nat.lt_succ_of_le (le_of_pendingAt hEntry), entry, hEntry⟩)).1
    obtain ⟨spent, hSpent, hNot⟩ := hCompletes.unspent offset (hOffset.trans hOldest) inp hChecked
    rw [(notify_frame _ _ _).2.1] at hSpent
    exact ⟨spent, hSpent, hNot⟩
  · cases hUses
    exact hUnspent offset hOffset inp hInp

/-- Of two accepted transactions with a common input, the later one has no
attestation from the height at which the earlier one was accepted, or before. -/
def NewerThanSpent (start : Atomizer) (calls : List Call) : Prop :=
  ∀ before first middle second after earlier later earlierTx laterTx inp height,
    calls = before ++ first :: (middle ++ second :: after) →
    run step start before = some earlier →
    run step start (before ++ first :: middle) = some later →
    earlier.Accepts first earlierTx → later.Accepts second laterTx →
    inp ∈ earlierTx.inputs → inp ∈ laterTx.inputs → Uses later second height →
      earlier.bestHeight < height

/-- An input that is spent in a slot which was searched has not been accepted at
the height of that slot, so the attestations of the later transaction are newer. -/
theorem newerThanSpent_of_run {bestHeight stxoCacheDepth : Nat}
    (hGuard : Guarded step (new bestHeight stxoCacheDepth) MovesChecked calls) :
    NewerThanSpent (new bestHeight stxoCacheDepth) calls := by
  intro before first middle second after earlier later earlierTx laterTx inp height hCalls
    hEarlier hLater hFirst hSecond hEarlierInp hLaterInp hUses
  have hSplit : calls = (before ++ first :: middle) ++ second :: after := by simp [hCalls]
  have hExact := slotsExact_of_run hLater (hSplit ▸ hGuard).of_append
  have hHeights : earlier.bestHeight ≤ later.bestHeight :=
    bestHeight_le_of_passed hLater rfl hEarlier
  by_contra hOld
  -- The slot of the earlier height is among those that were searched.
  have hReached : later.getNotificationOffset height = later.bestHeight - height :=
    if_pos (by omega)
  obtain ⟨spent, hSpent, hNot⟩ := unspent_of_accepts hSecond
    (hGuard _ second after later hSplit hLater) hUses hLaterInp
    (later.bestHeight - earlier.bestHeight) (by omega)
  have hWithin : later.bestHeight - earlier.bestHeight ≤ later.spentCacheDepth := by
    have hLt := (List.getElem?_eq_some_iff.mp hSpent).1
    rw [later.spent_length] at hLt
    omega
  obtain ⟨other, hOther, hMem⟩ := (hExact _ hWithin inp).mpr
    ⟨before, first, middle, earlier, rfl, hEarlier, by omega, earlierTx, hFirst, hEarlierInp⟩
  rw [hSpent] at hOther
  exact hNot (Option.some.inj hOther ▸ hMem)

/-- Notified transactions with the same ID have the same inputs. The ID of a
transaction is the hash of its inputs and outputs. -/
def SameInputsById (calls : List Call) : Prop :=
  ∀ firstHeight first firstAttestations secondHeight second secondAttestations,
    Call.insert firstHeight first firstAttestations ∈ calls →
    Call.insert secondHeight second secondAttestations ∈ calls →
    first.id = second.id → ∀ inp, inp ∈ first.inputs ↔ inp ∈ second.inputs

/-- If an ID stands for one set of inputs, `insert` moves what it has checked: both
keys were filed by notifications of the run. -/
theorem movesChecked_of_sameInputs {bestHeight stxoCacheDepth : Nat}
    (hSame : SameInputsById calls) :
    Guarded step (new bestHeight stxoCacheDepth) MovesChecked calls := by
  rintro before call after state rfl hState blockHeight tx attestations moved rfl hAccepts
  obtain ⟨next, hStep, hComplete⟩ := hAccepts
  rcases (effect_of_step hStep).accepts_cases hComplete with
    ⟨_, _, _, hCall, hWithin, hCompletes⟩ | ⟨_, hCall, _⟩
  · cases hCall
    have hSourced := sourced_of_run hState
    obtain ⟨_, hOldest⟩ := hCompletes.oldest
    obtain ⟨_, hFiled⟩ := hSourced.filedAs hState hWithin tx attestations
    have hMoved := hSourced.notify hState hWithin _ _ _ _ _ hOldest
    obtain ⟨_, _, hFiledMem⟩ := (hFiled.later after).key
    obtain ⟨_, _, hMovedMem⟩ := (hMoved.later after).key
    rw [List.append_assoc] at hFiledMem hMovedMem
    exact hSame _ _ _ _ _ _ hMovedMem hFiledMem (hMoved.id.trans hFiled.id.symm)
  · cases hCall

/-- Soundness of the spent cache, for notified transactions that are told apart by
their IDs: whatever the calls, an input is accepted again only with attestations
that are newer, and each slot holds what was accepted at its height. -/
theorem spent_cache_sound {bestHeight stxoCacheDepth : Nat}
    (hRun : run step (new bestHeight stxoCacheDepth) calls = some finish)
    (hSame : SameInputsById calls) :
    NewerThanSpent (new bestHeight stxoCacheDepth) calls ∧
      SlotsExact (new bestHeight stxoCacheDepth) calls finish := by
  have hGuard : Guarded step (new bestHeight stxoCacheDepth) MovesChecked calls :=
    movesChecked_of_sameInputs hSame
  exact ⟨newerThanSpent_of_run hGuard, slotsExact_of_run hRun hGuard⟩

/-- A transaction is notified twice under one ID with different inputs. The
first is moved, the second is cached. Then a transaction that spends the
input of the first is accepted with an attestation of the same height. -/
def sameId : List Call :=
  [.insert 0 (.unattested (.ofByte 1) [.ofByte 2] []) ∅,
    .insert 1 (.unattested (.ofByte 1) [.ofByte 3] []) {0}]

/-- The input of the first is then spent by a second transaction, since the cache holds the
input of the other notification in its place. -/
theorem spent_cache_unsound_sameId :
    ∃ earlier later, run step (new 1 1) (sameId.take 1) = some earlier ∧
      earlier.Accepts (.insert 1 (.unattested (.ofByte 1) [.ofByte 3] []) {0})
        (.unattested (.ofByte 1) [.ofByte 2] []) ∧
      run step (new 1 1) sameId = some later ∧
      later.Accepts (.insertComplete 1 (.unattested (.ofByte 4) [.ofByte 2] []))
        (.unattested (.ofByte 4) [.ofByte 2] []) ∧
      earlier.bestHeight = 1 := by
  have hFirst : (run step (new 1 1) (sameId.take 1)).any (fun atomizer =>
      atomizer.bestHeight = 1 ∧
        atomizer.Accepts (.insert 1 (.unattested (.ofByte 1) [.ofByte 3] []) {0})
          (.unattested (.ofByte 1) [.ofByte 2] [])) = true := by
    decide +kernel
  have hSecond : (run step (new 1 1) sameId).any (fun atomizer =>
      atomizer.Accepts (.insertComplete 1 (.unattested (.ofByte 4) [.ofByte 2] []))
        (.unattested (.ofByte 4) [.ofByte 2] [])) = true := by
    decide +kernel
  obtain ⟨earlier, hEarlier, hEarlierTest⟩ := exists_run_of_test hFirst
  obtain ⟨later, hLater, hLaterTest⟩ := exists_run_of_test hSecond
  obtain ⟨hHeight, hMoved⟩ := of_decide_eq_true hEarlierTest
  exact ⟨earlier, later, hEarlier, hMoved, hLater, of_decide_eq_true hLaterTest, hHeight⟩

/-- A transaction is notified once for each of its inputs, and one of them is spent
again after a block, with a newer attestation. -/
def spentAgain : List Call :=
  [.insert 0 (.unattested (.ofByte 1) [.ofByte 2, .ofByte 3] []) {0},
    .insert 0 (.unattested (.ofByte 1) [.ofByte 2, .ofByte 3] []) {1}, .makeBlock,
    .insertComplete 1 (.unattested (.ofByte 4) [.ofByte 3] [])]

theorem spent_cache_sound_spentAgain :
    ∃ finish, run step (new 0 1) spentAgain = some finish ∧ finish.completeTxs.length = 1 ∧
      NewerThanSpent (new 0 1) spentAgain ∧ SlotsExact (new 0 1) spentAgain finish := by
  have hTest : (run step (new 0 1) spentAgain).any (fun finish =>
      finish.completeTxs.length = 1) = true := by
    decide +kernel
  obtain ⟨finish, hRun, hAccepted⟩ := exists_run_of_test hTest
  refine ⟨finish, hRun, of_decide_eq_true hAccepted, spent_cache_sound hRun ?_⟩
  intro _ first _ _ second _ hFirst hSecond _ inp
  simp only [spentAgain, List.mem_cons, Call.insert.injEq, reduceCtorEq, List.not_mem_nil,
    or_false] at hFirst hSecond
  rcases hFirst with ⟨_, rfl, _⟩ | ⟨_, rfl, _⟩ <;> rcases hSecond with ⟨_, rfl, _⟩ | ⟨_, rfl, _⟩ <;>
    rfl

end Soundness

end OpenCbdc.Atomizer

import OpenCbdc.Serialization.Messages
import OpenCbdc.Watchtower.BlockCache
import OpenCbdc.Watchtower.ErrorCache

/-! What a watchtower answers about the UHS IDs of a transaction. Blocks and errors
reach it on separate connections, so in any order. -/
namespace OpenCbdc

open Wire

structure Watchtower where
  bc : BlockCache
  ec : ErrorCache

namespace Watchtower

def new (blockCacheSize errorCacheSize : Nat) : Watchtower :=
  { bc := .new blockCacheSize, ec := .new errorCacheSize }

def addBlock (tower : Watchtower) (blk : Block) : Watchtower :=
  { tower with bc := tower.bc.pushBlock blk }

/-- What the block cache has found is the transaction. -/
def isTx (found : Option (Nat × Hash)) (txId : Hash) : Bool :=
  found.any fun result => result.2 = txId

instance {α : Type} (xs : Multiset α) (p : α → Prop) [DecidablePred p] :
    Decidable (∃ x ∈ xs, p x) :=
  Multiset.decidableExistsMultiset

/-- `repeated_tx_filter`: the error names an ID that its own transaction has spent
or created in a block. -/
def repeatedTxFilter (bc : BlockCache) (err : TxError) : Bool :=
  decide (∃ uhs ∈ err.info.inputUhsIds,
    isTx (bc.checkSpent uhs) err.txId ∨ isTx (bc.checkUnspent uhs) err.txId)

def addErrors (tower : Watchtower) (errs : List TxError) : Watchtower :=
  { tower with ec := tower.ec.pushErrors (errs.filter fun err => !repeatedTxFilter tower.bc err) }

/-- The state that the error cache gives an ID, if there is an error. -/
def errorStates (tower : Watchtower) (uhsId : Hash) (internalErr txErr : Bool)
    (bestHeight : Nat) : List StatusUpdateState :=
  if internalErr then [⟨.named .internalError, bestHeight, uhsId⟩]
  else if txErr then
    match tower.ec.checkUhsId uhsId with
    | some _ => [⟨.named .invalidInput, bestHeight, uhsId⟩]
    | none => [⟨.named .txRejected, bestHeight, uhsId⟩]
  else []

/-- The state that the block cache gives an ID. An ID that was spent by another
transaction is not looked for among the unspent ones. -/
def blockStates (tower : Watchtower) (uhsId txId : Hash) : List StatusUpdateState :=
  match tower.bc.checkSpent uhsId with
  | some (height, sTxId) => if sTxId = txId then [⟨.named .spent, height, uhsId⟩] else []
  | none =>
      match tower.bc.checkUnspent uhsId with
      | some (height, usTxId) => if usTxId = txId then [⟨.named .unspent, height, uhsId⟩] else []
      | none => []

/-- A round of the loop in `check_uhs_id_statuses`. -/
def uhsIdStates (tower : Watchtower) (txId : Hash) (internalErr txErr : Bool) (bestHeight : Nat)
    (uhsId : Hash) : List StatusUpdateState :=
  let states := tower.errorStates uhsId internalErr txErr bestHeight ++
    tower.blockStates uhsId txId
  -- `found_status` is set with every state that is added.
  if states.isEmpty then [⟨.named .noHistory, bestHeight, uhsId⟩] else states

def checkUhsIdStatuses (tower : Watchtower) (uhsIds : List Hash) (txId : Hash)
    (internalErr txErr : Bool) (bestHeight : Nat) : List StatusUpdateState :=
  uhsIds.flatMap (tower.uhsIdStates txId internalErr txErr bestHeight)

/-- The transaction failed for a reason that is not its own. -/
def internalErr (txErr : Option TxError) : Bool :=
  txErr.any fun err => err.info = .sync ∨ err.info = .stxoRange

/-- The states of the IDs that were asked for with one transaction. -/
def txStates (tower : Watchtower) (txId : Hash) (uhsIds : List Hash) : List StatusUpdateState :=
  let txErr := tower.ec.checkTxId txId
  tower.checkUhsIdStatuses uhsIds txId (internalErr txErr) txErr.isSome tower.bc.bestBlkHeight

def handleStatusUpdateRequest (tower : Watchtower) (uhsIds : Finmap fun _ : Hash => List Hash) :
    WatchtowerResponse :=
  .checkSuccess (Table.mapValues tower.txStates uhsIds)

inductive Call where
  | addBlock (blk : Block)
  | addErrors (errs : List TxError)
deriving DecidableEq

def apply (tower : Watchtower) : Call → Watchtower
  | .addBlock blk => tower.addBlock blk
  | .addErrors errs => tower.addErrors errs

/-- The block cache records the transaction as the spender or creator of the ID. -/
def Recorded (tower : Watchtower) (txId uhsId : Hash) : Prop :=
  isTx (tower.bc.checkSpent uhsId) txId ∨ isTx (tower.bc.checkUnspent uhsId) txId

instance (tower : Watchtower) (txId uhsId : Hash) : Decidable (tower.Recorded txId uhsId) :=
  inferInstanceAs (Decidable (_ ∨ _))

/-- The state is one that a client may be given for the ID. -/
def Answers (tower : Watchtower) (txId uhsId : Hash) (state : StatusUpdateState) : Prop :=
  state.uhsId = uhsId ∧
    (tower.Recorded txId uhsId → state.status = .named .spent ∨ state.status = .named .unspent)

/-- The response has one state per requested ID, in the requested order. -/
def Exact (tower : Watchtower) (uhsIds : Finmap fun _ : Hash => List Hash) :
    WatchtowerResponse → Prop
  | .checkSuccess states => ∀ txId ids, uhsIds.lookup txId = some ids →
      ∃ found, states.lookup txId = some found ∧ ids.Forall₂ (tower.Answers txId) found
  | .bestBlockHeight _ => False

/-- No other transaction is recorded as the spender of the ID. -/
def NoOtherSpender (tower : Watchtower) (txId uhsId : Hash) : Prop :=
  ∀ found ∈ tower.bc.checkSpent uhsId, found.2 = txId

section Contributions

variable {α β : Type} {related : α → β → Prop} {contribution : α → List β}

theorem length_le_flatMap (hSome : ∀ x, contribution x ≠ []) (xs : List α) :
    xs.length ≤ (xs.flatMap contribution).length := by
  induction xs with
  | nil => simp
  | cons x xs ih =>
      have hPos := List.length_pos_iff.mpr (hSome x)
      rw [List.flatMap_cons, List.length_append, List.length_cons]
      omega

/-- When every element contributes to a list, the list matches the elements one to
one exactly if each contributes one match. -/
theorem forall₂_flatMap_iff (hSome : ∀ x, contribution x ≠ []) (xs : List α) :
    xs.Forall₂ related (xs.flatMap contribution) ↔
      ∀ x ∈ xs, ∃ y, contribution x = [y] ∧ related x y := by
  induction xs with
  | nil => simp
  | cons x xs ih =>
      rw [List.flatMap_cons, List.forall_mem_cons, ← ih]
      constructor
      · intro h
        -- No element can contribute two, since the others contribute one at least.
        have hLength := h.length_eq
        have hRest := length_le_flatMap hSome xs
        obtain ⟨y, hOne⟩ : ∃ y, contribution x = [y] := by
          rw [← List.length_eq_one_iff]
          have hPos := List.length_pos_iff.mpr (hSome x)
          rw [List.length_append, List.length_cons] at hLength
          omega
        rw [hOne, List.singleton_append, List.forall₂_cons] at h
        exact ⟨⟨y, hOne, h.1⟩, h.2⟩
      · rintro ⟨⟨y, hOne, hRelated⟩, hRest⟩
        rw [hOne]
        exact List.Forall₂.cons hRelated hRest

end Contributions

section States

variable {tower : Watchtower} {txId uhsId : Hash} {bestHeight : Nat}

/-- An error gives an ID one state, which is not one of a recorded ID. -/
theorem errorStates_of_err (txErr : Option TxError) (h : txErr.isSome) :
    ∃ state, tower.errorStates uhsId (internalErr txErr) txErr.isSome bestHeight = [state] ∧
      state.uhsId = uhsId ∧ ¬(state.status = .named .spent ∨ state.status = .named .unspent) := by
  rw [h, errorStates, if_pos rfl]
  split
  · exact ⟨_, rfl, rfl, by simp⟩
  · split
    · exact ⟨_, rfl, rfl, by simp⟩
    · exact ⟨_, rfl, rfl, by simp⟩

/-- The block cache gives an ID one state at most, and none only if it does not
record the transaction or records another spender. -/
theorem blockStates_cases (tower : Watchtower) (txId uhsId : Hash) :
    (∃ state, tower.blockStates uhsId txId = [state] ∧ state.uhsId = uhsId ∧
      (state.status = .named .spent ∨ state.status = .named .unspent) ∧
      tower.Recorded txId uhsId ∧ tower.NoOtherSpender txId uhsId) ∨
    tower.blockStates uhsId txId = [] ∧
      (tower.Recorded txId uhsId → ¬tower.NoOtherSpender txId uhsId) := by
  unfold blockStates Recorded NoOtherSpender isTx
  cases hSpent : tower.bc.checkSpent uhsId with
  | some found =>
      by_cases hTx : found.2 = txId
      · left
        simp [hTx]
      · right
        simp [hTx]
  | none =>
      cases hUnspent : tower.bc.checkUnspent uhsId with
      | some found =>
          by_cases hTx : found.2 = txId
          · left
            simp [hTx]
          · right
            simp [hTx]
      | none =>
          right
          simp

theorem uhsIdStates_ne_nil (internalErr txErr : Bool) :
    tower.uhsIdStates txId internalErr txErr bestHeight uhsId ≠ [] := by
  unfold uhsIdStates
  simp only [ne_eq]
  split
  · simp
  case isFalse hStates =>
      intro hNil
      exact hStates (by rw [hNil]; rfl)

/-- One ID is answered as it should be exactly if nothing but one table speaks of it. -/
theorem uhsIdStates_exact_iff :
    (∃ state, tower.uhsIdStates txId (internalErr (tower.ec.checkTxId txId))
        (tower.ec.checkTxId txId).isSome bestHeight uhsId = [state] ∧
      tower.Answers txId uhsId state) ↔
    (tower.Recorded txId uhsId →
      tower.ec.checkTxId txId = none ∧ tower.NoOtherSpender txId uhsId) := by
  unfold uhsIdStates Answers
  cases hErr : tower.ec.checkTxId txId with
  | none =>
      have hNone : tower.errorStates uhsId (internalErr none) (none : Option TxError).isSome
          bestHeight = [] := rfl
      rw [hNone, List.nil_append]
      rcases blockStates_cases tower txId uhsId with
        ⟨state, hState, hId, hStatus, hRecorded, hSpender⟩ | ⟨hState, hOther⟩
      · simp [hState, hId, hStatus, hSpender]
      · simp only [hState, List.isEmpty_nil, if_true, List.singleton_inj, exists_eq_left',
          EnumValue.named.injEq, reduceCtorEq, or_self, imp_false, true_and]
        exact ⟨fun hNo hYes => absurd hYes hNo, fun h hYes => hOther hYes (h hYes)⟩
  | some err =>
      obtain ⟨failed, hFailed, hId, hStatus⟩ : ∃ state,
          tower.errorStates uhsId (internalErr (some err)) (some err).isSome bestHeight = [state] ∧
            _ := errorStates_of_err (some err) rfl
      rw [hFailed]
      rcases blockStates_cases tower txId uhsId with
        ⟨state, hState, _, _, hRecorded, _⟩ | ⟨hState, _⟩
      · simp [hState, hRecorded]
      · simp [hState, hId, hStatus]

end States

theorem lookup_states (tower : Watchtower) (uhsIds : Finmap fun _ : Hash => List Hash)
    {txId : Hash} {ids : List Hash} (h : uhsIds.lookup txId = some ids) :
    (Table.mapValues tower.txStates uhsIds).lookup txId = some (tower.txStates txId ids) := by
  rw [Table.lookup_mapValues, h]
  rfl

/-- After any calls, in any order, a response is exact if and only if no ID that is
recorded for its transaction comes with a cached error of the transaction or with
another spender. -/
theorem status_exact_iff_no_error (blockCacheSize errorCacheSize : Nat) (calls : List Call)
    (uhsIds : Finmap fun _ : Hash => List Hash) :
    let tower := calls.foldl Watchtower.apply (new blockCacheSize errorCacheSize)
    tower.Exact uhsIds (tower.handleStatusUpdateRequest uhsIds) ↔
      ∀ txId ids, uhsIds.lookup txId = some ids → ∀ uhsId ∈ ids, tower.Recorded txId uhsId →
        tower.ec.checkTxId txId = none ∧ tower.NoOtherSpender txId uhsId := by
  intro tower
  refine forall_congr' fun txId => forall_congr' fun ids => imp_congr_right fun hIds => ?_
  simp only [lookup_states tower uhsIds hIds, Option.some.injEq, exists_eq_left', txStates,
    checkUhsIdStatuses]
  rw [forall₂_flatMap_iff fun uhsId => uhsIdStates_ne_nil _ _]
  exact forall₂_congr fun uhsId _ => uhsIdStates_exact_iff

/-- A shard's error overtakes the block with the transaction. -/
def overtaken : List Call :=
  [.addErrors [⟨.ofByte 1, .inputsDne [.ofByte 9]⟩],
    .addBlock ⟨1, [.unattested (.ofByte 1) [.ofByte 9] []]⟩]

def asked : Finmap fun _ : Hash => List Hash := Finmap.singleton (.ofByte 1) [.ofByte 9]

/-- The spent ID is then reported twice, first as an invalid input. -/
theorem status_reported_twice :
    (overtaken.foldl Watchtower.apply (new 0 0)).handleStatusUpdateRequest asked =
      .checkSuccess (Finmap.singleton (.ofByte 1)
        [⟨.named .invalidInput, 1, .ofByte 9⟩, ⟨.named .spent, 1, .ofByte 9⟩]) ∧
    ¬(overtaken.foldl Watchtower.apply (new 0 0)).Exact asked
      ((overtaken.foldl Watchtower.apply (new 0 0)).handleStatusUpdateRequest asked) := by
  have hStates : (overtaken.foldl Watchtower.apply (new 0 0)).handleStatusUpdateRequest asked =
      .checkSuccess (Finmap.singleton (.ofByte 1)
        [⟨.named .invalidInput, 1, .ofByte 9⟩, ⟨.named .spent, 1, .ofByte 9⟩]) := by
    decide +kernel
  refine ⟨hStates, fun hExact => ?_⟩
  rw [hStates] at hExact
  obtain ⟨found, hFound, hEach⟩ := hExact (.ofByte 1) [.ofByte 9] Finmap.lookup_singleton_eq
  rw [Finmap.lookup_singleton_eq, Option.some.injEq] at hFound
  rw [← hFound] at hEach
  exact absurd hEach.length_eq (by decide)

end Watchtower
end OpenCbdc

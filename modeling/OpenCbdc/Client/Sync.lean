import OpenCbdc.Client.Abandon

/-! Asking the watchtower about the pending transactions. The answer is a map, which is
looked at in an order that it does not determine. -/
namespace OpenCbdc

/-- A status that shows that the transaction was settled. -/
def Wire.StatusUpdateState.Settles (state : Wire.StatusUpdateState) : Prop :=
  state.status = .named .unspent ∨ state.status = .named .spent

instance (state : Wire.StatusUpdateState) : Decidable state.Settles :=
  inferInstanceAs (Decidable (_ ∨ _))

namespace Client

open Wire

variable {crypto : Crypto}

/-- The UHS IDs that `atomizer_client::sync` asks for. Pending transactions are kept under
their own IDs. -/
def statusUpdateRequest (client : Client crypto) : Finmap fun _ : Hash => List Hash :=
  Table.mapValues (fun _ tx =>
      let ctx := CompactTx.ofFullTx crypto tx
      ctx.inputs ++ ctx.uhsOutputs) client.pendingTxs ∪
    Table.mapValues (fun _ inp => [inp.hash crypto]) client.pendingInputs

/-- The loop over the states of a transaction. -/
def checkStates : Bool → List StatusUpdateState → Bool
  | success, [] => success
  | success, state :: rest => if state.Settles then success else checkStates false rest

/-- A round of the loop over the response. -/
def syncRound (current : Client crypto × Bool)
    (row : Sigma fun _ : Hash => List StatusUpdateState) : Option (Client crypto × Bool) :=
  if checkStates current.2 row.2 then current.1.confirmTransaction row.1
  else some (current.1, false)

def syncStates (client : Client crypto)
    (response : List (Sigma fun _ : Hash => List StatusUpdateState)) :
    Option (Client crypto × Bool) :=
  response.foldlM syncRound (client, true)

/-- `atomizer_client::sync`, with the answer of the watchtower. -/
def sync (client : Client crypto) (requestStatusUpdate : (Finmap fun _ : Hash => List Hash) →
    List (Sigma fun _ : Hash => List StatusUpdateState)) : Option (Client crypto × Bool) :=
  client.syncStates (requestStatusUpdate client.statusUpdateRequest)

def Pending (client : Client crypto) (id : Hash) : Prop :=
  id ∈ client.pendingTxs ∨ id ∈ client.pendingInputs

/-- A rule that decides by the states of a transaction whether it is confirmed: it is when
all of them show that it was settled, and it is not when none does. -/
structure Rule (confirms : List StatusUpdateState → Prop) : Prop where
  all : ∀ found, found ≠ [] → (∀ state ∈ found, state.Settles) → confirms found
  none : ∀ found, (∀ state ∈ found, ¬state.Settles) → ¬confirms found

/-- The rule of the source: the first state decides. -/
def FirstSettles (found : List StatusUpdateState) : Prop :=
  ∃ state ∈ found.head?, state.Settles

/-- In every order of the response the call returns, and a pending transaction is confirmed
if the rule says so of its own states. -/
def OwnMerits (confirms : List StatusUpdateState → Prop) (client : Client crypto)
    (states : Finmap fun _ : Hash => List StatusUpdateState) : Prop :=
  ∀ order : List (Sigma fun _ : Hash => List StatusUpdateState), states.entries = order →
    ∃ final success, client.syncStates order = some (final, success) ∧
      ∀ id found, client.Pending id → states.lookup id = some found →
        (¬final.Pending id ↔ confirms found)

section Rounds

variable {client after : Client crypto} {id : Hash} {found : List StatusUpdateState}
  {order : List (Sigma fun _ : Hash => List StatusUpdateState)}

theorem checkStates_false (found : List StatusUpdateState) : checkStates false found = false := by
  induction found with
  | nil => rfl
  | cons state rest ih =>
      rw [checkStates]
      split
      · rfl
      · exact ih

/-- The first state decides. -/
theorem checkStates_true : checkStates true found = true ↔
    ∀ state ∈ found.head?, state.Settles := by
  cases found with
  | nil => simp [checkStates]
  | cons state rest =>
      rw [checkStates]
      split
      case isTrue hSettles => simp [hSettles]
      case isFalse hNot => simp [checkStates_false, hNot]

/-- The transaction is small enough for the loop over its outputs to end. -/
def Ends (client : Client crypto) (id : Hash) : Prop :=
  ∀ tx, client.pendingTxs.lookup id = some tx → tx.outputs.length < 2 ^ 32

theorem confirmTransaction_of_not_pending (h : ¬client.Pending id) :
    client.confirmTransaction id = some (client, false) := by
  have hTx : client.pendingTxs.lookup id = none :=
    Finmap.lookup_eq_none.mpr fun hMem => h (Or.inl hMem)
  have hInput : client.pendingInputs.lookup id = none :=
    Finmap.lookup_eq_none.mpr fun hMem => h (Or.inr hMem)
  simp [confirmTransaction, confirmPendingTx, confirmPendingInput, hTx, hInput]

theorem confirmTransaction_of_not_ends (h : ¬client.Ends id) :
    client.confirmTransaction id = none := by
  obtain ⟨tx, hTx, hLong⟩ : ∃ tx, client.pendingTxs.lookup id = some tx ∧
      2 ^ 32 ≤ tx.outputs.length := by
    simpa [Ends] using h
  have hWallet : client.wallet.confirmTransaction tx = none := if_pos hLong
  simp [confirmTransaction, confirmPendingTx, hTx, hWallet]

/-- Confirming an ID that ends takes it out of the pending transactions, and leaves all else
that is pending. -/
theorem confirmPendingTx_of_ends (h : client.Ends id) :
    ∃ result, client.confirmPendingTx id = some result ∧
      (id ∈ client.pendingTxs → result.2 = true) ∧
      (∀ other, other ∈ result.1.pendingTxs ↔ other ≠ id ∧ other ∈ client.pendingTxs) ∧
      result.1.pendingInputs = client.pendingInputs := by
  unfold confirmPendingTx
  cases hTx : client.pendingTxs.lookup id with
  | none =>
      have hNone : id ∉ client.pendingTxs := Finmap.lookup_eq_none.mp hTx
      refine ⟨_, rfl, fun hMem => absurd hMem hNone, fun other => ?_, rfl⟩
      exact ⟨fun hMem => ⟨fun hSame => hNone (hSame ▸ hMem), hMem⟩, And.right⟩
  | some tx =>
      have hWallet : client.wallet.confirmTransaction tx = _ :=
        if_neg (Nat.not_le.mpr (h tx hTx))
      simp only [hWallet, Option.map_some]
      exact ⟨_, rfl, fun _ => rfl, fun other => Finmap.mem_erase, rfl⟩

theorem confirmPendingInput_spec (client : Client crypto) (id : Hash) :
    (id ∈ client.pendingInputs → (client.confirmPendingInput id).2 = true) ∧
      (∀ other, other ∈ (client.confirmPendingInput id).1.pendingInputs ↔
        other ≠ id ∧ other ∈ client.pendingInputs) ∧
      (client.confirmPendingInput id).1.pendingTxs = client.pendingTxs := by
  unfold confirmPendingInput
  cases hInput : client.pendingInputs.lookup id with
  | none =>
      have hNone : id ∉ client.pendingInputs := Finmap.lookup_eq_none.mp hInput
      refine ⟨fun hMem => absurd hMem hNone, fun other => ?_, rfl⟩
      exact ⟨fun hMem => ⟨fun hSame => hNone (hSame ▸ hMem), hMem⟩, And.right⟩
  | some inp => exact ⟨fun _ => rfl, fun other => Finmap.mem_erase, rfl⟩

/-- Confirming a transaction succeeds if it was pending, and only it is not pending then. -/
theorem confirmTransaction_of_ends (h : client.Ends id) :
    ∃ result, client.confirmTransaction id = some result ∧
      (client.Pending id → result.2 = true) ∧
      ∀ other, result.1.Pending other ↔ other ≠ id ∧ client.Pending other := by
  obtain ⟨⟨middle, sent⟩, hMiddle, hSent, hTxs, hInputs⟩ := confirmPendingTx_of_ends h
  obtain ⟨hReceived, hRest, hSame⟩ := confirmPendingInput_spec middle id
  refine ⟨_, by rw [confirmTransaction, hMiddle, Option.map_some], ?_, fun other => ?_⟩
  · rintro (hTx | hInput)
    · have hTrue : sent = true := hSent hTx
      simp [hTrue]
    · simp [hReceived (hInputs ▸ hInput)]
  · show other ∈ (middle.confirmPendingInput id).1.pendingTxs ∨
      other ∈ (middle.confirmPendingInput id).1.pendingInputs ↔ _
    rw [hSame, hTxs, hRest, hInputs, Pending, and_or_left]

theorem Ends.confirmTransaction {other : Hash} (h : client.Ends other) (hNe : other ≠ id)
    {result : Client crypto × Bool} (hConfirm : client.confirmTransaction id = some result) :
    result.1.Ends other := by
  intro tx hTx
  rw [lookup_confirmTransaction hNe.symm hConfirm] at hTx
  exact h tx hTx

/-- A transaction that is not good, or that nobody waits for, ends the confirmations. -/
theorem syncRound_blocked (h : ¬(client.Pending id ∧ checkStates true found = true)) :
    syncRound (client, true) ⟨id, found⟩ = some (client, false) := by
  unfold syncRound
  split
  case isTrue hStates =>
      exact confirmTransaction_of_not_pending fun hPending => h ⟨hPending, hStates⟩
  case isFalse => rfl

theorem syncRounds_failed (client : Client crypto)
    (order : List (Sigma fun _ : Hash => List StatusUpdateState)) :
    order.foldlM syncRound (client, false) = some (client, false) := by
  induction order with
  | nil => rfl
  | cons row order ih =>
      have hRound : syncRound (client, false) row = some (client, false) := by
        rw [syncRound, checkStates_false]
        rfl
      rw [List.foldlM_cons, hRound]
      exact ih

theorem syncStates_blocked (h : ¬(client.Pending id ∧ checkStates true found = true))
    (order : List (Sigma fun _ : Hash => List StatusUpdateState)) :
    client.syncStates (⟨id, found⟩ :: order) = some (client, false) := by
  rw [syncStates, List.foldlM_cons, syncRound_blocked h]
  exact syncRounds_failed client order

/-- Nothing is confirmed when no pending transaction has a good first state. -/
theorem syncStates_of_none
    (h : ∀ row ∈ order, ¬(client.Pending row.1 ∧ checkStates true row.2 = true)) :
    ∃ success, client.syncStates order = some (client, success) := by
  cases order with
  | nil => exact ⟨true, rfl⟩
  | cons row order =>
      exact ⟨false, syncStates_blocked (h row (List.mem_cons_self ..)) order⟩

/-- Everything is confirmed when all transactions are pending and have good first states. -/
theorem syncStates_of_all (hNodup : (order.map Sigma.fst).Nodup)
    (h : ∀ row ∈ order, client.Pending row.1 ∧ checkStates true row.2 = true ∧
      client.Ends row.1) :
    ∃ final, client.syncStates order = some (final, true) ∧
      ∀ id, final.Pending id ↔ client.Pending id ∧ id ∉ order.map Sigma.fst := by
  induction order generalizing client with
  | nil => exact ⟨client, rfl, by simp⟩
  | cons row order ih =>
      obtain ⟨⟨hPending, hStates, hEnds⟩, hRest⟩ := List.forall_mem_cons.mp h
      rw [List.map_cons, List.nodup_cons] at hNodup
      obtain ⟨⟨next, success⟩, hConfirm, hSuccess, hNext⟩ := confirmTransaction_of_ends hEnds
      obtain rfl : success = true := hSuccess hPending
      have hLater : ∀ later ∈ order, next.Pending later.1 ∧ checkStates true later.2 = true ∧
          next.Ends later.1 := by
        intro later hMem
        have hNe : later.1 ≠ row.1 := fun hSame => hNodup.1 (hSame ▸ List.mem_map_of_mem hMem)
        obtain ⟨hLaterPending, hLaterStates, hLaterEnds⟩ := hRest later hMem
        exact ⟨(hNext _).mpr ⟨hNe, hLaterPending⟩, hLaterStates,
          hLaterEnds.confirmTransaction hNe hConfirm⟩
      obtain ⟨final, hFinal, hLeft⟩ := ih hNodup.2 hLater
      refine ⟨final, ?_, fun id => ?_⟩
      · rw [syncStates, List.foldlM_cons, syncRound, hStates, if_pos rfl, hConfirm]
        exact hFinal
      · rw [hLeft, hNext, List.map_cons, List.mem_cons, not_or]
        tauto

/-- No transaction becomes pending. -/
theorem pending_of_syncRounds {success : Bool} {result : Client crypto × Bool}
    (h : order.foldlM syncRound (client, success) = some result)
    (hPending : result.1.Pending id) : client.Pending id := by
  induction order generalizing client success with
  | nil =>
      cases h
      exact hPending
  | cons row order ih =>
      rw [List.foldlM_cons] at h
      obtain ⟨⟨next, reached⟩, hRound, hRest⟩ := Option.bind_eq_some_iff.mp h
      have hNext : next.Pending id := ih hRest
      unfold syncRound at hRound
      split at hRound
      · by_cases hEnds : client.Ends row.1
        · obtain ⟨confirmed, hConfirm, _, hLeft⟩ := confirmTransaction_of_ends hEnds
          obtain rfl : confirmed = (next, reached) :=
            Option.some.inj (hConfirm.symm.trans hRound)
          exact ((hLeft id).mp hNext).2
        · rw [confirmTransaction_of_not_ends hEnds] at hRound
          cases hRound
      · cases hRound
        exact hNext

/-- A pending transaction that comes first and has a good first state is confirmed, or the
call does not return. -/
theorem syncStates_first {final : Client crypto} {success : Bool}
    (hStates : checkStates true found = true)
    (h : client.syncStates (⟨id, found⟩ :: order) = some (final, success)) :
    client.Ends id ∧ ¬final.Pending id := by
  rw [syncStates, List.foldlM_cons, syncRound, if_pos hStates] at h
  by_cases hEnds : client.Ends id
  · obtain ⟨confirmed, hConfirm, _, hLeft⟩ := confirmTransaction_of_ends hEnds
    rw [hConfirm] at h
    refine ⟨hEnds, fun hPending => ?_⟩
    exact ((hLeft id).mp (pending_of_syncRounds h hPending)).1 rfl
  · rw [confirmTransaction_of_not_ends hEnds] at h
    cases h

/-- Any row of the response may come first. -/
theorem exists_order {states : Finmap fun _ : Hash => List StatusUpdateState}
    (h : states.lookup id = some found) :
    ∃ order : List (Sigma fun _ : Hash => List StatusUpdateState),
      states.entries = (⟨id, found⟩ :: order : List _) := by
  have hMem : ⟨id, found⟩ ∈ states.entries := Finmap.lookup_eq_some_iff.mp h
  obtain ⟨rest, hRest⟩ := Multiset.exists_cons_of_mem hMem
  obtain ⟨order, rfl⟩ := Quot.exists_rep rest
  exact ⟨order, hRest⟩

end Rounds

/-- No pending transaction comes without states, and either no pending transaction has a good
first state, or all transactions of the response are pending and have one, and are small
enough. -/
structure Even (client : Client crypto)
    (states : Finmap fun _ : Hash => List StatusUpdateState) : Prop where
  nonempty : ∀ id found, client.Pending id → states.lookup id = some found → found ≠ []
  noneOrAll :
    (∀ id found, client.Pending id → states.lookup id = some found →
      ∀ state ∈ found.head?, ¬state.Settles) ∨
    ∀ id found, states.lookup id = some found →
      client.Pending id ∧ (∀ state ∈ found.head?, state.Settles) ∧ client.Ends id

/-- A first state that shows that the transaction was settled. -/
theorem checkStates_of_head {found : List StatusUpdateState} {state : StatusUpdateState}
    (hState : state ∈ found.head?) (hSettles : state.Settles) : checkStates true found = true := by
  rw [checkStates_true]
  intro other hOther
  exact Option.mem_unique hState hOther ▸ hSettles

theorem firstSettles_iff {found : List StatusUpdateState} (h : found ≠ []) :
    FirstSettles found ↔ checkStates true found = true := by
  obtain ⟨state, rest, rfl⟩ := List.exists_cons_of_ne_nil h
  simp [FirstSettles, checkStates_true]

theorem rule_firstSettles : Rule FirstSettles where
  all found hFound hAll := by
    obtain ⟨state, rest, rfl⟩ := List.exists_cons_of_ne_nil hFound
    exact ⟨state, rfl, hAll state (List.mem_cons_self ..)⟩
  none found hNone := by
    rintro ⟨state, hState, hSettles⟩
    exact hNone state (List.mem_of_mem_head? hState) hSettles

/-- Whatever the rule is, a response to which it applies in every order is even: a
transaction that comes first and is not confirmed keeps all others from being confirmed. -/
theorem OwnMerits.even {confirms : List StatusUpdateState → Prop} (hRule : Rule confirms)
    {client : Client crypto} {states : Finmap fun _ : Hash => List StatusUpdateState}
    (h : client.OwnMerits confirms states) : client.Even states := by
  have hFirst : ∀ id found, client.Pending id → states.lookup id = some found →
      checkStates true found = true → client.Ends id ∧ confirms found := by
    intro id found hPending hLookup hStates
    obtain ⟨order, hOrder⟩ := exists_order hLookup
    obtain ⟨final, success, hSync, hSettled⟩ := h _ hOrder
    obtain ⟨hEnds, hConfirmed⟩ := syncStates_first hStates hSync
    exact ⟨hEnds, (hSettled id found hPending hLookup).mp hConfirmed⟩
  refine ⟨?_, ?_⟩
  · rintro id found hPending hLookup rfl
    exact hRule.none [] (fun _ hState => nomatch hState) (hFirst id [] hPending hLookup rfl).2
  · by_cases hSome : ∃ id found, client.Pending id ∧ states.lookup id = some found ∧
        checkStates true found = true
    · obtain ⟨good, goodStates, hGood, hGoodLookup, hGoodStates⟩ := hSome
      refine Or.inr fun id found hLookup => ?_
      by_cases hBoth : client.Pending id ∧ checkStates true found = true
      · exact ⟨hBoth.1, checkStates_true.mp hBoth.2, (hFirst id found hBoth.1 hLookup hBoth.2).1⟩
      · obtain ⟨order, hOrder⟩ := exists_order hLookup
        obtain ⟨final, success, hSync, hSettled⟩ := h _ hOrder
        rw [syncStates_blocked hBoth] at hSync
        cases hSync
        have hConfirms := (hFirst good goodStates hGood hGoodLookup hGoodStates).2
        exact absurd hGood ((hSettled good goodStates hGood hGoodLookup).mpr hConfirms)
    · refine Or.inl fun id found hPending hLookup state hState hSettles => hSome ?_
      exact ⟨id, found, hPending, hLookup, checkStates_of_head hState hSettles⟩

/-- To an even response the rule of the source applies: nothing is confirmed, or all is. -/
theorem Even.ownMerits {client : Client crypto}
    {states : Finmap fun _ : Hash => List StatusUpdateState} (h : client.Even states) :
    client.OwnMerits FirstSettles states := by
  intro order hOrder
  have hRow : ∀ row ∈ order, states.lookup row.1 = some row.2 := fun row hRow =>
    Finmap.lookup_eq_some_iff.mpr (hOrder ▸ hRow)
  rcases h.noneOrAll with hNone | hAll
  · have hBad : ∀ id found, client.Pending id → states.lookup id = some found →
        ¬FirstSettles found := by
      rintro id found hPending hLookup ⟨state, hState, hSettles⟩
      exact hNone id found hPending hLookup state hState hSettles
    obtain ⟨success, hSync⟩ := syncStates_of_none fun row hMem hBoth => by
      have hNonempty := h.nonempty row.1 row.2 hBoth.1 (hRow row hMem)
      exact hBad row.1 row.2 hBoth.1 (hRow row hMem) ((firstSettles_iff hNonempty).mpr hBoth.2)
    exact ⟨client, success, hSync, fun id found hPending hLookup =>
      iff_of_false (not_not.mpr hPending) (hBad id found hPending hLookup)⟩
  · have hNodup : (order.map Sigma.fst).Nodup := by
      have hKeys := states.nodupKeys.nodup_keys
      rw [hOrder] at hKeys
      simpa [Multiset.keys] using hKeys
    have hGood : ∀ id found, states.lookup id = some found →
        client.Pending id ∧ checkStates true found = true ∧ client.Ends id := by
      intro id found hLookup
      obtain ⟨hPending, hStates, hEnds⟩ := hAll id found hLookup
      exact ⟨hPending, checkStates_true.mpr hStates, hEnds⟩
    obtain ⟨final, hSync, hLeft⟩ :=
      syncStates_of_all hNodup fun row hMem => hGood row.1 row.2 (hRow row hMem)
    refine ⟨final, true, hSync, fun id found hPending hLookup => ?_⟩
    have hMem : ⟨id, found⟩ ∈ order := by
      have hEntry := Finmap.lookup_eq_some_iff.mp hLookup
      rwa [hOrder] at hEntry
    have hNonempty := h.nonempty id found hPending hLookup
    refine iff_of_true (fun hFinal => ?_)
      ((firstSettles_iff hNonempty).mpr (hGood id found hLookup).2.1)
    exact ((hLeft id).mp hFinal).2 (List.mem_map_of_mem hMem)

/-- That the first state is settled is one rule for all clients and responses. It settles the
pending transactions on their own merits, in every order of a response, exactly when the
response is even, and no other rule does so for more responses. -/
theorem sync_own_merits_iff (client : Client crypto)
    (states : Finmap fun _ : Hash => List StatusUpdateState) :
    (client.OwnMerits FirstSettles states ↔ client.Even states) ∧ Rule FirstSettles ∧
      ∀ confirms, Rule confirms → client.OwnMerits confirms states → client.Even states :=
  ⟨⟨OwnMerits.even rule_firstSettles, Even.ownMerits⟩, rule_firstSettles,
    fun _ hRule => OwnMerits.even hRule⟩

section FixedResponse

open Wallet

def twoImports : Client plainCrypto :=
  ((clientWith []).importSendInput firstCoin).importSendInput secondCoin

def answerFor (inp : Input) (status : SearchStatus) :
    Sigma fun _ : Hash => List StatusUpdateState :=
  ⟨inp.prevout.txId, [⟨.named status, 3, inp.hash plainCrypto⟩]⟩

/-- The second coin is in the UHS, but it is confirmed only if it comes before the first
one, of which nothing is known. -/
theorem sync_depends_on_order :
    ∃ first second,
      twoImports.syncStates [answerFor firstCoin .noHistory, answerFor secondCoin .unspent] =
        some (first, false) ∧
      twoImports.syncStates [answerFor secondCoin .unspent, answerFor firstCoin .noHistory] =
        some (second, false) ∧
      secondCoin.prevout.txId ∈ first.pendingInputs ∧
      secondCoin.prevout.txId ∉ second.pendingInputs := by
  have hFirst : (twoImports.syncStates
      [answerFor firstCoin .noHistory, answerFor secondCoin .unspent]).any (fun result =>
        decide (result.2 = false ∧ secondCoin.prevout.txId ∈ result.1.pendingInputs)) =
        true := by
    decide +kernel
  have hSecond : (twoImports.syncStates
      [answerFor secondCoin .unspent, answerFor firstCoin .noHistory]).any (fun result =>
        decide (result.2 = false ∧ secondCoin.prevout.txId ∉ result.1.pendingInputs)) =
        true := by
    decide +kernel
  obtain ⟨⟨first, success⟩, hSync, hTest⟩ := (Option.any_eq_true _ _).mp hFirst
  obtain ⟨⟨second, success'⟩, hSync', hTest'⟩ := (Option.any_eq_true _ _).mp hSecond
  obtain ⟨rfl, hPending⟩ := of_decide_eq_true hTest
  obtain ⟨rfl, hConfirmed⟩ := of_decide_eq_true hTest'
  exact ⟨first, second, hSync, hSync', hPending, hConfirmed⟩

end FixedResponse

end Client

end OpenCbdc

import OpenCbdc.Client.Client
import OpenCbdc.Wallet.Holdings

/-! Giving up a transaction. The coins that it spends are set aside from the moment it is
created, and no call for another transaction touches them, so they can be put back. -/
namespace OpenCbdc

open TransitionSystem

/-- Another transaction that neither spends nor creates the inputs of a transaction, nor
spends a coin with the hash of one. -/
structure FullTx.Apart (crypto : Crypto) (tx other : FullTx) : Prop where
  inputs : ∀ inp ∈ tx.inputs, ∀ used ∈ other.inputs, used.prevout ≠ inp.prevout
  hashes : ∀ inp ∈ tx.inputs, ∀ used ∈ other.inputs, used.hash crypto ≠ inp.hash crypto
  outputs : ∀ inp ∈ tx.inputs, inp.prevout.txId ≠ txId crypto other

namespace Wallet

variable {crypto : Crypto} {wallet : Wallet crypto} {tx : FullTx}

def Lacks (tx : FullTx) (wallet : Wallet crypto) : Prop :=
  ∀ inp ∈ tx.inputs, inp.prevout ∉ wallet.coins.utxosSet ∧
    inp.prevout ∉ (wallet.coins.spendable crypto).map Input.prevout

/-- Spending takes coins out of a wallet only, so a wallet that lacks the coins of a
transaction goes on lacking them. -/
theorem Lacks.spend (h : wallet.Lacks tx) (signing : Signing) (call : SpendCall) :
    (wallet.spend signing call).1.Lacks tx := by
  rcases wallet.spend_cases signing call with hNone | ⟨seeds, queued, _, hAvailable, _, hSome⟩
  · rw [hNone]
    exact h
  · rw [hSome]
    intro inp hInp
    obtain ⟨hSet, hSpendable⟩ := h inp hInp
    constructor
    · rw [← Finmap.lookup_eq_none] at hSet ⊢
      show (wallet.coins.spent seeds queued).utxosSet.lookup inp.prevout = none
      rw [Coins.lookup_spent, hSet, ite_self]
    · intro hKept
      exact hSpendable ((hAvailable.prevouts_perm crypto).mem_iff.mpr
        (List.mem_append_right _ hKept))

/-- Neither does a change of the balance bring them back, unless one of them is among the
credits. -/
theorem Lacks.updateBalance (h : wallet.Lacks tx) {credits : List Input} (debits : List Input)
    (hCredits : ∀ inp ∈ tx.inputs, inp.prevout ∉ credits.map Input.prevout) :
    { wallet with coins := wallet.coins.updateBalance credits debits }.Lacks tx := by
  intro inp hInp
  obtain ⟨hSet, hSpendable⟩ := h inp hInp
  refine ⟨fun hHeld => ?_, fun hHeld => ?_⟩
  · exact (Coins.mem_utxosSet_updateBalance hHeld).elim (hCredits inp hInp) hSet
  · obtain ⟨found, hFound, hSame⟩ := List.mem_map.mp hHeld
    rcases Coins.mem_spendable_updateBalance hFound with hOld | hCredit
    · exact hSpendable (hSame ▸ List.mem_map_of_mem hOld)
    · exact hCredits inp hInp (hSame ▸ List.mem_map_of_mem hCredit)

end Wallet

namespace Client

variable {crypto : Crypto} {tx : FullTx} {client : Client crypto}

/-- The coins of a transaction are set aside for it, whether it has been sent or not. -/
structure Reserved (tx : FullTx) (client : Client crypto) : Prop where
  spend : ∀ inp ∈ tx.inputs, inp.hash crypto ∈ client.pendingSpend
  lacks : client.wallet.Lacks tx
  others : ∀ id other, client.pendingTxs.lookup id = some other → id ≠ txId crypto tx →
    FullTx.Apart crypto tx other
  imported : ∀ inp ∈ tx.inputs, ∀ id other, client.pendingInputs.lookup id = some other →
    other.prevout ≠ inp.prevout
  self : ∀ other, client.pendingTxs.lookup (txId crypto tx) = some other → other = tx

/-- The hashes that are set aside are those of before and those of the new transaction's
inputs. -/
theorem mem_registerPendingTx (client : Client crypto) (other : FullTx) (key : Hash) :
    key ∈ (client.registerPendingTx other).pendingSpend ↔
      key ∈ client.pendingSpend ∨ key ∈ other.inputs.map (Input.hash crypto) := by
  have hFold : ∀ (inputs : List Input) (table : Finmap fun _ : Hash => Input),
      key ∈ inputs.foldl (fun table inp => Table.emplace table (inp.hash crypto) inp) table ↔
        key ∈ table ∨ key ∈ inputs.map (Input.hash crypto) := by
    intro inputs
    induction inputs with
    | nil => simp
    | cons inp inputs ih =>
        intro table
        rw [List.foldl_cons, ih, Table.mem_emplace, List.map_cons, List.mem_cons]
        tauto
  exact hFold other.inputs client.pendingSpend

/-- Another transaction is made from other coins: those that are set aside are not in the
wallet for it to spend. -/
theorem Reserved.create (h : client.Reserved tx) (signing : Signing) (call : Wallet.SpendCall) :
    (client.create signing call).1.Reserved tx := by
  have hLacks := h.lacks.spend signing call
  unfold Client.create
  cases hSpend : client.wallet.spend signing call with
  | mk wallet made =>
      rw [hSpend] at hLacks
      cases made with
      | none => exact ⟨h.spend, hLacks, h.others, h.imported, h.self⟩
      | some other =>
          refine ⟨fun inp hInp => ?_, hLacks, h.others, h.imported, h.self⟩
          exact (mem_registerPendingTx _ other _).mpr (Or.inl (h.spend inp hInp))

/-- A transaction that becomes pending is this one, or it is apart from it. -/
theorem Reserved.importTransaction (h : client.Reserved tx) {other : FullTx}
    (hOther : other = tx ∨ txId crypto other ≠ txId crypto tx ∧ FullTx.Apart crypto tx other) :
    (client.importTransaction other).Reserved tx where
  spend := h.spend
  lacks := h.lacks
  others id found hFound hId := by
    rcases Table.of_lookup_emplace hFound with ⟨rfl, rfl⟩ | hOld
    · rcases hOther with rfl | ⟨_, hApart⟩
      · exact absurd rfl hId
      · exact hApart
    · exact h.others id found hOld hId
  imported := h.imported
  self found hFound := by
    rcases Table.of_lookup_emplace hFound with ⟨hSame, rfl⟩ | hOld
    · exact hOther.resolve_right fun hApart => hApart.1 hSame.symm
    · exact h.self found hOld

/-- Confirming another transaction clears only its own inputs and credits only its own
outputs, and both are apart from the coins that are set aside. -/
theorem Reserved.confirmPendingTx (h : client.Reserved tx) {id : Hash} (hId : id ≠ txId crypto tx)
    {after : Client crypto × Bool} (hAfter : client.confirmPendingTx id = some after) :
    after.1.Reserved tx := by
  unfold Client.confirmPendingTx at hAfter
  cases hPending : client.pendingTxs.lookup id with
  | none =>
      rw [hPending] at hAfter
      cases hAfter
      exact h
  | some other =>
      have hApart := h.others id other hPending hId
      simp only [hPending, Wallet.confirmTransaction, Option.map_eq_some_iff,
        Option.ite_none_left_eq_some, Option.some.injEq] at hAfter
      obtain ⟨wallet, ⟨_, rfl⟩, rfl⟩ := hAfter
      refine ⟨?_, h.lacks.updateBalance _ ?_, ?_, h.imported, ?_⟩
      · intro inp hInp
        obtain ⟨found, hFound⟩ := Finmap.mem_iff.mp (h.spend inp hInp)
        have hKept : inp.hash crypto ∉ other.inputs.map (Input.hash crypto) := by
          intro hHash
          obtain ⟨used, hUsed, hSame⟩ := List.mem_map.mp hHash
          exact hApart.hashes inp hInp used hUsed hSame
        refine Finmap.mem_iff.mpr ⟨found, ?_⟩
        rw [Table.lookup_eraseAll, if_neg (mt Multiset.mem_coe.mp hKept), hFound]
      · intro inp hInp hCredit
        obtain ⟨credit, hCredit, hSame⟩ := List.mem_map.mp hCredit
        obtain ⟨i, out, _, _, rfl⟩ := Wallet.mem_newUtxos.mp hCredit
        exact hApart.outputs inp hInp (congrArg OutPoint.txId hSame).symm
      · intro key found hFound hKey
        exact h.others key found (Table.of_lookup_erase hFound).2 hKey
      · intro found hFound
        exact h.self found (Table.of_lookup_erase hFound).2

/-- A coin that is received is credited, and is none of those set aside. -/
theorem Reserved.confirmPendingInput (h : client.Reserved tx) (id : Hash) :
    (client.confirmPendingInput id).1.Reserved tx := by
  unfold Client.confirmPendingInput
  cases hPending : client.pendingInputs.lookup id with
  | none => exact h
  | some received =>
      refine ⟨h.spend, h.lacks.updateBalance [] ?_, h.others, ?_, h.self⟩
      · intro inp hInp hCredit
        rw [List.map_singleton, List.mem_singleton] at hCredit
        exact h.imported inp hInp id received hPending hCredit.symm
      · intro inp hInp key found hFound
        exact h.imported inp hInp key found (Table.of_lookup_erase hFound).2

/-- Both halves of `confirm_transaction` leave the coins set aside. -/
theorem Reserved.confirmTransaction (h : client.Reserved tx) {id : Hash}
    (hId : id ≠ txId crypto tx) {after : Client crypto × Bool}
    (hAfter : client.confirmTransaction id = some after) : after.1.Reserved tx := by
  obtain ⟨middle, hMiddle, rfl⟩ := Option.map_eq_some_iff.mp hAfter
  exact (h.confirmPendingTx hId hMiddle).confirmPendingInput id

/-- A coin that is given back for another transaction differs from those set aside, both in
its out point and in its hash. -/
theorem Reserved.giveBack (h : client.Reserved tx) {used : Input}
    (hUsed : ∀ inp ∈ tx.inputs, used.prevout ≠ inp.prevout ∧ used.hash crypto ≠ inp.hash crypto) :
    (client.giveBack used).Reserved tx := by
  unfold Client.giveBack
  split
  case isFalse => exact h
  case isTrue =>
      refine ⟨?_, h.lacks.updateBalance [] ?_, h.others, h.imported, h.self⟩
      · intro inp hInp
        exact Finmap.mem_erase.mpr ⟨(hUsed inp hInp).2.symm, h.spend inp hInp⟩
      · intro inp hInp hCredit
        rw [List.map_singleton, List.mem_singleton] at hCredit
        exact (hUsed inp hInp).1 hCredit.symm

/-- Abandoning another transaction gives back its inputs one by one, none of which belongs
to this one. -/
theorem Reserved.abandonTransaction (h : client.Reserved tx) {id : Hash}
    (hId : id ≠ txId crypto tx) : (client.abandonTransaction id).1.Reserved tx := by
  unfold Client.abandonTransaction
  cases hPending : client.pendingTxs.lookup id with
  | none => exact h
  | some other =>
      have hApart := h.others id other hPending hId
      have hErased : { client with pendingTxs := client.pendingTxs.erase id }.Reserved tx :=
        ⟨h.spend, h.lacks,
          fun key found hFound => h.others key found (Table.of_lookup_erase hFound).2,
          h.imported, fun found hFound => h.self found (Table.of_lookup_erase hFound).2⟩
      -- Each input of the other transaction is given back in turn.
      have hLoop : ∀ (inputs : List Input) (start : Client crypto), start.Reserved tx →
          (∀ used ∈ inputs, used ∈ other.inputs) →
            (inputs.foldl Client.giveBack start).Reserved tx := by
        intro inputs
        induction inputs with
        | nil => exact fun _ hStart _ => hStart
        | cons used inputs ih =>
            intro start hStart hSubset
            obtain ⟨hFirst, hRest⟩ := List.forall_mem_cons.mp hSubset
            refine ih _ (hStart.giveBack fun inp hInp => ?_) hRest
            exact ⟨hApart.inputs inp hInp used hFirst, hApart.hashes inp hInp used hFirst⟩
      exact hLoop other.inputs _ hErased fun _ hUsed => hUsed

/-- A coin that is imported waits to be confirmed, and is none of those set aside. -/
theorem Reserved.importSendInput (h : client.Reserved tx) {received : Input}
    (hReceived : ∀ inp ∈ tx.inputs, received.prevout ≠ inp.prevout) :
    (client.importSendInput received).Reserved tx := by
  unfold Client.importSendInput
  split
  case isFalse => exact h
  case isTrue =>
      refine ⟨h.spend, h.lacks, h.others, ?_, h.self⟩
      intro inp hInp id found hFound
      rcases Table.of_lookup_emplace hFound with ⟨_, rfl⟩ | hOld
      · exact hReceived inp hInp
      · exact h.imported inp hInp id found hOld

/-- The calls that are for other transactions, or send this one without success. -/
def Call.Leaves (crypto : Crypto) (tx : FullTx) : Call → Prop
  | .create _ => True
  | .send other answer =>
      (other = tx ∧ ∀ res ∈ answer, res.txStatus ≠ .named .confirmed) ∨
        (txId crypto other ≠ txId crypto tx ∧ FullTx.Apart crypto tx other)
  | .confirm id => id ≠ txId crypto tx
  | .abandon id => id ≠ txId crypto tx
  | .importInput inp => ∀ own ∈ tx.inputs, inp.prevout ≠ own.prevout

/-- What sending a transaction does, if it does not confirm it. -/
theorem sendTransaction_of_not_confirmed {other : FullTx} {answer : Option Wire.ExecuteResponse}
    (h : ∀ res ∈ answer, res.txStatus ≠ .named .confirmed) :
    client.sendTransaction other answer = some (client.importTransaction other, answer) := by
  cases answer with
  | none => rfl
  | some res =>
      rw [sendTransaction, if_neg (h res rfl)]

/-- A transaction that is sent is imported, and then confirmed or not. -/
theorem sendTransaction_cases {other : FullTx} {answer : Option Wire.ExecuteResponse}
    {after : Client crypto × Option Wire.ExecuteResponse}
    (h : client.sendTransaction other answer = some after) :
    after.1 = client.importTransaction other ∨
      ∃ confirmed, (client.importTransaction other).confirmTransaction (txId crypto other) =
        some confirmed ∧ after.1 = confirmed.1 := by
  by_cases hAnswer : ∀ res ∈ answer, res.txStatus ≠ .named .confirmed
  · rw [sendTransaction_of_not_confirmed hAnswer] at h
    exact Or.inl (congrArg Prod.fst (Option.some.inj h)).symm
  · cases answer with
    | none => exact absurd (fun _ hRes => nomatch hRes) hAnswer
    | some res =>
        have hConfirmed : res.txStatus = .named .confirmed := by simpa using hAnswer
        rw [sendTransaction, if_pos hConfirmed] at h
        obtain ⟨confirmed, hConfirmed, rfl⟩ := Option.map_eq_some_iff.mp h
        exact Or.inr ⟨confirmed, hConfirmed, rfl⟩

/-- No call for another transaction touches the coins that are set aside for this one. This
is the step of the induction over whole sessions. -/
theorem Reserved.step (h : client.Reserved tx) {signing : Signing} {call : Call}
    (hLeaves : call.Leaves crypto tx) {next : Client crypto}
    (hStep : client.step signing call = some next) : next.Reserved tx := by
  cases call with
  | create call =>
      obtain rfl := Option.some.inj hStep
      exact h.create signing call
  | send other answer =>
      obtain ⟨after, hAfter, rfl⟩ := Option.map_eq_some_iff.mp hStep
      rcases hLeaves with ⟨rfl, hAnswer⟩ | ⟨hId, hApart⟩
      · rw [sendTransaction_of_not_confirmed hAnswer] at hAfter
        obtain rfl := Option.some.inj hAfter
        exact h.importTransaction (Or.inl rfl)
      · have hImported := h.importTransaction (Or.inr ⟨hId, hApart⟩)
        rcases sendTransaction_cases hAfter with hSame | ⟨confirmed, hConfirmed, hSame⟩
        · rw [hSame]
          exact hImported
        · rw [hSame]
          exact hImported.confirmTransaction hId hConfirmed
  | confirm id =>
      obtain ⟨after, hAfter, rfl⟩ := Option.map_eq_some_iff.mp hStep
      exact h.confirmTransaction hLeaves hAfter
  | abandon id =>
      obtain rfl := Option.some.inj hStep
      exact h.abandonTransaction hLeaves
  | importInput inp =>
      obtain rfl := Option.some.inj hStep
      exact h.importSendInput hLeaves

section Waiting

variable {signing : Signing} {next : Client crypto}

@[simp] theorem pendingTxs_create (signing : Signing) (client : Client crypto)
    (call : Wallet.SpendCall) : (client.create signing call).1.pendingTxs = client.pendingTxs := by
  unfold create
  split <;> rfl

@[simp] theorem pendingTxs_giveBack (client : Client crypto) (inp : Input) :
    (client.giveBack inp).pendingTxs = client.pendingTxs := by
  unfold giveBack
  split <;> rfl

@[simp] theorem pendingTxs_giveBacks (client : Client crypto) (inputs : List Input) :
    (inputs.foldl giveBack client).pendingTxs = client.pendingTxs := by
  induction inputs generalizing client with
  | nil => rfl
  | cons inp inputs ih => rw [List.foldl_cons, ih, pendingTxs_giveBack]

/-- What is pending under one ID is not touched when another is abandoned. -/
theorem lookup_abandonTransaction {id key : Hash} (h : id ≠ key) :
    (client.abandonTransaction id).1.pendingTxs.lookup key = client.pendingTxs.lookup key := by
  unfold abandonTransaction
  split
  · rfl
  · rw [pendingTxs_giveBacks]
    exact Finmap.lookup_erase_ne h.symm

/-- Nor when another is confirmed, whether it was sent or received. -/
theorem lookup_confirmTransaction {id key : Hash} (h : id ≠ key) {after : Client crypto × Bool}
    (hAfter : client.confirmTransaction id = some after) :
    after.1.pendingTxs.lookup key = client.pendingTxs.lookup key := by
  obtain ⟨middle, hMiddle, rfl⟩ := Option.map_eq_some_iff.mp hAfter
  have hReceived : (middle.1.confirmPendingInput id).1.pendingTxs = middle.1.pendingTxs := by
    unfold confirmPendingInput
    split <;> rfl
  show (middle.1.confirmPendingInput id).1.pendingTxs.lookup key = _
  rw [hReceived]
  unfold confirmPendingTx at hMiddle
  split at hMiddle
  · obtain rfl := Option.some.inj hMiddle
    rfl
  · obtain ⟨wallet, _, rfl⟩ := Option.map_eq_some_iff.mp hMiddle
    exact Finmap.lookup_erase_ne h.symm

/-- A transaction that has been sent stays pending. -/
theorem lookup_step {call : Call} (hLeaves : call.Leaves crypto tx)
    (hStep : client.step signing call = some next)
    (hSent : client.pendingTxs.lookup (txId crypto tx) = some tx) :
    next.pendingTxs.lookup (txId crypto tx) = some tx := by
  have hImport : ∀ other, (client.importTransaction other).pendingTxs.lookup (txId crypto tx) =
      some tx := fun other => Table.lookup_emplace_of_lookup _ _ hSent
  cases call with
  | create call =>
      obtain rfl := Option.some.inj hStep
      rw [pendingTxs_create]
      exact hSent
  | send other answer =>
      obtain ⟨after, hAfter, rfl⟩ := Option.map_eq_some_iff.mp hStep
      rcases hLeaves with ⟨rfl, hAnswer⟩ | ⟨hId, _⟩
      · rw [sendTransaction_of_not_confirmed hAnswer] at hAfter
        obtain rfl := Option.some.inj hAfter
        exact hImport _
      · rcases sendTransaction_cases hAfter with hSame | ⟨confirmed, hConfirmed, hSame⟩
        · rw [hSame]
          exact hImport other
        · rw [hSame]
          exact (lookup_confirmTransaction hId hConfirmed).trans (hImport other)
  | confirm id =>
      obtain ⟨after, hAfter, rfl⟩ := Option.map_eq_some_iff.mp hStep
      exact (lookup_confirmTransaction hLeaves hAfter).trans hSent
  | abandon id =>
      obtain rfl := Option.some.inj hStep
      exact (lookup_abandonTransaction hLeaves).trans hSent
  | importInput inp =>
      obtain rfl := Option.some.inj hStep
      unfold importSendInput
      split
      · exact hSent
      · exact hSent

/-- Once it is sent without success the transaction is pending under its own ID, also if it
had been pending before. -/
theorem Reserved.lookup_send (h : client.Reserved tx) {answer : Option Wire.ExecuteResponse}
    (hAnswer : ∀ res ∈ answer, res.txStatus ≠ .named .confirmed)
    (hStep : client.step signing (.send tx answer) = some next) :
    next.pendingTxs.lookup (txId crypto tx) = some tx := by
  obtain ⟨after, hAfter, rfl⟩ := Option.map_eq_some_iff.mp hStep
  rw [sendTransaction_of_not_confirmed hAnswer] at hAfter
  obtain rfl := Option.some.inj hAfter
  show (Table.emplace client.pendingTxs (txId crypto tx) tx).lookup (txId crypto tx) = some tx
  cases hPending : client.pendingTxs.lookup (txId crypto tx) with
  | none => exact Table.lookup_emplace_self tx hPending
  | some other =>
      rw [h.self other hPending] at hPending
      exact Table.lookup_emplace_of_lookup _ _ hPending

/-- Along calls for other transactions, the coins stay set aside, and the transaction is
pending once it has been sent. -/
theorem Reserved.run {calls : List Call} {final : Client crypto} (h : client.Reserved tx)
    (hRun : run (Client.step signing) client calls = some final)
    (hLeaves : ∀ call ∈ calls, call.Leaves crypto tx) :
    final.Reserved tx ∧ ((∃ answer, .send tx answer ∈ calls) →
      final.pendingTxs.lookup (txId crypto tx) = some tx) := by
  have hAll := run_induction
    (motive := fun calls state => (∀ call ∈ calls, call.Leaves crypto tx) →
      state.Reserved tx ∧ ((∃ answer, .send tx answer ∈ calls) →
        state.pendingTxs.lookup (txId crypto tx) = some tx))
    (fun _ => ⟨h, fun ⟨_, hIn⟩ => nomatch hIn⟩)
    (fun calls state call next _ ih hStep hLeaves => by
      obtain ⟨hBefore, hLast⟩ := List.forall_mem_append.mp hLeaves
      rw [List.forall_mem_singleton] at hLast
      obtain ⟨hReserved, hWaiting⟩ := ih hBefore
      refine ⟨hReserved.step hLast hStep, ?_⟩
      rintro ⟨answer, hIn⟩
      rcases List.mem_append.mp hIn with hOld | hNow
      · exact lookup_step hLast hStep (hWaiting ⟨answer, hOld⟩)
      · obtain rfl := List.mem_singleton.mp hNow
        refine hReserved.lookup_send ?_ hStep
        exact hLast.elim And.right fun hOther => absurd rfl hOther.1)
    hRun
  exact hAll hLeaves

end Waiting

section Restored

/-- The inputs that are set aside and used nowhere else are all given back. -/
theorem giveBacks_eq {inputs : List Input} (hHashes : (inputs.map (Input.hash crypto)).Nodup)
    (hSpend : ∀ inp ∈ inputs, inp.hash crypto ∈ client.pendingSpend)
    (hFree : ∀ inp ∈ inputs, client.checkPending inp = false) :
    inputs.foldl giveBack client =
      { client with
        pendingSpend := Table.eraseAll client.pendingSpend
          ((inputs.map (Input.hash crypto) : List Hash) : Multiset Hash)
        wallet := { client.wallet with
          coins := inputs.foldl Coins.credit client.wallet.coins } } := by
  induction inputs generalizing client with
  | nil => rfl
  | cons inp inputs ih =>
      obtain ⟨hSpendFirst, hSpendRest⟩ := List.forall_mem_cons.mp hSpend
      obtain ⟨hFreeFirst, hFreeRest⟩ := List.forall_mem_cons.mp hFree
      rw [List.map_cons, List.nodup_cons] at hHashes
      have hStep : client.giveBack inp =
          { client with
            pendingSpend := client.pendingSpend.erase (inp.hash crypto)
            wallet := client.wallet.confirmInputs [inp] } :=
        if_pos ⟨hSpendFirst, hFreeFirst⟩
      rw [List.foldl_cons, hStep, ih hHashes.2]
      · rfl
      · intro later hLater
        refine Finmap.mem_erase.mpr ⟨fun hSame => ?_, hSpendRest later hLater⟩
        exact hHashes.1 (hSame ▸ List.mem_map_of_mem hLater)
      · exact hFreeRest

/-- The inputs of a transaction are back in the wallet, each of them once. -/
structure Undone (tx : FullTx) (client after : Client crypto) : Prop where
  queue : after.wallet.coins.spendQueue = client.wallet.coins.spendQueue ++ tx.inputs
  once : ∀ inp ∈ tx.inputs, (after.wallet.coins.spendable crypto).count inp = 1 ∧
    after.wallet.coins.utxosSet.lookup inp.prevout = some inp.prevoutData
  released : ∀ inp ∈ tx.inputs, inp.hash crypto ∉ after.pendingSpend
  balance : after.wallet.coins.balance = client.wallet.coins.balance + sumValues tx.inputs

/-- As the coins are still set aside, abandoning the transaction credits every one of them,
once, and sets none of them aside any longer. -/
theorem undone_of_reserved (h : client.Reserved tx)
    (hSent : client.pendingTxs.lookup (txId crypto tx) = some tx)
    (hDistinct : (tx.inputs.map Input.prevout).Nodup)
    (hHashes : (tx.inputs.map (Input.hash crypto)).Nodup) :
    (client.abandonTransaction (txId crypto tx)).2 = true ∧
      Undone tx client (client.abandonTransaction (txId crypto tx)).1 := by
  have hFree : ∀ inp ∈ tx.inputs, { client with
      pendingTxs := client.pendingTxs.erase (txId crypto tx) }.checkPending inp = false := by
    intro inp hInp
    rw [checkPending_eq_false_iff]
    intro id other hOther hUsed
    obtain ⟨hId, hPending⟩ := Table.of_lookup_erase hOther
    exact (h.others id other hPending hId).inputs inp hInp inp hUsed rfl
  have hAbandoned : client.abandonTransaction (txId crypto tx) =
      (tx.inputs.foldl giveBack { client with
        pendingTxs := client.pendingTxs.erase (txId crypto tx) }, true) := by
    rw [abandonTransaction, hSent]
  have hNew : ∀ inp ∈ tx.inputs, inp.prevout ∉ client.wallet.coins.utxosSet :=
    fun inp hInp => (h.lacks inp hInp).1
  obtain ⟨utxos, hCredits⟩ := Coins.credits_of_new hDistinct hNew
  have hSpend : ∀ inp ∈ tx.inputs, inp.hash crypto ∈ { client with
      pendingTxs := client.pendingTxs.erase (txId crypto tx) }.pendingSpend := h.spend
  rw [hAbandoned, giveBacks_eq hHashes hSpend hFree]
  refine ⟨rfl, ?_, ?_, ?_, ?_⟩
  · show (tx.inputs.foldl Coins.credit client.wallet.coins).spendQueue = _
    rw [hCredits]
  · intro inp hInp
    refine ⟨?_, Coins.lookup_credits_of_new hDistinct hNew hInp⟩
    have hSpendable : (tx.inputs.foldl Coins.credit client.wallet.coins).spendable crypto =
        client.wallet.coins.spendable crypto ++ tx.inputs := by
      rw [hCredits, Coins.spendable, Coins.spendable, List.append_assoc]
      rfl
    have hNotBefore : inp ∉ client.wallet.coins.spendable crypto :=
      fun hIn => (h.lacks inp hInp).2 (List.mem_map_of_mem hIn)
    show ((tx.inputs.foldl Coins.credit client.wallet.coins).spendable crypto).count inp = 1
    rw [hSpendable, List.count_append, List.count_eq_zero_of_not_mem hNotBefore,
      List.count_eq_one_of_mem hDistinct.of_map hInp]
  · intro inp hInp
    rw [← Finmap.lookup_eq_none]
    show (Table.eraseAll client.pendingSpend _).lookup (inp.hash crypto) = none
    rw [Table.lookup_eraseAll, if_pos (Multiset.mem_coe.mpr (List.mem_map_of_mem hInp))]
  · show (tx.inputs.foldl Coins.credit client.wallet.coins).balance = _
    rw [hCredits, Coins.balance_eq, Coins.balance_eq, add_right_comm]

end Restored

/-- No coin of the wallet is set aside or spent by a pending transaction. -/
structure Unreserved (client : Client crypto) : Prop where
  listed : client.wallet.coins.Listed
  notSpent : ∀ inp ∈ client.wallet.coins.spendable crypto, inp.hash crypto ∉ client.pendingSpend
  notUsed : ∀ inp ∈ client.wallet.coins.spendable crypto, ∀ id other,
    client.pendingTxs.lookup id = some other → inp.prevout ∉ other.inputs.map Input.prevout

/-- Nor is a coin about to be received again, and no coin is there twice. -/
structure Free (client : Client crypto) : Prop extends Unreserved client where
  distinct : ((client.wallet.coins.spendable crypto).map Input.prevout).Nodup
  notMade : ∀ inp ∈ client.wallet.coins.spendable crypto, ∀ id other,
    client.pendingTxs.lookup id = some other → inp.prevout.txId ≠ txId crypto other
  notReceived : ∀ inp ∈ client.wallet.coins.spendable crypto, ∀ id other,
    client.pendingInputs.lookup id = some other → other.prevout ≠ inp.prevout

/-- What `create` has taken from the wallet is set aside. -/
theorem Free.reserved {signing : Signing} {created : Client crypto} {call : Wallet.SpendCall}
    (h : client.Free) (hCreate : client.create signing call = (created, some tx))
    (hHashes : Set.InjOn (Input.hash crypto) {inp | inp ∈ tx.inputs ∨
      ∃ id other, client.pendingTxs.lookup id = some other ∧ inp ∈ other.inputs})
    (hIds : ∀ other, client.pendingTxs.lookup (txId crypto tx) = some other → other = tx) :
    created.Reserved tx ∧ (tx.inputs.map Input.prevout).Nodup := by
  rcases client.wallet.spend_cases signing call with
    hNone | ⟨seeds, queued, witness, hAvailable, _, hSome⟩
  · simp only [create, hNone, Prod.mk.injEq, reduceCtorEq, and_false] at hCreate
  · simp only [create, hSome, Prod.mk.injEq, Option.some.injEq] at hCreate
    obtain ⟨hCreated, hTx⟩ := hCreate
    have hInputs : tx.inputs = client.wallet.coins.spentInputs crypto seeds queued := by
      rw [← hTx, Wallet.inputs_signIf]
    have hSplit := (hAvailable.prevouts_perm crypto).nodup_iff.mp h.distinct
    rw [← hInputs] at hSplit
    have hTaken : ∀ inp ∈ tx.inputs, inp ∈ client.wallet.coins.spendable crypto := by
      intro inp hInp
      rw [hInputs] at hInp
      exact (hAvailable.spendable_perm crypto).mem_iff.mpr (List.mem_append_left _ hInp)
    have hGone : ∀ inp ∈ tx.inputs, inp.prevout ∉
        ((client.wallet.coins.spent seeds queued).spendable crypto).map Input.prevout :=
      fun inp hInp => List.disjoint_of_nodup_append hSplit (List.mem_map_of_mem hInp)
    rw [hTx] at hCreated
    subst hCreated
    refine ⟨⟨?_, ?_, ?_, ?_, hIds⟩, hSplit.of_append_left⟩
    · intro inp hInp
      exact (mem_registerPendingTx _ tx _).mpr (Or.inr (List.mem_map_of_mem hInp))
    · intro inp hInp
      refine ⟨fun hHeld => ?_, hGone inp hInp⟩
      exact hGone inp hInp ((h.listed.spent seeds queued).mem_spendable crypto hHeld)
    · intro id other hOther _
      have hUsed : ∀ inp ∈ tx.inputs, ∀ used ∈ other.inputs, used.prevout ≠ inp.prevout := by
        intro inp hInp used hUsed hSame
        exact h.notUsed inp (hTaken inp hInp) id other hOther
          (hSame ▸ List.mem_map_of_mem hUsed)
      refine ⟨hUsed, ?_, fun inp hInp => h.notMade inp (hTaken inp hInp) id other hOther⟩
      intro inp hInp used hIn hSame
      have hEq : used = inp := hHashes (Or.inr ⟨id, other, hOther, hIn⟩) (Or.inl hInp) hSame
      exact hUsed inp hInp used hIn (congrArg Input.prevout hEq)
    · intro inp hInp id other hOther
      exact h.notReceived inp (hTaken inp hInp) id other hOther

/-- A transaction that is created and sent, and not confirmed, can be given up after any
calls for other transactions: each of its inputs is back in the wallet once. What `send`
and `fan` do is to create and send it. -/
theorem abandon_undoes_send (signing : Signing) {client created final : Client crypto}
    {tx : FullTx} {call : Wallet.SpendCall} {calls : List Call} (hFree : client.Free)
    (hCreate : client.create signing call = (created, some tx))
    (hHashes : Set.InjOn (Input.hash crypto) {inp | inp ∈ tx.inputs ∨
      ∃ id other, client.pendingTxs.lookup id = some other ∧ inp ∈ other.inputs})
    (hIds : ∀ other, client.pendingTxs.lookup (txId crypto tx) = some other → other = tx)
    (hRun : run (step signing) created calls = some final)
    (hLeaves : ∀ call ∈ calls, call.Leaves crypto tx)
    (hSent : ∃ answer, .send tx answer ∈ calls) :
    (final.abandonTransaction (txId crypto tx)).2 = true ∧
      Undone tx final (final.abandonTransaction (txId crypto tx)).1 ∧
      ∀ answer, (client.createAndSend signing call answer).map Prod.fst =
        run (step signing) created [.send tx answer] := by
  obtain ⟨hReserved, hDistinct⟩ := hFree.reserved hCreate hHashes hIds
  obtain ⟨hFinal, hWaiting⟩ := hReserved.run hRun hLeaves
  have hNodup : (tx.inputs.map (Input.hash crypto)).Nodup :=
    List.Nodup.map_on (fun first hFirst second hSecond hSame =>
      hHashes (Or.inl hFirst) (Or.inl hSecond) hSame) hDistinct.of_map
  obtain ⟨hReturned, hUndone⟩ := undone_of_reserved hFinal (hWaiting hSent) hDistinct hNodup
  exact ⟨hReturned, hUndone, createAndSend_eq_run hCreate⟩

section FixedRuns

open Wallet

def clientWith (coins : List Input) : Client plainCrypto :=
  ofWallet (((Wallet.new plainCrypto).generateKey plainSigning ⟨plainKey 1, 0⟩).1.confirmInputs
    coins)

def firstCoin : Input := ⟨⟨.ofByte 20, 0⟩, payTo plainCrypto (plainKey 1) 5⟩

def secondCoin : Input := ⟨⟨.ofByte 30, 0⟩, payTo plainCrypto (plainKey 1) 7⟩

def pay (amount : UInt32) (payee : UInt8) : SpendCall :=
  .sendTo amount (plainKey payee) true ⟨plainKey 9, 0⟩

def made (client : Client plainCrypto) (call : SpendCall) : FullTx :=
  (client.create plainSigning call).2.getD ⟨[], [], []⟩

def confirmedAnswer : Wire.ExecuteResponse := ⟨.named .confirmed, none⟩

def bothCoins : Client plainCrypto := clientWith [firstCoin, secondCoin]

def secondPaid : FullTx := made (bothCoins.create plainSigning (pay 5 2)).1 (pay 7 3)

/-- The first coin is paid, and while it is pending the second one is paid and
confirmed. -/
def secondConfirmed : List Call :=
  [.create (pay 7 3), .send (made bothCoins (pay 5 2)) none,
    .send secondPaid (some confirmedAnswer)]

theorem bothCoins_free : bothCoins.Free where
  listed := (Coins.agrees_empty.credits [firstCoin, secondCoin]).toListed
  notSpent _ _ h := absurd h Finmap.notMem_empty
  notUsed _ _ _ _ h := nomatch h
  distinct := by decide +kernel
  notMade _ _ _ _ h := nomatch h
  notReceived _ _ _ _ h := nomatch h

theorem abandon_undoes_send_secondConfirmed :
    ∃ final, run (step plainSigning) (bothCoins.create plainSigning (pay 5 2)).1
        secondConfirmed = some final ∧
      (final.abandonTransaction (txId plainCrypto (made bothCoins (pay 5 2)))).2 = true ∧
      Undone (made bothCoins (pay 5 2)) final
        (final.abandonTransaction (txId plainCrypto (made bothCoins (pay 5 2)))).1 ∧
      ∀ answer, (bothCoins.createAndSend plainSigning (pay 5 2) answer).map Prod.fst =
        run (step plainSigning) (bothCoins.create plainSigning (pay 5 2)).1
          [.send (made bothCoins (pay 5 2)) answer] := by
  have hTest : (run (step plainSigning)
      (bothCoins.create plainSigning (pay 5 2)).1 secondConfirmed).isSome = true := by
    decide +kernel
  obtain ⟨final, hRun⟩ := Option.isSome_iff_exists.mp hTest
  have hCreate : bothCoins.create plainSigning (pay 5 2) =
      ((bothCoins.create plainSigning (pay 5 2)).1, some (made bothCoins (pay 5 2))) := by
    have hSome : (bothCoins.create plainSigning (pay 5 2)).2 =
        some (made bothCoins (pay 5 2)) := by
      decide +kernel
    exact Prod.ext rfl hSome
  have hInputs : (made bothCoins (pay 5 2)).inputs = [firstCoin] := by decide +kernel
  have hNone : ∀ id, bothCoins.pendingTxs.lookup id = none := fun _ => Finmap.lookup_empty _
  have hOnly : ∀ inp ∈ {inp | inp ∈ (made bothCoins (pay 5 2)).inputs ∨ ∃ id other,
      bothCoins.pendingTxs.lookup id = some other ∧ inp ∈ other.inputs}, inp = firstCoin := by
    rintro inp (hInp | ⟨id, other, hOther, _⟩)
    · rw [hInputs] at hInp
      exact List.mem_singleton.mp hInp
    · rw [hNone] at hOther
      cases hOther
  have hApart : FullTx.Apart plainCrypto (made bothCoins (pay 5 2)) secondPaid :=
    ⟨by decide +kernel, by decide +kernel, by decide +kernel⟩
  refine ⟨final, hRun, abandon_undoes_send plainSigning bothCoins_free hCreate ?_ ?_ hRun ?_ ?_⟩
  · exact fun first hFirst second hSecond _ =>
      (hOnly first hFirst).trans (hOnly second hSecond).symm
  · intro other hOther
    rw [hNone] at hOther
    cases hOther
  · refine List.forall_mem_cons.mpr ⟨trivial, List.forall_mem_cons.mpr ⟨?_, ?_⟩⟩
    · exact Or.inl ⟨rfl, fun _ h => nomatch h⟩
    · exact List.forall_mem_singleton.mpr (Or.inr ⟨by decide +kernel, hApart⟩)
  · exact ⟨none, by simp [secondConfirmed]⟩

def afterCalls (calls : List Call) : Client plainCrypto :=
  (run (step plainSigning) (clientWith [firstCoin]) calls).getD
    (clientWith [firstCoin])

/-- A payment to somebody else, and one to a key of the client. -/
def firstPaid : FullTx := made (clientWith [firstCoin]) (pay 5 2)

def selfPaid : FullTx := made (clientWith [firstCoin]) (pay 5 1)

/-- The payment has been given up, so that its coin can be spent again. -/
def givenUp : Client plainCrypto :=
  afterCalls [.create (pay 5 2), .send firstPaid none, .abandon (txId plainCrypto firstPaid)]

/-- The other payment is confirmed, and then sent a second time. -/
def sentTwice : Client plainCrypto :=
  afterCalls [.create (pay 5 1), .send selfPaid (some confirmedAnswer), .send selfPaid none]

/-- It is confirmed, and then its output is imported. -/
def imported : Client plainCrypto :=
  afterCalls [.create (pay 5 1), .send selfPaid (some confirmedAnswer),
    .importInput ⟨⟨txId plainCrypto selfPaid, 0⟩, payTo plainCrypto (plainKey 1) 5⟩]

/-- The coin of value 5 that a transaction has spent is not restored when the transaction
is given up after some calls. -/
def NotRestored (client : Client plainCrypto) (call : SpendCall) (calls : FullTx → List Call) :
    Prop :=
  ∃ created tx final, client.create plainSigning call = (created, some tx) ∧
    sumValues tx.inputs = 5 ∧
    run (step plainSigning) created (calls tx) = some final ∧
    (final.abandonTransaction (txId plainCrypto tx)).1.wallet.coins.balance =
      final.wallet.coins.balance

theorem notRestored_of_test {client : Client plainCrypto} {call : SpendCall}
    {calls : FullTx → List Call}
    (h : (client.create plainSigning call).2.any (fun tx => decide (sumValues tx.inputs = 5) &&
      (run (step plainSigning) (client.create plainSigning call).1
        (calls tx)).any (fun final => decide
          ((final.abandonTransaction (txId plainCrypto tx)).1.wallet.coins.balance =
            final.wallet.coins.balance))) = true) : NotRestored client call calls := by
  obtain ⟨tx, hMade, hTx⟩ := (Option.any_eq_true _ _).mp h
  rw [Bool.and_eq_true] at hTx
  obtain ⟨final, hRun, hFinal⟩ := exists_run_of_test hTx.2
  exact ⟨_, tx, final, Prod.ext rfl hMade, of_decide_eq_true hTx.1, hRun,
    of_decide_eq_true hFinal⟩

theorem unreserved_of_test {client : Client crypto}
    (h : (Collection.table Coins.coinRow).Order client.wallet.coins.utxosSet
        client.wallet.coins.spendQueue ∧
      ∀ inp ∈ client.wallet.coins.spendable crypto, inp.hash crypto ∉ client.pendingSpend ∧
        client.pendingTxs.all
          (fun _ other => decide (inp.prevout ∉ other.inputs.map Input.prevout)) = true) :
    client.Unreserved where
  listed := Coins.listed_iff_order.mpr h.1
  notSpent inp hInp := (h.2 inp hInp).1
  notUsed inp hInp id other hOther :=
    of_decide_eq_true (Table.all_eq_true_iff.mp (h.2 inp hInp).2 id other hOther)

/-- A coin is not put back if a transaction that was given up is sent again, if the
transaction that has made the coin is confirmed again, or if the coin is imported again. -/
theorem abandon_restores_nothing :
    (givenUp.Unreserved ∧
      NotRestored givenUp (pay 5 3) fun tx => [.send tx none, .send firstPaid none]) ∧
    (sentTwice.Unreserved ∧ NotRestored sentTwice (pay 5 3) fun tx =>
      [.send tx none, .confirm (txId plainCrypto selfPaid)]) ∧
    (imported.Unreserved ∧ NotRestored imported (pay 5 3) fun tx =>
      [.send tx none, .confirm (txId plainCrypto selfPaid)]) := by
  refine ⟨⟨unreserved_of_test ?_, notRestored_of_test ?_⟩,
    ⟨unreserved_of_test ?_, notRestored_of_test ?_⟩,
    ⟨unreserved_of_test ?_, notRestored_of_test ?_⟩⟩
  all_goals decide +kernel

end FixedRuns

end Client
end OpenCbdc

import OpenCbdc.Client.Abandon

/-! Coins that somebody else has sent: they are imported, and credited when the transaction
that made them is confirmed. A client keeps one imported coin for each transaction. -/
namespace OpenCbdc.Client

open TransitionSystem

variable {crypto : Crypto} {start client after : Client crypto} {inp : Input}

/-- The pending coins are kept under the transactions that made them. -/
def Keyed (client : Client crypto) : Prop :=
  ∀ id inp, client.pendingInputs.lookup id = some inp → inp.prevout.txId = id

section Keyed

theorem keyed_ofWallet (wallet : Wallet crypto) : (ofWallet wallet).Keyed :=
  fun _ _ h => nomatch h

theorem Keyed.importSendInput (h : client.Keyed) (inp : Input) :
    (client.importSendInput inp).Keyed := by
  unfold Client.importSendInput
  split
  · intro id found hLookup
    rcases Table.of_lookup_emplace hLookup with ⟨rfl, rfl⟩ | hOld
    · rfl
    · exact h id found hOld
  · exact h

theorem Keyed.confirmPendingInput (h : client.Keyed) (id : Hash) :
    (client.confirmPendingInput id).1.Keyed := by
  unfold Client.confirmPendingInput
  split
  · exact h
  · exact fun other found hLookup => h other found (Table.of_lookup_erase hLookup).2

theorem Keyed.of_same (h : client.Keyed) (hSame : after.pendingInputs = client.pendingInputs) :
    after.Keyed := by
  rw [Keyed, hSame]
  exact h

theorem Keyed.confirmTransaction (h : client.Keyed) {id : Hash} {result : Client crypto × Bool}
    (hConfirm : client.confirmTransaction id = some result) : result.1.Keyed := by
  obtain ⟨⟨middle, success⟩, hMiddle, rfl⟩ := Option.map_eq_some_iff.mp hConfirm
  have hSame : middle.pendingInputs = client.pendingInputs := by
    unfold confirmPendingTx at hMiddle
    split at hMiddle
    · cases hMiddle
      rfl
    · obtain ⟨wallet, _, hWallet⟩ := Option.map_eq_some_iff.mp hMiddle
      cases hWallet
      rfl
  exact (h.of_same hSame).confirmPendingInput id

/-- No call puts a coin under the ID of another transaction. -/
theorem Keyed.step (h : client.Keyed) {signing : Signing} {call : Call}
    (hStep : client.step signing call = some after) : after.Keyed := by
  cases call with
  | create call =>
      cases hStep
      refine h.of_same ?_
      unfold create
      split <;> rfl
  | send tx answer =>
      obtain ⟨result, hSend, rfl⟩ := Option.map_eq_some_iff.mp hStep
      have hImported : (client.importTransaction tx).Keyed := h.of_same rfl
      rcases sendTransaction_cases hSend with hSame | ⟨confirmed, hConfirmed, hSame⟩
      · exact hSame ▸ hImported
      · exact hSame ▸ hImported.confirmTransaction hConfirmed
  | confirm id =>
      obtain ⟨result, hConfirm, rfl⟩ := Option.map_eq_some_iff.mp hStep
      exact h.confirmTransaction hConfirm
  | abandon id =>
      cases hStep
      refine h.of_same ?_
      unfold abandonTransaction
      split
      · rfl
      · exact List.foldlRecOn _ giveBack (motive := fun after : Client crypto =>
          after.pendingInputs = client.pendingInputs) rfl fun after hAfter inp _ => by
            unfold giveBack
            split <;> exact hAfter
  | importInput inp =>
      cases hStep
      exact h.importSendInput inp

end Keyed

/-- A coin is imported, or a transaction is confirmed. -/
inductive Delivery where
  | importInput (inp : Input)
  | confirm (id : Hash)

def Delivery.call : Delivery → Call
  | importInput inp => .importInput inp
  | confirm id => .confirm id

def deliver (signing : Signing) (client : Client crypto) (delivery : Delivery) :
    Option (Client crypto) :=
  client.step signing delivery.call

def imports (deliveries : List Delivery) : List Input :=
  deliveries.filterMap fun
    | .importInput inp => some inp
    | .confirm _ => none

/-- The transaction of every coin is confirmed after it was imported, and no other one
is. -/
def Settled : List Input → List Delivery → Prop
  | _, [] => True
  | imported, .importInput inp :: rest =>
      .confirm inp.prevout.txId ∈ rest ∧ Settled (imported ++ [inp]) rest
  | imported, .confirm id :: rest =>
      (∃ inp ∈ imported, inp.prevout.txId = id) ∧ Settled imported rest

/-- After some coins were imported, more are imported and all are confirmed. They are
spendable and new, and their transactions are not the client's own. -/
structure Delivers (start : Client crypto) (imported : List Input) (rest : List Delivery) :
    Prop where
  spendable : ∀ inp ∈ imports rest, start.wallet.keys.isSpendable inp = true
  distinct : ((imported ++ imports rest).map Input.prevout).Nodup
  new : ∀ inp ∈ imported ++ imports rest, inp.prevout ∉ start.wallet.coins.utxosSet
  foreign : ∀ inp ∈ imported ++ imports rest, inp.prevout.txId ∉ start.pendingTxs
  settled : Settled imported rest

/-- The coins are in the wallet, each with its data, and the balance has risen by their
values. -/
def Credited (start final : Client crypto) (inputs : List Input) : Prop :=
  (∀ inp ∈ inputs, final.wallet.coins.utxosSet.lookup inp.prevout = some inp.prevoutData) ∧
    final.wallet.coins.balance = start.wallet.coins.balance + sumValues inputs

/-- No other coin of the same transaction is pending when a coin is imported. -/
def Storable (client : Client crypto) : Delivery → Prop
  | .importInput inp => ∀ other ∈ client.pendingInputs.lookup inp.prevout.txId, other = inp
  | .confirm _ => True

instance (client : Client crypto) : (delivery : Delivery) → Decidable (client.Storable delivery)
  | .importInput inp => inferInstanceAs
      (Decidable (∀ other ∈ client.pendingInputs.lookup inp.prevout.txId, other = inp))
  | .confirm _ => isTrue trivial

section Deliveries

variable {imported credited : List Input} {rest : List Delivery}

theorem Delivers.tail_import (h : Delivers start imported (.importInput inp :: rest)) :
    Delivers start (imported ++ [inp]) rest := by
  have hImports : imported ++ imports (.importInput inp :: rest) =
      imported ++ [inp] ++ imports rest := by
    simp [imports]
  exact ⟨fun other hOther => h.spendable other (List.mem_cons_of_mem _ hOther),
    hImports ▸ h.distinct, hImports ▸ h.new, hImports ▸ h.foreign, h.settled.2⟩

theorem Delivers.tail_confirm {id : Hash} (h : Delivers start imported (.confirm id :: rest)) :
    Delivers start imported rest where
  spendable := h.spendable
  distinct := h.distinct
  new := h.new
  foreign := h.foreign
  settled := h.settled.2

theorem importSendInput_of_spendable (h : client.wallet.keys.isSpendable inp = true) :
    client.importSendInput inp =
      { client with pendingInputs := Table.emplace client.pendingInputs inp.prevout.txId inp } :=
  if_pos h

theorem deliver_confirm (signing : Signing) {id : Hash} (h : id ∉ client.pendingTxs) :
    client.deliver signing (.confirm id) = some (client.confirmPendingInput id).1 := by
  have hNone : client.pendingTxs.lookup id = none := Finmap.lookup_eq_none.mpr h
  simp [deliver, Delivery.call, step, confirmTransaction, confirmPendingTx, hNone]

/-- The imported coins are credited or wait under their own transactions. -/
structure Progress (start client : Client crypto) (imported credited : List Input)
    (rest : List Delivery) : Prop where
  keys : client.wallet.keys = start.wallet.keys
  txs : client.pendingTxs = start.pendingTxs
  coins : client.wallet.coins = credited.foldl Coins.credit start.wallet.coins
  distinct : (credited.map Input.prevout).Nodup
  subset : ∀ inp ∈ credited, inp ∈ imported
  waiting : ∀ inp ∈ imported, inp ∈ credited ∨
    client.pendingInputs.lookup inp.prevout.txId = some inp ∧ .confirm inp.prevout.txId ∈ rest
  found : ∀ inp ∈ imported, ∀ other, client.pendingInputs.lookup inp.prevout.txId = some other →
    other ∈ imported ∧ other ∉ credited

theorem progress_start (start : Client crypto) (rest : List Delivery) :
    Progress start start [] [] rest where
  keys := rfl
  txs := rfl
  coins := rfl
  distinct := List.nodup_nil
  subset _ h := nomatch h
  waiting _ h := nomatch h
  found _ h := nomatch h

theorem Delivers.notMem (h : Delivers start imported (.importInput inp :: rest)) :
    inp.prevout ∉ imported.map Input.prevout := by
  have hDistinct := h.distinct
  rw [List.map_append, List.nodup_append] at hDistinct
  intro hMem
  exact hDistinct.2.2 _ hMem _ (List.mem_map_of_mem (List.mem_cons_self ..)) rfl

/-- A coin that is imported waits under the transaction that made it, since no other coin of
it waits there. -/
theorem Progress.importInput
    (h : Progress start client imported credited (.importInput inp :: rest))
    (hDelivers : Delivers start imported (.importInput inp :: rest))
    (hStorable : client.Storable (.importInput inp)) :
    Progress start (client.importSendInput inp) (imported ++ [inp]) credited rest := by
  have hSpendable : client.wallet.keys.isSpendable inp = true := by
    rw [h.keys]
    exact hDelivers.spendable inp (List.mem_cons_self ..)
  have hNew : inp ∉ imported := fun hMem => hDelivers.notMem (List.mem_map_of_mem hMem)
  have hOwn : (Table.emplace client.pendingInputs inp.prevout.txId inp).lookup
      inp.prevout.txId = some inp := by
    cases hLookup : client.pendingInputs.lookup inp.prevout.txId with
    | none => exact Table.lookup_emplace_self inp hLookup
    | some other =>
        rw [← hStorable other hLookup]
        exact Table.lookup_emplace_of_lookup _ _ (hStorable other hLookup ▸ hLookup)
  rw [importSendInput_of_spendable hSpendable]
  refine ⟨h.keys, h.txs, h.coins, h.distinct,
    fun other hOther => List.mem_append_left _ (h.subset other hOther), ?_, ?_⟩
  · intro other hOther
    rcases List.mem_append.mp hOther with hOld | hLast
    · rcases h.waiting other hOld with hCredited | ⟨hLookup, hConfirm⟩
      · exact Or.inl hCredited
      · refine Or.inr ⟨Table.lookup_emplace_of_lookup _ _ hLookup, ?_⟩
        simpa using hConfirm
    · rw [List.mem_singleton.mp hLast]
      exact Or.inr ⟨hOwn, hDelivers.settled.1⟩
  · intro other hOther found hFound
    by_cases hSame : other.prevout.txId = inp.prevout.txId
    · rw [hSame] at hFound
      obtain rfl : inp = found := Option.some.inj (hOwn.symm.trans hFound)
      exact ⟨List.mem_append_right _ (List.mem_singleton_self _), fun hCredited =>
        hNew (h.subset _ hCredited)⟩
    · rw [Table.lookup_emplace_of_ne _ _ hSame] at hFound
      have hOld : other ∈ imported := by
        rcases List.mem_append.mp hOther with hOld | hLast
        · exact hOld
        · exact absurd (List.mem_singleton.mp hLast ▸ rfl) hSame
      obtain ⟨hFoundOld, hNot⟩ := h.found other hOld found hFound
      exact ⟨List.mem_append_left _ hFoundOld, hNot⟩

/-- A confirmation credits the coin that waits under its ID, if there is one. The other
coins go on waiting. -/
theorem Progress.confirm (signing : Signing) {id : Hash}
    (h : Progress start client imported credited (.confirm id :: rest))
    (hDelivers : Delivers start imported (.confirm id :: rest)) (hKeyed : client.Keyed) :
    ∃ later, client.deliver signing (.confirm id) = some (client.confirmPendingInput id).1 ∧
      Progress start (client.confirmPendingInput id).1 imported later rest := by
  obtain ⟨asked, hMem, rfl⟩ := hDelivers.settled.1
  have hForeign : asked.prevout.txId ∉ client.pendingTxs :=
    h.txs ▸ hDelivers.foreign asked (List.mem_append_left _ hMem)
  have hLater : ∀ {inp : Input}, inp.prevout.txId ≠ asked.prevout.txId →
      .confirm inp.prevout.txId ∈ (.confirm asked.prevout.txId :: rest : List Delivery) →
      .confirm inp.prevout.txId ∈ rest := by
    intro inp hNe hConfirm
    rcases List.mem_cons.mp hConfirm with hSame | hRest
    · exact absurd (Delivery.confirm.inj hSame) hNe
    · exact hRest
  unfold confirmPendingInput
  cases hLookup : client.pendingInputs.lookup asked.prevout.txId with
  | none =>
      refine ⟨credited, ?_, h.keys, h.txs, h.coins, h.distinct, h.subset, ?_, h.found⟩
      · rw [deliver_confirm signing hForeign, confirmPendingInput, hLookup]
      · intro inp hInp
        refine (h.waiting inp hInp).imp_right fun ⟨hWaits, hConfirm⟩ =>
          ⟨hWaits, hLater ?_ hConfirm⟩
        intro hSame
        rw [hSame, hLookup] at hWaits
        cases hWaits
  | some other =>
      obtain ⟨hOther, hNot⟩ := h.found asked hMem other hLookup
      have hTx : other.prevout.txId = asked.prevout.txId := hKeyed _ _ hLookup
      refine ⟨credited ++ [other], ?_, h.keys, h.txs, ?_, ?_, ?_, ?_, ?_⟩
      · rw [deliver_confirm signing hForeign, confirmPendingInput, hLookup]
      · rw [List.foldl_append, ← h.coins]
        rfl
      · rw [List.map_append, List.map_singleton, ← List.concat_eq_append]
        refine h.distinct.concat fun hHeld => ?_
        obtain ⟨held, hHeld, hSame⟩ := List.mem_map.mp hHeld
        have hImported : (imported.map Input.prevout).Nodup := by
          have hDistinct := hDelivers.distinct
          rw [List.map_append] at hDistinct
          exact hDistinct.of_append_left
        exact hNot (List.inj_on_of_nodup_map hImported (h.subset held hHeld) hOther hSame ▸ hHeld)
      · intro inp hInp
        rcases List.mem_append.mp hInp with hOld | hLast
        · exact h.subset inp hOld
        · exact List.mem_singleton.mp hLast ▸ hOther
      · intro inp hInp
        rcases h.waiting inp hInp with hCredited | ⟨hWaits, hConfirm⟩
        · exact Or.inl (List.mem_append_left _ hCredited)
        · by_cases hSame : inp.prevout.txId = asked.prevout.txId
          · rw [hSame, hLookup] at hWaits
            cases hWaits
            exact Or.inl (List.mem_append_right _ (List.mem_singleton_self _))
          · exact Or.inr ⟨(Finmap.lookup_erase_ne hSame).trans hWaits, hLater hSame hConfirm⟩
      · intro inp hInp found hFound
        obtain ⟨hNe, hOld⟩ := Table.of_lookup_erase hFound
        obtain ⟨hFoundOld, hNotFound⟩ := h.found inp hInp found hOld
        refine ⟨hFoundOld, fun hCredited => ?_⟩
        rcases List.mem_append.mp hCredited with hBefore | hLast
        · exact hNotFound hBefore
        · rw [List.mem_singleton.mp hLast] at hOld
          exact hNe ((hKeyed _ _ hOld).symm.trans hTx)

/-- Once everything is confirmed, all coins are in the wallet. -/
theorem Progress.allCredited (h : Progress start client imported credited [])
    (hDelivers : Delivers start imported []) : Credited start client imported := by
  have hAll : ∀ inp ∈ imported, inp ∈ credited := by
    intro inp hInp
    rcases h.waiting inp hInp with hCredited | ⟨_, hConfirm⟩
    · exact hCredited
    · cases hConfirm
  have hNew : ∀ inp ∈ credited, inp.prevout ∉ start.wallet.coins.utxosSet := fun inp hInp =>
    hDelivers.new inp (List.mem_append_left _ (h.subset inp hInp))
  have hDistinct : (imported.map Input.prevout).Nodup := by
    have hBoth := hDelivers.distinct
    rwa [imports, List.filterMap_nil, List.append_nil] at hBoth
  constructor
  · intro inp hInp
    rw [h.coins]
    exact Coins.lookup_credits_of_new h.distinct hNew (hAll inp hInp)
  · have hPerm : credited.Perm imported :=
      (List.perm_ext_iff_of_nodup h.distinct.of_map hDistinct.of_map).mpr fun inp =>
        ⟨h.subset inp, hAll inp⟩
    have hSum : sumValues credited = sumValues imported := by
      rw [sumValues, sumValues]
      exact (hPerm.map _).sum_eq
    obtain ⟨utxos, hCredits⟩ := Coins.credits_of_new h.distinct hNew
    rw [h.coins, hCredits, Coins.balance_eq, Coins.balance_eq, ← hSum, add_right_comm]

structure Lost (start : Client crypto) (inp : Input) (client : Client crypto) : Prop where
  txs : client.pendingTxs = start.pendingTxs
  notPending : ∀ id, client.pendingInputs.lookup id ≠ some inp
  notHeld : client.wallet.coins.utxosSet.lookup inp.prevout ≠ some inp.prevoutData

theorem Lost.importInput (h : Lost start inp client) {other : Input} (hNe : other ≠ inp) :
    Lost start inp (client.importSendInput other) := by
  unfold importSendInput
  split
  · refine ⟨h.txs, fun id hLookup => ?_, h.notHeld⟩
    rcases Table.of_lookup_emplace hLookup with ⟨_, hSame⟩ | hOld
    · exact hNe hSame
    · exact h.notPending id hOld
  · exact h

/-- A coin that is lost is not found again by a confirmation. -/
theorem Lost.confirm (h : Lost start inp client) (id : Hash) :
    Lost start inp (client.confirmPendingInput id).1 := by
  unfold confirmPendingInput
  split
  · exact h
  case _ other hLookup =>
      refine ⟨h.txs, fun key hKey => h.notPending key (Table.of_lookup_erase hKey).2, ?_⟩
      show (client.wallet.coins.credit other).utxosSet.lookup inp.prevout ≠ _
      unfold Coins.credit
      split
      · exact h.notHeld
      · intro hHeld
        rcases Table.of_lookup_insert hHeld with ⟨hPrevout, hData⟩ | ⟨_, hOld⟩
        · have hSame : other = inp := by
            cases other
            cases inp
            simp_all
          exact h.notPending id (hSame ▸ hLookup)
        · exact h.notHeld hOld

/-- A coin that is lost stays lost. -/
theorem Lost.run (h : Lost start inp client) (signing : Signing)
    (hDelivers : Delivers start imported rest) (hMem : inp ∈ imported) :
    ∃ final, run (deliver signing) client rest = some final ∧
      Lost start inp final := by
  induction rest generalizing client imported with
  | nil => exact ⟨client, rfl, h⟩
  | cons delivery rest ih =>
      cases delivery with
      | importInput other =>
          have hNe : other ≠ inp := by
            rintro rfl
            exact hDelivers.notMem (List.mem_map_of_mem hMem)
          exact ih (h.importInput hNe) hDelivers.tail_import (List.mem_append_left _ hMem)
      | confirm id =>
          obtain ⟨asked, hAsked, rfl⟩ := hDelivers.settled.1
          have hForeign : asked.prevout.txId ∉ client.pendingTxs :=
            h.txs ▸ hDelivers.foreign asked (List.mem_append_left _ hAsked)
          obtain ⟨final, hFinal, hLost⟩ := ih (h.confirm _) hDelivers.tail_confirm hMem
          refine ⟨final, ?_, hLost⟩
          rw [run, deliver_confirm signing hForeign]
          exact hFinal

/-- A coin is lost when it is imported while another one of its transaction is pending. -/
theorem Progress.lost (h : Progress start client imported credited (.importInput inp :: rest))
    (hDelivers : Delivers start imported (.importInput inp :: rest)) (hKeyed : client.Keyed)
    (hNot : ¬client.Storable (.importInput inp)) :
    Lost start inp (client.importSendInput inp) := by
  obtain ⟨other, hLookup, hNe⟩ : ∃ other,
      client.pendingInputs.lookup inp.prevout.txId = some other ∧ other ≠ inp := by
    simpa [Storable] using hNot
  have hSpendable : client.wallet.keys.isSpendable inp = true := by
    rw [h.keys]
    exact hDelivers.spendable inp (List.mem_cons_self ..)
  have hHeld : inp.prevout ∉ client.wallet.coins.utxosSet := by
    rw [h.coins, Coins.mem_credits]
    rintro (hCredited | hOld)
    · obtain ⟨held, hHeld, hSame⟩ := List.mem_map.mp hCredited
      exact hDelivers.notMem (hSame ▸ List.mem_map_of_mem (h.subset held hHeld))
    · exact hDelivers.new inp (List.mem_append_right _ (List.mem_cons_self ..)) hOld
  have hKept : Table.emplace client.pendingInputs inp.prevout.txId inp = client.pendingInputs :=
    if_pos (Finmap.mem_iff.mpr ⟨other, hLookup⟩)
  rw [importSendInput_of_spendable hSpendable, hKept]
  refine ⟨h.txs, fun id hPending => ?_, ?_⟩
  · rw [hKeyed id inp hPending, hPending] at hLookup
    exact hNe (Option.some.inj hLookup).symm
  · rw [Finmap.lookup_eq_none.mpr hHeld]
    exact nofun

/-- Along a whole delivery every coin is credited if each was storable when it came.
Otherwise one of them is lost. -/
theorem Progress.run (h : Progress start client imported credited rest) (signing : Signing)
    (hDelivers : Delivers start imported rest) (hKeyed : client.Keyed) :
    ∃ final, run (deliver signing) client rest = some final ∧
      (Guarded (deliver signing) client Storable rest ∧
          Credited start final (imported ++ imports rest) ∨
        ¬Guarded (deliver signing) client Storable rest ∧
          ∃ inp ∈ imports rest, Lost start inp final) := by
  induction rest generalizing client imported credited with
  | nil =>
      refine ⟨client, rfl, Or.inl ⟨guarded_nil _ _, ?_⟩⟩
      simpa [imports] using h.allCredited hDelivers
  | cons delivery rest ih =>
      cases delivery with
      | importInput inp =>
          have hStep : client.deliver signing (.importInput inp) =
              some (client.importSendInput inp) := rfl
          rw [run, hStep, Option.bind_some,
            guarded_cons_iff hStep]
          by_cases hStorable : client.Storable (.importInput inp)
          · obtain ⟨final, hFinal, hEnd⟩ := ih (h.importInput hDelivers hStorable)
              hDelivers.tail_import (hKeyed.importSendInput inp)
            refine ⟨final, hFinal, ?_⟩
            rcases hEnd with ⟨hGuarded, hCredited⟩ | ⟨hNot, lost, hMem, hLost⟩
            · refine Or.inl ⟨⟨hStorable, hGuarded⟩, ?_⟩
              simpa [imports] using hCredited
            · exact Or.inr ⟨fun hBoth => hNot hBoth.2, lost, List.mem_cons_of_mem _ hMem, hLost⟩
          · obtain ⟨final, hFinal, hLost⟩ := (h.lost hDelivers hKeyed hStorable).run
              signing hDelivers.tail_import (List.mem_append_right _ (List.mem_singleton_self _))
            exact ⟨final, hFinal, Or.inr ⟨fun hBoth => hStorable hBoth.1, inp,
              List.mem_cons_self .., hLost⟩⟩
      | confirm id =>
          obtain ⟨later, hStep, hNext⟩ := h.confirm signing hDelivers hKeyed
          rw [run, hStep, Option.bind_some,
            guarded_cons_iff hStep]
          obtain ⟨final, hFinal, hEnd⟩ := ih hNext hDelivers.tail_confirm
            (hKeyed.confirmPendingInput id)
          refine ⟨final, hFinal, ?_⟩
          rcases hEnd with ⟨hGuarded, hCredited⟩ | ⟨hNot, hLost⟩
          · exact Or.inl ⟨⟨trivial, hGuarded⟩, hCredited⟩
          · exact Or.inr ⟨fun hBoth => hNot hBoth.2, hLost⟩

end Deliveries

/-- Every imported coin is credited exactly when none is imported while another one of the
same transaction is pending. -/
theorem imports_credited_iff (signing : Signing) {client : Client crypto}
    {deliveries : List Delivery} (hKeyed : client.Keyed)
    (hDelivers : Delivers client [] deliveries) :
    (∃ final, run (deliver signing) client deliveries = some final ∧
        Credited client final (imports deliveries)) ↔
      Guarded (deliver signing) client Storable deliveries := by
  obtain ⟨final, hFinal, hEnd⟩ :=
    (progress_start client deliveries).run signing hDelivers hKeyed
  rcases hEnd with ⟨hGuarded, hCredited⟩ | ⟨hNot, inp, hMem, hLost⟩
  · exact iff_of_true ⟨final, hFinal, hCredited⟩ hGuarded
  · refine iff_of_false ?_ hNot
    rintro ⟨other, hOther, hCredited, _⟩
    obtain rfl : final = other := Option.some.inj (hFinal.symm.trans hOther)
    exact hLost.notHeld (hCredited inp hMem)

section FixedDeliveries

open Wallet

def twoTransactions : List Delivery :=
  [.importInput firstCoin, .importInput secondCoin, .confirm secondCoin.prevout.txId,
    .confirm firstCoin.prevout.txId]

/-- The second output of the transaction of the first coin. -/
def fannedCoin : Input := ⟨⟨firstCoin.prevout.txId, 1⟩, firstCoin.prevoutData⟩

def oneTransaction : List Delivery :=
  [.importInput firstCoin, .importInput fannedCoin, .confirm firstCoin.prevout.txId,
    .confirm fannedCoin.prevout.txId]

theorem imports_credited_twoTransactions :
    ∃ final, run (deliver plainSigning) (clientWith []) twoTransactions =
        some final ∧
      Credited (clientWith []) final [firstCoin, secondCoin] := by
  have hDelivers : Delivers (clientWith []) [] twoTransactions := {
    spendable := by decide +kernel
    distinct := by decide +kernel
    new := by decide +kernel
    foreign := by decide +kernel
    settled := by
      refine ⟨by simp, by simp, ⟨secondCoin, by simp, rfl⟩, ⟨firstCoin, by simp, rfl⟩, trivial⟩ }
  have hStorable : Guarded (deliver plainSigning) (clientWith []) Storable
      twoTransactions := by
    decide +kernel
  exact (imports_credited_iff plainSigning (keyed_ofWallet _) hDelivers).mpr hStorable

/-- Only the first of the two coins is credited, and nothing is pending any more. -/
theorem fanned_coin_is_lost :
    (clientWith []).Keyed ∧ Delivers (clientWith []) [] oneTransaction ∧
      ∃ final, run (deliver plainSigning) (clientWith []) oneTransaction =
          some final ∧
        final.wallet.coins.utxosSet.lookup firstCoin.prevout = some firstCoin.prevoutData ∧
        final.wallet.coins.utxosSet.lookup fannedCoin.prevout = none ∧
        final.wallet.coins.balance = 5 ∧ sumValues (imports oneTransaction) = 10 ∧
        final.pendingInputs = ∅ := by
  have hDelivers : Delivers (clientWith []) [] oneTransaction := {
    spendable := by decide +kernel
    distinct := by decide +kernel
    new := by decide +kernel
    foreign := by decide +kernel
    settled := by
      refine ⟨by simp, ?_, ⟨firstCoin, by simp, rfl⟩, ⟨fannedCoin, by simp, rfl⟩, trivial⟩
      exact List.mem_cons_of_mem _ (List.mem_cons_self ..) }
  refine ⟨keyed_ofWallet _, hDelivers, ?_⟩
  have hTest : (run (deliver plainSigning) (clientWith []) oneTransaction).any
      (fun final => decide (
        final.wallet.coins.utxosSet.lookup firstCoin.prevout = some firstCoin.prevoutData ∧
        final.wallet.coins.utxosSet.lookup fannedCoin.prevout = none ∧
        final.wallet.coins.balance = 5 ∧ sumValues (imports oneTransaction) = 10 ∧
        final.pendingInputs = ∅)) = true := by
    decide +kernel
  obtain ⟨final, hRun, hValues⟩ := exists_run_of_test hTest
  exact ⟨final, hRun, of_decide_eq_true hValues⟩

end FixedDeliveries

end OpenCbdc.Client

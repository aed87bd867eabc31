import Mathlib.Algebra.BigOperators.Group.Finset.Basic
import Mathlib.Data.Fintype.BigOperators
import OpenCbdc.Wallet.Holdings

/-! Wallets that pay each other. Every coin is held by one wallet, or it is an output
that its owner has not confirmed yet, or it is spent; so no value appears or is lost. -/
namespace OpenCbdc

open Validation TransitionSystem

/-- Some wallets, the transactions that they have made, and who has confirmed which. -/
structure Transfers (crypto : Crypto) (Id : Type) where
  wallets : Id → Wallet crypto
  returned : Finset FullTx
  confirmed : Finset (Id × FullTx)

namespace Transfers

variable {crypto : Crypto} {Id : Type}

inductive Call (Id : Type) where
  | spend (id : Id) (call : Wallet.SpendCall)
  | confirm (id : Id) (tx : FullTx)
  | generateKey (id : Id) (draw : KeyStore.KeyDraw)

def setWallet [DecidableEq Id] (state : Transfers crypto Id) (id : Id) (after : Wallet crypto) :
    Transfers crypto Id :=
  { state with wallets := Function.update state.wallets id after }

/-- A wallet confirms a transaction that one of them has made, and each only once. -/
def step [DecidableEq Id] (signing : Signing) (state : Transfers crypto Id) :
    Call Id → Option (Transfers crypto Id)
  | .spend id call =>
      match (state.wallets id).spend signing call with
      | (after, none) => some (state.setWallet id after)
      | (after, some tx) =>
          some { state.setWallet id after with returned := insert tx state.returned }
  | .confirm id tx =>
      if tx ∈ state.returned ∧ (id, tx) ∉ state.confirmed then
        ((state.wallets id).confirmTransaction tx).map fun after =>
          { state.setWallet id after with confirmed := insert (id, tx) state.confirmed }
      else none
  | .generateKey id draw =>
      some (state.setWallet id ((state.wallets id).generateKey signing draw).1)

def PaysWallets (state : Transfers crypto Id) : Call Id → Prop
  | .spend _ call => (∃ id, call.payee ∈ (state.wallets id).keys.keys) ∧ call.HasCounts
  | .confirm _ _ | .generateKey _ _ => True

instance [Fintype Id] (state : Transfers crypto Id) : (call : Call Id) →
    Decidable (state.PaysWallets call)
  | .spend _ call => inferInstanceAs
      (Decidable ((∃ id, call.payee ∈ (state.wallets id).keys.keys) ∧ call.HasCounts))
  | .confirm _ _ | .generateKey _ _ => isTrue trivial

def held (state : Transfers crypto Id) (id : Id) : List OutPoint :=
  ((state.wallets id).coins.spendable crypto).map Input.prevout

/-- No coin is held twice. -/
structure HeldOnce (state : Transfers crypto Id) : Prop where
  nodup : ∀ id, (state.held id).Nodup
  once : ∀ i j, ∀ outPoint ∈ state.held i, outPoint ∈ state.held j → i = j

/-- No key belongs to two wallets. -/
def KeysApart (state : Transfers crypto Id) : Prop :=
  ∀ i j, i ≠ j → Finmap.Disjoint (state.wallets i).keys.witnessPrograms
    (state.wallets j).keys.witnessPrograms

instance [DecidableEq Id] [Fintype Id] (state : Transfers crypto Id) :
    Decidable state.KeysApart :=
  inferInstanceAs (Decidable (∀ i j, i ≠ j → Finmap.Disjoint _ _))

/-- The wallet that owns the key of an output has confirmed the transaction. -/
def Collected (state : Transfers crypto Id) (tx : FullTx) (out : Output) : Prop :=
  ∃ id, (state.wallets id).Owns out ∧ (id, tx) ∈ state.confirmed

section Total

variable [DecidableEq Id] [Fintype Id]

instance (state : Transfers crypto Id) (tx : FullTx) (out : Output) :
    Decidable (state.Collected tx out) :=
  inferInstanceAs (Decidable (∃ id, _ ∧ (id, tx) ∈ state.confirmed))

/-- The outputs of a transaction that their owner has not confirmed yet. -/
def outstanding (state : Transfers crypto Id) (tx : FullTx) : Nat :=
  (tx.outputs.map fun out => if state.Collected tx out then 0 else out.value.toNat).sum

/-- The balances, and the outputs that are not confirmed. -/
def total (state : Transfers crypto Id) : Nat :=
  ∑ id, (state.wallets id).coins.balance.toNat + ∑ tx ∈ state.returned, state.outstanding tx

end Total

section Growth

variable {start state next : Transfers crypto Id} {out : Output} {tx : FullTx}

/-- Keys, transactions and confirmations are only added. -/
structure Grows (state next : Transfers crypto Id) : Prop where
  keys : ∀ id, KeyStore.Extends (state.wallets id).keys (next.wallets id).keys
  returned : state.returned ⊆ next.returned
  confirmed : state.confirmed ⊆ next.confirmed

theorem Grows.knows (h : Grows state next) {id : Id} {commitment : Hash}
    (hKnown : commitment ∈ (state.wallets id).keys.witnessPrograms) :
    commitment ∈ (next.wallets id).keys.witnessPrograms := by
  obtain ⟨pubkey, hProgram⟩ := Finmap.mem_iff.mp hKnown
  exact Finmap.mem_of_lookup_eq_some ((h.keys id).programs _ _ hProgram)

theorem KeysApart.eq_of_owns (h : state.KeysApart) {i j : Id} (hI : (state.wallets i).Owns out)
    (hJ : (state.wallets j).Owns out) : i = j := by
  by_contra hNe
  exact h i j hNe _ hI hJ

/-- Who owns an output does not change while no key belongs to two wallets. -/
theorem Grows.owns_iff (h : Grows state next) (hApart : next.KeysApart)
    (hOwner : ∃ id, (state.wallets id).Owns out) (id : Id) :
    (next.wallets id).Owns out ↔ (state.wallets id).Owns out := by
  refine ⟨fun hOwns => ?_, h.knows⟩
  obtain ⟨owner, hOwner⟩ := hOwner
  rw [hApart.eq_of_owns hOwns (h.knows hOwner)]
  exact hOwner

/-- What is taken for granted: no key belongs to two wallets, transactions have
different IDs, and those of the coins at the start are different again. -/
structure Assumed (start state : Transfers crypto Id) : Prop where
  apart : state.KeysApart
  ids : Set.InjOn (txId crypto) state.returned
  new : ∀ tx ∈ state.returned, ∀ id, ∀ outPoint ∈ start.held id, outPoint.txId ≠ txId crypto tx

theorem Assumed.of_grows (h : Assumed start next) (hGrows : Grows state next) :
    Assumed start state where
  apart i j hNe commitment hI hJ :=
    h.apart i j hNe commitment (hGrows.knows hI) (hGrows.knows hJ)
  ids := h.ids.mono (Finset.coe_subset.mpr hGrows.returned)
  new tx hTx := h.new tx (hGrows.returned hTx)

/-- A coin that some wallet had at the start, or has got from a transaction. -/
def Used (start state : Transfers crypto Id) (outPoint : OutPoint) : Prop :=
  (∃ id, outPoint ∈ start.held id) ∨
    ∃ id tx, (id, tx) ∈ state.confirmed ∧
      ∃ inp ∈ (state.wallets id).newUtxos tx, inp.prevout = outPoint

theorem Used.of_grows {outPoint : OutPoint} (h : Used start state outPoint)
    (hGrows : Grows state next) : Used start next outPoint := by
  rcases h with hStart | ⟨id, tx, hConfirmed, inp, hInp, hPrevout⟩
  · exact Or.inl hStart
  · obtain ⟨i, out, hOut, hOwns, hEq⟩ := Wallet.mem_newUtxos.mp hInp
    exact Or.inr ⟨id, tx, hGrows.confirmed hConfirmed, inp,
      Wallet.mem_newUtxos.mpr ⟨i, out, hOut, hGrows.knows hOwns, hEq⟩, hPrevout⟩

end Growth

/-- What holds besides the total: the records of each wallet agree, no coin is held twice
or held after it is spent, and every output belongs to a wallet. -/
structure Sound (start state : Transfers crypto Id) : Prop extends HeldOnce state where
  agrees : ∀ id, (state.wallets id).coins.Agrees
  used : ∀ id, ∀ outPoint ∈ state.held id, Used start state outPoint
  spent : ∀ tx ∈ state.returned, ∀ inp ∈ tx.inputs,
    Used start state inp.prevout ∧ ∀ id, inp.prevout ∉ state.held id
  returned : ∀ id tx, (id, tx) ∈ state.confirmed → tx ∈ state.returned
  owned : ∀ tx ∈ state.returned, ∀ out ∈ tx.outputs, ∃ id, (state.wallets id).Owns out

section New

variable {start state : Transfers crypto Id} {tx : FullTx} {id : Id}

/-- What a wallet gets from a transaction that it confirms is new. -/
theorem Sound.new_of_confirm (h : Sound start state) (hAssumed : Assumed start state)
    (hTx : tx ∈ state.returned) (hFirst : (id, tx) ∉ state.confirmed)
    (hSize : tx.outputs.length < 2 ^ 32) {inp : Input}
    (hInp : inp ∈ (state.wallets id).newUtxos tx) : ¬Used start state inp.prevout := by
  obtain ⟨i, out, hOut, hOwns, rfl⟩ := Wallet.mem_newUtxos.mp hInp
  rintro (⟨other, hHeld⟩ | ⟨other, source, hConfirmed, found, hFound, hSame⟩)
  · exact hAssumed.new tx hTx other _ hHeld rfl
  · obtain ⟨j, found, hFoundAt, hOther, rfl⟩ := Wallet.mem_newUtxos.mp hFound
    obtain ⟨hId, hIndex⟩ := OutPoint.mk.inj hSame
    obtain rfl : source = tx := hAssumed.ids (h.returned other source hConfirmed) hTx hId
    have hI := (List.getElem?_eq_some_iff.mp hOut).1
    have hJ := (List.getElem?_eq_some_iff.mp hFoundAt).1
    obtain rfl : j = i := Coins.ofNat_inj_of_lt (by omega) (by omega) hIndex
    obtain rfl : found = out := Option.some.inj (hFoundAt.symm.trans hOut)
    obtain rfl := hAssumed.apart.eq_of_owns hOther hOwns
    exact hFirst hConfirmed

/-- What confirming a transaction does to the coins of a wallet. -/
theorem Sound.credited (h : Sound start state) (hAssumed : Assumed start state)
    (hTx : tx ∈ state.returned) (hFirst : (id, tx) ∉ state.confirmed)
    (hSize : tx.outputs.length < 2 ^ 32) :
    let coins := (state.wallets id).coins
    let credits := (state.wallets id).newUtxos tx
    (coins.updateBalance credits tx.inputs).Agrees ∧
      (coins.updateBalance credits tx.inputs).spendable crypto =
        coins.spendable crypto ++ credits ∧
      (coins.updateBalance credits tx.inputs).balance = coins.balance + sumValues credits := by
  have hNew : ∀ inp ∈ (state.wallets id).newUtxos tx, ¬Used start state inp.prevout :=
    fun _ => h.new_of_confirm hAssumed hTx hFirst hSize
  have hHeld : ∀ outPoint ∈ (state.wallets id).coins.utxosSet, outPoint ∈ state.held id :=
    fun _ hIn => (h.agrees id).toListed.mem_spendable crypto hIn
  refine (h.agrees id).confirmed (Wallet.nodup_newUtxos (by omega)) ?_ ?_ crypto
  · intro inp hInp hIn
    exact hNew inp hInp (h.used id _ (hHeld _ hIn))
  · intro inp hInp
    obtain ⟨hUsed, hNot⟩ := h.spent tx hTx inp hInp
    refine ⟨fun hIn => hNot id (hHeld _ hIn), fun hCredit => ?_⟩
    obtain ⟨credit, hCredit, hSame⟩ := List.mem_map.mp hCredit
    exact hNew credit hCredit (hSame ▸ hUsed)

/-- Nothing has been paid yet, the records of each wallet agree, and no coin is held
twice. -/
structure Opening (start : Transfers crypto Id) : Prop extends HeldOnce start where
  returned : start.returned = ∅
  confirmed : start.confirmed = ∅
  agrees : ∀ id, (start.wallets id).coins.Agrees

theorem Opening.sound (h : start.Opening) : Sound start start where
  toHeldOnce := h.toHeldOnce
  agrees := h.agrees
  used id _ hHeld := Or.inl ⟨id, hHeld⟩
  spent tx hTx := by simp [h.returned] at hTx
  returned id tx hConfirmed := by simp [h.confirmed] at hConfirmed
  owned tx hTx := by simp [h.returned] at hTx

end New

section Step

variable [DecidableEq Id] {signing : Signing} {start state next : Transfers crypto Id}
  {tx : FullTx} {id : Id} {after : Wallet crypto}

theorem forall_setWallet {motive : Wallet crypto → Prop} (h : ∀ id, motive (state.wallets id))
    (hAfter : motive after) (other : Id) : motive ((state.setWallet id after).wallets other) := by
  simp only [setWallet, Function.update_apply]
  split
  · exact hAfter
  · exact h other

theorem keys_setWallet {id : Id} {after : Wallet crypto}
    (h : KeyStore.Extends (state.wallets id).keys after.keys) (other : Id) :
    KeyStore.Extends (state.wallets other).keys
      ((state.setWallet id after).wallets other).keys := by
  by_cases hSame : other = id
  · subst hSame
    simpa [setWallet] using h
  · simpa [setWallet, Function.update_of_ne hSame] using KeyStore.Extends.refl _

/-- No call takes back a key, a transaction or a confirmation. -/
theorem grows_step {call : Call Id} (h : state.step signing call = some next) :
    Grows state next := by
  cases call with
  | spend id call =>
      rcases (state.wallets id).spend_cases signing call with
        hNone | ⟨seeds, queued, witness, _, _, hSome⟩
      · simp only [step, hNone, Option.some.injEq] at h
        subst h
        exact ⟨keys_setWallet (KeyStore.Extends.refl _), Finset.Subset.refl _,
          Finset.Subset.refl _⟩
      · simp only [step, hSome, Option.some.injEq] at h
        subst h
        exact ⟨keys_setWallet (Wallet.pay_extends ..), Finset.subset_insert _ _,
          Finset.Subset.refl _⟩
  | confirm id tx =>
      simp only [step, Option.ite_none_right_eq_some, Option.map_eq_some_iff] at h
      obtain ⟨_, after, hAfter, rfl⟩ := h
      simp only [Wallet.confirmTransaction, Option.ite_none_left_eq_some,
        Option.some.injEq] at hAfter
      obtain ⟨_, rfl⟩ := hAfter
      exact ⟨keys_setWallet (KeyStore.Extends.refl _), Finset.Subset.refl _,
        Finset.subset_insert _ _⟩
  | generateKey id draw =>
      obtain rfl := Option.some.inj h
      exact ⟨keys_setWallet (KeyStore.generateKey_extends ..), Finset.Subset.refl _,
        Finset.Subset.refl _⟩

theorem held_setWallet (state : Transfers crypto Id) (id other : Id) (after : Wallet crypto) :
    (state.setWallet id after).held other =
      if other = id then (after.coins.spendable crypto).map Input.prevout
      else state.held other := by
  simp only [held, setWallet, Function.update_apply]
  split <;> rfl

/-- A call of a wallet moves the coins that it takes to the spent ones. -/
theorem Sound.spend {call : Wallet.SpendCall} {seeds queued : Nat} (h : Sound start state)
    (hAvailable : (state.wallets id).coins.Available seeds queued)
    (hPayee : ∃ payee, call.payee ∈ (state.wallets payee).keys.keys)
    (hCoins : after.coins = (state.wallets id).coins.spent seeds queued)
    (hInputs : tx.inputs = (state.wallets id).coins.spentInputs crypto seeds queued)
    (hOutputs : ∀ out ∈ tx.outputs,
      out.witnessProgramCommitment = getP2pkWitnessCommitment crypto call.payee ∨ after.Owns out)
    (hGrows : Grows state { state.setWallet id after with returned := insert tx state.returned }) :
    Sound start { state.setWallet id after with returned := insert tx state.returned } := by
  -- The coins of the wallet are divided into the inputs and the coins it keeps.
  have hPerm := hAvailable.prevouts_perm crypto
  rw [← hInputs, ← hCoins] at hPerm
  have hSplit := hPerm.nodup_iff.mp (h.nodup id)
  have hKept : ∀ other, ∀ outPoint ∈ (state.setWallet id after).held other,
      outPoint ∈ state.held other := by
    intro other outPoint hHeld
    rw [held_setWallet] at hHeld
    split at hHeld
    case isTrue hSame =>
        rw [hSame]
        exact hPerm.mem_iff.mpr (List.mem_append_right _ hHeld)
    case isFalse => exact hHeld
  have hTaken : ∀ inp ∈ tx.inputs, inp.prevout ∈ state.held id := fun inp hInp =>
    hPerm.mem_iff.mpr (List.mem_append_left _ (List.mem_map_of_mem hInp))
  refine ⟨⟨?_, ?_⟩, ?_, ?_, ?_, ?_, ?_⟩
  · intro other
    show ((state.setWallet id after).held other).Nodup
    rw [held_setWallet]
    split
    · exact hSplit.of_append_right
    · exact h.nodup other
  · intro i j outPoint hI hJ
    exact h.once i j outPoint (hKept i outPoint hI) (hKept j outPoint hJ)
  · refine forall_setWallet (motive := fun wallet => wallet.coins.Agrees) h.agrees ?_
    rw [hCoins]
    exact (h.agrees id).spent seeds queued
  · intro other outPoint hHeld
    exact (h.used other outPoint (hKept other outPoint hHeld)).of_grows hGrows
  · intro made hMade inp hInp
    rcases Finset.mem_insert.mp hMade with rfl | hOld
    · refine ⟨(h.used id _ (hTaken inp hInp)).of_grows hGrows, ?_⟩
      intro other hHeld
      obtain rfl := h.once id other _ (hTaken inp hInp) (hKept other _ hHeld)
      have hAfter : inp.prevout ∈ (after.coins.spendable crypto).map Input.prevout := by
        have hHere : inp.prevout ∈ (state.setWallet id after).held id := hHeld
        rwa [held_setWallet, if_pos rfl] at hHere
      exact List.disjoint_of_nodup_append hSplit (List.mem_map_of_mem hInp) hAfter
    · obtain ⟨hUsed, hNot⟩ := h.spent made hOld inp hInp
      exact ⟨hUsed.of_grows hGrows, fun other hHeld => hNot other (hKept other _ hHeld)⟩
  · intro other made hConfirmed
    exact Finset.mem_insert_of_mem (h.returned other made hConfirmed)
  · intro made hMade out hOut
    rcases Finset.mem_insert.mp hMade with rfl | hOld
    · rcases hOutputs out hOut with hPaid | hChange
      · obtain ⟨payee, hKey⟩ := hPayee
        refine ⟨payee, hGrows.knows ?_⟩
        rw [hPaid]
        exact (state.wallets payee).keys.committed _ hKey
      · refine ⟨id, ?_⟩
        simpa [setWallet] using hChange
    · obtain ⟨owner, hOwns⟩ := h.owned made hOld out hOut
      exact ⟨owner, hGrows.knows hOwns⟩

theorem Sound.generateKey (h : Sound start state) (hCoins : after.coins = (state.wallets id).coins)
    (hGrows : Grows state (state.setWallet id after)) :
    Sound start (state.setWallet id after) := by
  have hHeld : (state.setWallet id after).held = state.held := by
    funext other
    rw [held_setWallet]
    split
    case isTrue hSame => rw [hSame, hCoins, held]
    case isFalse => rfl
  refine ⟨⟨?_, ?_⟩, ?_, ?_, ?_, h.returned, ?_⟩
  · rw [hHeld]
    exact h.nodup
  · rw [hHeld]
    exact h.once
  · exact forall_setWallet (motive := fun wallet => wallet.coins.Agrees) h.agrees
      (hCoins ▸ h.agrees id)
  · rw [hHeld]
    exact fun other outPoint hIn => (h.used other outPoint hIn).of_grows hGrows
  · rw [hHeld]
    intro tx hTx inp hInp
    obtain ⟨hUsed, hNot⟩ := h.spent tx hTx inp hInp
    exact ⟨hUsed.of_grows hGrows, hNot⟩
  · intro tx hTx out hOut
    obtain ⟨owner, hOwns⟩ := h.owned tx hTx out hOut
    exact ⟨owner, hGrows.knows hOwns⟩

/-- A confirmation moves the outputs that a wallet owns from the transaction to the wallet,
and no other wallet claims them. -/
theorem Sound.confirm (h : Sound start state) (hAssumed : Assumed start state)
    (hTx : tx ∈ state.returned) (hFirst : (id, tx) ∉ state.confirmed)
    (hSize : tx.outputs.length < 2 ^ 32)
    (hCoins : after.coins =
      (state.wallets id).coins.updateBalance ((state.wallets id).newUtxos tx) tx.inputs)
    (hGrows : Grows state
      { state.setWallet id after with confirmed := insert (id, tx) state.confirmed }) :
    Sound start { state.setWallet id after with confirmed := insert (id, tx) state.confirmed } := by
  obtain ⟨hAgrees, hSpendable, _⟩ := h.credited hAssumed hTx hFirst hSize
  rw [← hCoins] at hAgrees hSpendable
  have hNew : ∀ outPoint ∈ ((state.wallets id).newUtxos tx).map Input.prevout,
      ¬Used start state outPoint := by
    intro outPoint hIn
    obtain ⟨inp, hInp, rfl⟩ := List.mem_map.mp hIn
    exact h.new_of_confirm hAssumed hTx hFirst hSize hInp
  have hHeld : ∀ other outPoint, outPoint ∈ (state.setWallet id after).held other ↔
      outPoint ∈ state.held other ∨
        other = id ∧ outPoint ∈ ((state.wallets id).newUtxos tx).map Input.prevout := by
    intro other outPoint
    rw [held_setWallet]
    split
    case isTrue hSame => simp [hSame, hSpendable, held]
    case isFalse hOther => simp [hOther]
  refine ⟨⟨?_, ?_⟩, ?_, ?_, ?_, ?_, ?_⟩
  · intro other
    show ((state.setWallet id after).held other).Nodup
    rw [held_setWallet]
    split
    · rw [hSpendable, List.map_append, List.nodup_append']
      refine ⟨h.nodup id, Wallet.nodup_newUtxos (by omega), ?_⟩
      intro outPoint hOld hIn
      exact hNew outPoint hIn (h.used id outPoint hOld)
    · exact h.nodup other
  · intro i j outPoint hI hJ
    rcases (hHeld i outPoint).mp hI with hI | ⟨hI, hInI⟩ <;>
      rcases (hHeld j outPoint).mp hJ with hJ | ⟨hJ, hInJ⟩
    · exact h.once i j outPoint hI hJ
    · exact (hNew outPoint hInJ (h.used i outPoint hI)).elim
    · exact (hNew outPoint hInI (h.used j outPoint hJ)).elim
    · exact hI.trans hJ.symm
  · exact forall_setWallet (motive := fun wallet => wallet.coins.Agrees) h.agrees hAgrees
  · intro other outPoint hIn
    rcases (hHeld other outPoint).mp hIn with hOld | ⟨_, hCredit⟩
    · exact (h.used other outPoint hOld).of_grows hGrows
    · obtain ⟨inp, hInp, hPrevout⟩ := List.mem_map.mp hCredit
      obtain ⟨i, out, hOut, hOwns, hEq⟩ := Wallet.mem_newUtxos.mp hInp
      exact Or.inr ⟨id, tx, Finset.mem_insert_self _ _, inp,
        Wallet.mem_newUtxos.mpr ⟨i, out, hOut, hGrows.knows hOwns, hEq⟩, hPrevout⟩
  · intro made hMade inp hInp
    obtain ⟨hUsed, hNot⟩ := h.spent made hMade inp hInp
    refine ⟨hUsed.of_grows hGrows, fun other hIn => ?_⟩
    rcases (hHeld other inp.prevout).mp hIn with hOld | ⟨_, hCredit⟩
    · exact hNot other hOld
    · exact hNew _ hCredit hUsed
  · intro other made hConfirmed
    rcases Finset.mem_insert.mp hConfirmed with hSame | hOld
    · obtain ⟨_, rfl⟩ := Prod.mk.inj hSame
      exact hTx
    · exact h.returned other made hOld
  · intro made hMade out hOut
    obtain ⟨owner, hOwns⟩ := h.owned made hMade out hOut
    exact ⟨owner, hGrows.knows hOwns⟩

end Step

section Value

variable [DecidableEq Id] [Fintype Id] {signing : Signing}
  {start state next : Transfers crypto Id} {tx : FullTx} {id : Id} {after : Wallet crypto}

/-- The value of the outputs that are not confirmed, in 64 bits. -/
def outstandingValue (state : Transfers crypto Id) (tx : FullTx) : UInt64 :=
  (tx.outputs.map fun out => if state.Collected tx out then 0 else out.value).sum

/-- The total in 64 bits, in which the wallets count. -/
def value (state : Transfers crypto Id) : UInt64 :=
  ∑ id, (state.wallets id).coins.balance + ∑ tx ∈ state.returned, state.outstandingValue tx

def ofNatHom : ℕ →+ UInt64 where
  toFun := UInt64.ofNat
  map_zero' := rfl
  map_add' := UInt64.ofNat_add

/-- In 64 bits the total is the exact one, reduced. -/
theorem value_eq (state : Transfers crypto Id) : state.value = UInt64.ofNat state.total := by
  have hBalances : UInt64.ofNat (∑ id, (state.wallets id).coins.balance.toNat) =
      ∑ id, (state.wallets id).coins.balance := by
    refine (map_sum ofNatHom _ _).trans (Finset.sum_congr rfl fun id _ => ?_)
    exact UInt64.ofNat_toNat
  have hOutstanding : ∀ tx, UInt64.ofNat (state.outstanding tx) = state.outstandingValue tx := by
    intro tx
    refine (map_list_sum ofNatHom _).trans (congrArg List.sum ?_)
    rw [List.map_map]
    refine List.map_congr_left fun out _ => ?_
    show UInt64.ofNat (if state.Collected tx out then 0 else out.value.toNat) = _
    split
    · rfl
    · exact UInt64.ofNat_toNat
  have hReturned : UInt64.ofNat (∑ tx ∈ state.returned, state.outstanding tx) =
      ∑ tx ∈ state.returned, state.outstandingValue tx :=
    (map_sum ofNatHom _ _).trans (Finset.sum_congr rfl fun tx _ => hOutstanding tx)
  rw [total, UInt64.ofNat_add, hBalances, hReturned, value]

theorem sum_balances_setWallet (state : Transfers crypto Id) (id : Id) (after : Wallet crypto) :
    ∑ i, ((state.setWallet id after).wallets i).coins.balance =
      ∑ i, (state.wallets i).coins.balance - (state.wallets id).coins.balance +
        after.coins.balance := by
  have hOthers : ∀ i ∈ Finset.univ.erase id, ((state.setWallet id after).wallets i).coins.balance =
      (state.wallets i).coins.balance := by
    intro i hI
    simp only [setWallet, Function.update_of_ne (Finset.ne_of_mem_erase hI)]
  rw [← Finset.add_sum_erase _ _ (Finset.mem_univ id), Finset.sum_congr rfl hOthers,
    ← Finset.add_sum_erase _ (fun i => (state.wallets i).coins.balance) (Finset.mem_univ id),
    add_sub_cancel_left, add_comm]
  simp [setWallet]

/-- While nobody confirms a transaction, its outputs stay as they are. -/
theorem Sound.outstandingValue_eq (h : Sound start state) (hGrows : Grows state next)
    (hApart : next.KeysApart) (hTx : tx ∈ state.returned)
    (hConfirmed : ∀ id, (id, tx) ∈ next.confirmed ↔ (id, tx) ∈ state.confirmed) :
    next.outstandingValue tx = state.outstandingValue tx := by
  refine congrArg List.sum (List.map_congr_left fun out hOut => ?_)
  have hSame : next.Collected tx out ↔ state.Collected tx out := exists_congr fun id =>
    and_congr (hGrows.owns_iff hApart (h.owned tx hTx out hOut) id) (hConfirmed id)
  simp only [hSame]

/-- The value of a call's inputs goes to its outputs. -/
theorem Sound.value_spend (h : Sound start state)
    (hGrows : Grows state { state.setWallet id after with returned := insert tx state.returned })
    (hApart : { state.setWallet id after with
      returned := insert tx state.returned : Transfers crypto Id }.KeysApart)
    (hBalance : after.coins.balance = (state.wallets id).coins.balance - sumValues tx.inputs)
    (hHeld : ∀ inp ∈ tx.inputs, inp.prevout ∈ state.held id)
    (hOutputs : sumOutputs tx.outputs = sumValues tx.inputs) :
    { state.setWallet id after with returned := insert tx state.returned }.value =
      state.value := by
  have hOld : ∑ made ∈ state.returned,
      { state.setWallet id after with returned := insert tx state.returned }.outstandingValue made =
        ∑ made ∈ state.returned, state.outstandingValue made :=
    Finset.sum_congr rfl fun made hMade =>
      h.outstandingValue_eq hGrows hApart hMade fun _ => Iff.rfl
  have hBalances := sum_balances_setWallet state id after
  by_cases hTx : tx ∈ state.returned
  · -- A transaction that is made again has no inputs.
    have hNone : tx.inputs = [] := List.eq_nil_iff_forall_not_mem.mpr fun inp hInp =>
      (h.spent tx hTx inp hInp).2 id (hHeld inp hInp)
    rw [hNone, sumValues_nil, sub_zero] at hBalance
    simp only [value, Finset.insert_eq_of_mem hTx] at hOld ⊢
    rw [hOld, hBalances, hBalance, sub_add_cancel]
  · have hFresh : { state.setWallet id after with
        returned := insert tx state.returned }.outstandingValue tx = sumOutputs tx.outputs := by
      refine congrArg List.sum (List.map_congr_left fun out _ => if_neg ?_)
      rintro ⟨owner, _, hConfirmed⟩
      exact hTx (h.returned owner tx hConfirmed)
    simp only [value]
    rw [Finset.sum_insert hTx, hOld, hFresh, hOutputs, hBalances, hBalance]
    abel

/-- A wallet collects the outputs that it owns. -/
theorem outstandingValue_confirm (hApart : state.KeysApart) (hFirst : (id, tx) ∉ state.confirmed)
    (hOwns : ∀ other out, (next.wallets other).Owns out ↔ (state.wallets other).Owns out)
    (hConfirmed : next.confirmed = insert (id, tx) state.confirmed) :
    state.outstandingValue tx =
      next.outstandingValue tx + sumValues ((state.wallets id).newUtxos tx) := by
  rw [Wallet.sumValues_newUtxos, outstandingValue, outstandingValue, ← List.sum_map_add]
  refine congrArg List.sum (List.map_congr_left fun out _ => ?_)
  by_cases hOwned : (state.wallets id).Owns out
  · have hBefore : ¬state.Collected tx out := by
      rintro ⟨owner, hOwner, hDone⟩
      exact hFirst (hApart.eq_of_owns hOwner hOwned ▸ hDone)
    have hAfter : next.Collected tx out :=
      ⟨id, (hOwns id out).mpr hOwned, hConfirmed ▸ Finset.mem_insert_self _ _⟩
    rw [if_neg hBefore, if_pos hAfter, if_pos hOwned, zero_add]
  · have hSame : next.Collected tx out ↔ state.Collected tx out := by
      refine exists_congr fun other => ?_
      rw [hOwns, hConfirmed, Finset.mem_insert]
      refine and_congr_right fun hOther => or_iff_right fun hSame => ?_
      exact hOwned ((Prod.mk.inj hSame).1 ▸ hOther)
    simp only [hSame, if_neg hOwned, add_zero]

/-- The value of the outputs that a wallet confirms goes to its balance. -/
theorem value_confirm (hApart : state.KeysApart) (hTx : tx ∈ state.returned)
    (hFirst : (id, tx) ∉ state.confirmed)
    (hKeys : after.keys = (state.wallets id).keys)
    (hBalance : after.coins.balance =
      (state.wallets id).coins.balance + sumValues ((state.wallets id).newUtxos tx)) :
    { state.setWallet id after with confirmed := insert (id, tx) state.confirmed }.value =
      state.value := by
  have hOwns : ∀ other out, ((state.setWallet id after).wallets other).Owns out ↔
      (state.wallets other).Owns out := by
    intro other out
    by_cases hSame : other = id
    · subst hSame
      simp [setWallet, Wallet.Owns, hKeys]
    · simp [setWallet, Function.update_of_ne hSame]
  have hOutstanding : ∀ made ∈ state.returned, state.outstandingValue made =
      { state.setWallet id after with
        confirmed := insert (id, tx) state.confirmed }.outstandingValue made +
        if made = tx then sumValues ((state.wallets id).newUtxos tx) else 0 := by
    intro made _
    split
    case isTrue hSame =>
        subst hSame
        exact outstandingValue_confirm hApart hFirst hOwns rfl
    case isFalse hOther =>
        rw [add_zero]
        refine congrArg List.sum (List.map_congr_left fun out _ => ?_)
        have hCollected : { state.setWallet id after with
            confirmed := insert (id, tx) state.confirmed }.Collected made out ↔
              state.Collected made out := by
          refine exists_congr fun other => and_congr (hOwns other out) ?_
          rw [Finset.mem_insert]
          exact or_iff_right fun hSame => hOther (Prod.mk.inj hSame).2
        simp only [hCollected]
  simp only [value]
  rw [Finset.sum_congr rfl hOutstanding, Finset.sum_add_distrib, Finset.sum_ite_eq', if_pos hTx,
    sum_balances_setWallet, hBalance]
  abel

/-- What a step keeps: that all is sound, and the value. -/
theorem Sound.step {call : Call Id} (h : Sound start state) (hAssumed : Assumed start next)
    (hPays : state.PaysWallets call) (hStep : state.step signing call = some next) :
    Sound start next ∧ next.value = state.value := by
  have hGrows := grows_step hStep
  have hBefore := hAssumed.of_grows hGrows
  cases call with
  | spend id call =>
      rcases (state.wallets id).spend_cases signing call with
        hNone | ⟨seeds, queued, witness, hAvailable, hCovered, hSome⟩
      · simp only [Transfers.step, hNone, Option.some.injEq] at hStep
        have hSame : state.setWallet id (state.wallets id) = state := by simp [setWallet]
        rw [← hStep, hSame]
        exact ⟨h, rfl⟩
      · simp only [Transfers.step, hSome, Option.some.injEq] at hStep
        subst hStep
        refine ⟨h.spend hAvailable hPays.1 rfl (Wallet.inputs_signIf ..) ?_ hGrows,
          h.value_spend hGrows hAssumed.apart ?_ ?_ ?_⟩
        · intro out hOut
          rw [Wallet.outputs_signIf] at hOut
          exact Wallet.owner_of_pay hOut
        · rw [Wallet.inputs_signIf]
          exact Coins.balance_spent crypto _ seeds queued
        · intro inp hInp
          rw [Wallet.inputs_signIf] at hInp
          exact (hAvailable.prevouts_perm crypto).mem_iff.mpr
            (List.mem_append_left _ (List.mem_map_of_mem hInp))
        · rw [Wallet.inputs_signIf, Wallet.outputs_signIf]
          exact Wallet.sumOutputs_pay hPays.2 hCovered signing _
  | confirm id tx =>
      simp only [Transfers.step, Option.ite_none_right_eq_some, Option.map_eq_some_iff] at hStep
      obtain ⟨⟨hTx, hFirst⟩, after, hAfter, rfl⟩ := hStep
      simp only [Wallet.confirmTransaction, Option.ite_none_left_eq_some, Option.some.injEq,
        Nat.not_le] at hAfter
      obtain ⟨hSize, rfl⟩ := hAfter
      exact ⟨h.confirm hBefore hTx hFirst hSize rfl hGrows,
        value_confirm hBefore.apart hTx hFirst rfl (h.credited hBefore hTx hFirst hSize).2.2⟩
  | generateKey id draw =>
      obtain rfl := Option.some.inj hStep
      refine ⟨h.generateKey rfl hGrows, ?_⟩
      have hOutstanding : ∀ tx ∈ state.returned, (state.setWallet id
          ((state.wallets id).generateKey signing draw).1).outstandingValue tx =
            state.outstandingValue tx := fun tx hTx =>
        h.outstandingValue_eq hGrows hAssumed.apart hTx fun _ => Iff.rfl
      have hBalance : ((state.wallets id).generateKey signing draw).1.coins.balance =
          (state.wallets id).coins.balance := rfl
      simp only [value]
      rw [sum_balances_setWallet, hBalance, sub_add_cancel]
      exact congrArg _ (Finset.sum_congr rfl hOutstanding)

/-- In every state that is reached, the balances and the outputs that are not confirmed
add up to the balances at the start. -/
theorem transfers_conserve (signing : Signing) {start state : Transfers crypto Id}
    {calls : List (Call Id)} (hOpening : start.Opening)
    (hRun : run (step signing) start calls = some state)
    (hPays : Guarded (step signing) start PaysWallets calls)
    (hApart : state.KeysApart) (hIds : Set.InjOn (txId crypto) state.returned)
    (hNew : ∀ tx ∈ state.returned, ∀ id, ∀ outPoint ∈ start.held id,
      outPoint.txId ≠ txId crypto tx)
    (hStart : start.total < 2 ^ 64) (hTotal : state.total < 2 ^ 64) :
    state.total = ∑ id, (start.wallets id).coins.balance.toNat := by
  have hSound : Assumed start state → Sound start state ∧ state.value = start.value :=
    guarded_invariant
      (motive := fun state => Assumed start state → Sound start state ∧ state.value = start.value)
      (fun _ => ⟨hOpening.sound, rfl⟩)
      (fun state call next hInv hNow hStep hAssumed => by
        obtain ⟨hSound, hValue⟩ := hInv (hAssumed.of_grows (grows_step hStep))
        obtain ⟨hNext, hSame⟩ := hSound.step hAssumed hNow hStep
        exact ⟨hNext, hSame.trans hValue⟩)
      hRun hPays
  have hValue := (hSound ⟨hApart, hIds, hNew⟩).2
  have hInitial : start.total = ∑ id, (start.wallets id).coins.balance.toNat := by
    rw [total, hOpening.returned, Finset.sum_empty, add_zero]
  -- Both totals fit in 64 bits, in which they are the same.
  rw [value_eq, value_eq] at hValue
  have hNat := congrArg UInt64.toNat hValue
  rw [UInt64.toNat_ofNat', UInt64.toNat_ofNat', Nat.mod_eq_of_lt hTotal,
    Nat.mod_eq_of_lt hStart] at hNat
  exact hNat.trans hInitial

end Value

def firstCoin : Input := ⟨⟨.ofByte 9, 0⟩, Wallet.payTo Wallet.plainCrypto (Wallet.plainKey 1) 5⟩

def twoWallets (coins : Bool → List Input) : Transfers Wallet.plainCrypto Bool where
  wallets id := ((Wallet.new Wallet.plainCrypto).generateKey Wallet.plainSigning
    ⟨Wallet.plainKey (if id then 2 else 1), 0⟩).1.confirmInputs (coins id)
  returned := ∅
  confirmed := ∅

theorem twoWallets_agrees (coins : Bool → List Input) (id : Bool) :
    ((twoWallets coins).wallets id).coins.Agrees :=
  Coins.agrees_empty.credits (coins id)

def payThree : Wallet.SpendCall := .sendTo 3 (Wallet.plainKey 2) true ⟨Wallet.plainKey 3, 0⟩

def threePaid : FullTx :=
  ((((twoWallets fun id => if id then [] else [firstCoin]).wallets false).spend
    Wallet.plainSigning payThree).2).getD ⟨[], [], []⟩

/-- The second wallet confirms the payment; the change of the first is outstanding. -/
def paidOnce : List (Call Bool) := [.spend false payThree, .confirm true threePaid]

theorem transfers_conserve_paidOnce :
    ∃ state, run (step Wallet.plainSigning)
        (twoWallets fun id => if id then [] else [firstCoin]) paidOnce = some state ∧
      (state.wallets true).coins.balance = 3 ∧ state.total = 5 := by
  have hTest : (run (step Wallet.plainSigning)
      (twoWallets fun id => if id then [] else [firstCoin]) paidOnce).any
      (fun state => decide ((state.wallets true).coins.balance = 3 ∧ state.KeysApart ∧
        state.returned = {threePaid} ∧ state.total < 2 ^ 64)) = true := by
    decide +kernel
  obtain ⟨state, hRun, hState⟩ := exists_run_of_test hTest
  obtain ⟨hBalance, hApart, hReturned, hTotal⟩ := of_decide_eq_true hState
  refine ⟨state, hRun, hBalance, ?_⟩
  have hOpening : (twoWallets fun id => if id then [] else [firstCoin]).Opening :=
    ⟨⟨by decide +kernel, by decide +kernel⟩, rfl, rfl, twoWallets_agrees _⟩
  have hIds : Set.InjOn (txId Wallet.plainCrypto) state.returned := by simp [hReturned]
  have hNew : ∀ tx ∈ state.returned, ∀ id, ∀ outPoint ∈
      (twoWallets fun id => if id then [] else [firstCoin]).held id,
        outPoint.txId ≠ txId Wallet.plainCrypto tx := by
    rw [hReturned]
    decide +kernel
  rw [transfers_conserve Wallet.plainSigning hOpening hRun (by decide +kernel) hApart hIds hNew
    (by decide +kernel) hTotal]
  decide +kernel

/-- The same when both wallets hold the coin: the second one debits it. -/
theorem coin_held_twice_lost :
    ∃ state, run (step Wallet.plainSigning) (twoWallets fun _ => [firstCoin])
        paidOnce = some state ∧
      (∀ id, ((twoWallets fun _ => [firstCoin]).wallets id).coins.Agrees) ∧
      Guarded (step Wallet.plainSigning) (twoWallets fun _ => [firstCoin])
        PaysWallets paidOnce ∧
      state.KeysApart ∧ state.returned = {threePaid} ∧
      (twoWallets fun _ => [firstCoin]).total = 10 ∧ state.total = 5 := by
  have hTest : (run (step Wallet.plainSigning)
      (twoWallets fun _ => [firstCoin]) paidOnce).any
      (fun state => decide (state.KeysApart ∧ state.returned = {threePaid} ∧
        state.total = 5)) = true := by
    decide +kernel
  obtain ⟨state, hRun, hState⟩ := exists_run_of_test hTest
  obtain ⟨hApart, hReturned, hTotal⟩ := of_decide_eq_true hState
  exact ⟨state, hRun, twoWallets_agrees _, by decide +kernel, hApart, hReturned,
    by decide +kernel, hTotal⟩

/-- The first wallet pays its whole coin to the second. -/
def payFive : Wallet.SpendCall := .sendTo 5 (Wallet.plainKey 2) true ⟨Wallet.plainKey 3, 0⟩

/-- The transaction that it makes of its coin, without change. -/
def fivePaid : FullTx :=
  ((((twoWallets fun id => if id then [] else [firstCoin]).wallets false).spend
    Wallet.plainSigning payFive).2).getD ⟨[], [], []⟩

/-- The second wallet holds the output of the payment before it is made. -/
def heldBefore : Transfers Wallet.plainCrypto Bool :=
  twoWallets fun id => if id then (inputFromOutput Wallet.plainCrypto fivePaid 0).toList
    else [firstCoin]

/-- No coin is held twice at the start, but the payment has the ID of a coin that is
held: the second wallet has its output already, and credits nothing. -/
theorem output_held_before_lost :
    ∃ state, run (step Wallet.plainSigning) heldBefore
        [.spend false payFive, .confirm true fivePaid] = some state ∧
      heldBefore.Opening ∧
      Guarded (step Wallet.plainSigning) heldBefore PaysWallets
        [.spend false payFive, .confirm true fivePaid] ∧
      state.KeysApart ∧ state.returned = {fivePaid} ∧
      heldBefore.total = 10 ∧ state.total = 5 := by
  have hTest : (run (step Wallet.plainSigning) heldBefore
      [.spend false payFive, .confirm true fivePaid]).any
      (fun state => decide (state.KeysApart ∧ state.returned = {fivePaid} ∧
        state.total = 5)) = true := by
    decide +kernel
  obtain ⟨state, hRun, hState⟩ := exists_run_of_test hTest
  obtain ⟨hApart, hReturned, hTotal⟩ := of_decide_eq_true hState
  exact ⟨state, hRun, ⟨⟨by decide +kernel, by decide +kernel⟩, rfl, rfl, twoWallets_agrees _⟩,
    by decide +kernel, hApart, hReturned, by decide +kernel, hTotal⟩

end Transfers
end OpenCbdc

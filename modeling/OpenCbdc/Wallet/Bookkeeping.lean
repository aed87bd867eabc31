import OpenCbdc.Library.Run
import OpenCbdc.Transaction.UhsId
import OpenCbdc.Wallet.Spending

/-! The redundant records of a wallet's coins: the set, the queue in which they are
spent, and their total. -/
namespace OpenCbdc

open Validation TransitionSystem

namespace Coins

/-- The queue lists every coin of the set once, and nothing else. -/
structure Listed (coins : Coins) : Prop where
  nodup : (coins.spendQueue.map Input.prevout).Nodup
  mem : ∀ inp, inp ∈ coins.spendQueue ↔ coins.utxosSet.lookup inp.prevout = some inp.prevoutData

/-- The balance is the total of the coins besides, in 64 bits. -/
structure Agrees (coins : Coins) : Prop extends Listed coins where
  balanced : coins.mBalance = sumValues coins.spendQueue

section Listed

variable {coins : Coins}

theorem Listed.mem_set (h : Listed coins) (outPoint : OutPoint) :
    outPoint ∈ coins.utxosSet ↔ outPoint ∈ coins.spendQueue.map Input.prevout := by
  rw [Finmap.mem_iff, List.mem_map]
  constructor
  · rintro ⟨out, hLookup⟩
    exact ⟨⟨outPoint, out⟩, (h.mem ⟨outPoint, out⟩).mpr hLookup, rfl⟩
  · rintro ⟨inp, hIn, rfl⟩
    exact ⟨inp.prevoutData, (h.mem inp).mp hIn⟩

theorem agrees_empty : Agrees empty where
  nodup := List.nodup_nil
  mem inp := by simp [empty]
  balanced := rfl

/-- A coin that is new to the set is entered in both places, and one that is known in
neither. -/
theorem Listed.credit (h : Listed coins) (inp : Input) : Listed (coins.credit inp) := by
  unfold Coins.credit
  split
  · exact h
  case isFalse hNew =>
      refine ⟨?_, ?_⟩
      · rw [List.map_append, List.nodup_append]
        refine ⟨h.nodup, List.nodup_singleton _, ?_⟩
        intro old hOld new hNewer hSame
        rw [List.map_singleton, List.mem_singleton] at hNewer
        exact hNew ((h.mem_set _).mpr (hNewer ▸ hSame ▸ hOld))
      · intro other
        rw [List.mem_append, List.mem_singleton, h.mem]
        by_cases hOther : other.prevout = inp.prevout
        · have hNone : coins.utxosSet.lookup inp.prevout = none := Finmap.lookup_eq_none.mpr hNew
          rw [hOther, hNone, Finmap.lookup_insert]
          constructor
          · rintro (hOld | rfl)
            · cases hOld
            · rfl
          · intro hData
            exact Or.inr (congrArg₂ Input.mk hOther (Option.some.inj hData).symm)
        · rw [Finmap.lookup_insert_of_ne _ hOther]
          refine or_iff_left ?_
          rintro rfl
          exact hOther rfl

theorem Agrees.credit (h : Agrees coins) (inp : Input) : Agrees (coins.credit inp) where
  toListed := h.toListed.credit inp
  balanced := by
    unfold Coins.credit
    split
    · exact h.balanced
    · simp [h.balanced]

theorem Agrees.credits (h : Agrees coins) (credits : List Input) :
    Agrees (credits.foldl Coins.credit coins) := by
  induction credits generalizing coins with
  | nil => exact h
  | cons inp credits ih => exact ih (h.credit inp)

/-- Spending takes the same coins from the front of the queue and from the set. -/
theorem Listed.spent (h : Listed coins) (seeds queued : Nat) :
    Listed (coins.spent seeds queued) := by
  have hSplit := coins.spendQueue.take_append_drop queued
  have hNodup := h.nodup
  rw [← hSplit, List.map_append] at hNodup
  refine ⟨hNodup.of_append_right, ?_⟩
  intro inp
  rw [lookup_spent]
  constructor
  · intro hIn
    have hNotTaken : inp.prevout ∉ (coins.spendQueue.take queued).map Input.prevout :=
      fun hTaken => List.disjoint_of_nodup_append hNodup hTaken (List.mem_map_of_mem hIn)
    rw [if_neg hNotTaken]
    exact (h.mem inp).mp (List.mem_of_mem_drop hIn)
  · intro hLookup
    split at hLookup
    · cases hLookup
    case isFalse hNotTaken =>
        have hIn := (h.mem inp).mpr hLookup
        rw [← hSplit, List.mem_append] at hIn
        exact hIn.resolve_left fun hTaken => hNotTaken (List.mem_map_of_mem hTaken)

theorem Agrees.spent (h : Agrees coins) (seeds queued : Nat) :
    Agrees (coins.spent seeds queued) where
  toListed := h.toListed.spent seeds queued
  balanced := by
    show coins.mBalance - sumValues (coins.spendQueue.take queued) =
      sumValues (coins.spendQueue.drop queued)
    rw [h.balanced, sub_eq_iff_eq_add', ← sumValues_append, List.take_append_drop]

theorem mem_credit (coins : Coins) (inp : Input) (outPoint : OutPoint) :
    outPoint ∈ (coins.credit inp).utxosSet ↔
      outPoint = inp.prevout ∨ outPoint ∈ coins.utxosSet := by
  unfold Coins.credit
  split
  case isTrue hHeld =>
      refine (or_iff_right_of_imp ?_).symm
      rintro rfl
      exact hHeld
  case isFalse => exact Finmap.mem_insert

theorem mem_credits (coins : Coins) (credits : List Input) (outPoint : OutPoint) :
    outPoint ∈ (credits.foldl Coins.credit coins).utxosSet ↔
      outPoint ∈ credits.map Input.prevout ∨ outPoint ∈ coins.utxosSet := by
  induction credits generalizing coins with
  | nil => simp
  | cons inp credits ih =>
      rw [List.foldl_cons, ih, mem_credit, List.map_cons, List.mem_cons]
      tauto

/-- What is debited leaves the set, but not the queue. -/
theorem debits_spec (coins : Coins) (debits : List Input) :
    (debits.foldl Coins.debit coins).spendQueue = coins.spendQueue ∧
      ∀ outPoint, (debits.foldl Coins.debit coins).utxosSet.lookup outPoint =
        if outPoint ∈ debits.map Input.prevout then none
        else coins.utxosSet.lookup outPoint := by
  induction debits generalizing coins with
  | nil => simp
  | cons inp debits ih =>
      have hQueue : (coins.debit inp).spendQueue = coins.spendQueue := by
        unfold Coins.debit
        split <;> rfl
      have hLookup : ∀ outPoint, (coins.debit inp).utxosSet.lookup outPoint =
          if outPoint = inp.prevout then none else coins.utxosSet.lookup outPoint := by
        intro outPoint
        by_cases hSame : outPoint = inp.prevout
        · rw [if_pos hSame, hSame, Coins.debit]
          split
          · exact Finmap.lookup_erase _ _
          case isFalse hNot => exact Finmap.lookup_eq_none.mpr hNot
        · rw [if_neg hSame, Coins.debit]
          split
          · exact Finmap.lookup_erase_ne hSame
          · rfl
      obtain ⟨hRestQueue, hRest⟩ := ih (coins.debit inp)
      refine ⟨hRestQueue.trans hQueue, ?_⟩
      intro outPoint
      rw [List.foldl_cons, hRest, hLookup]
      simp only [List.map_cons, List.mem_cons]
      by_cases hSame : outPoint = inp.prevout <;> simp [hSame]

/-- Coins that are not held are not debited. -/
theorem debits_of_not_held {debits : List Input}
    (h : ∀ inp ∈ debits, inp.prevout ∉ coins.utxosSet) :
    debits.foldl Coins.debit coins = coins := by
  induction debits with
  | nil => rfl
  | cons inp debits ih =>
      obtain ⟨hFirst, hRest⟩ := List.forall_mem_cons.mp h
      rw [List.foldl_cons, Coins.debit, if_neg hFirst]
      exact ih hRest

/-- A coin that is debited while it is held stays in the queue. -/
theorem not_listed_of_held (h : Listed coins) {debits : List Input} {inp : Input}
    (hDebit : inp ∈ debits) (hHeld : inp.prevout ∈ coins.utxosSet) :
    ¬Listed (debits.foldl Coins.debit coins) := by
  intro hAfter
  obtain ⟨hQueue, hLookup⟩ := coins.debits_spec debits
  obtain ⟨held, hIn, hSame⟩ := List.mem_map.mp ((h.mem_set _).mp hHeld)
  rw [← hQueue, hAfter.mem, hLookup, hSame, if_pos (List.mem_map_of_mem hDebit)] at hIn
  cases hIn

end Listed

def setTotal (coins : Coins) : Nat :=
  (coins.utxosSet.entries.map fun row => row.2.value.toNat).sum

/-- The records agree, the balance as long as the total fits in 64 bits. -/
structure Consistent (coins : Coins) : Prop extends Listed coins where
  balance : coins.setTotal < 2 ^ 64 → coins.mBalance.toNat = coins.setTotal

section Total

variable {coins : Coins}

/-- The row of the set that an input stands for. -/
def coinRow (inp : Input) : OutPoint × Output := (inp.prevout, inp.prevoutData)

theorem listed_iff_order :
    Listed coins ↔ (Collection.table coinRow).Order coins.utxosSet coins.spendQueue := by
  have hMem : ∀ inp : Input,
      (inp.prevout, inp.prevoutData) ∈ coins.spendQueue.map coinRow ↔ inp ∈ coins.spendQueue := by
    intro inp
    refine ⟨?_, fun hIn => List.mem_map_of_mem hIn⟩
    intro hRow
    obtain ⟨other, hOther, hSame⟩ := List.mem_map.mp hRow
    obtain ⟨hPrevout, hData⟩ := Prod.mk.inj hSame
    obtain rfl : other = inp := congrArg₂ Input.mk hPrevout hData
    exact hOther
  rw [Collection.order_table_iff]
  constructor
  · intro h
    refine ⟨h.nodup, ?_⟩
    intro outPoint out
    rw [hMem ⟨outPoint, out⟩]
    exact (h.mem ⟨outPoint, out⟩).symm
  · rintro ⟨hNodup, hLookup⟩
    exact ⟨hNodup, fun inp => (hMem inp).symm.trans (hLookup inp.prevout inp.prevoutData).symm⟩

def exactSum (inputs : List Input) : Nat :=
  (inputs.map fun inp => inp.prevoutData.value.toNat).sum

theorem toNat_sumValues (inputs : List Input) :
    (sumValues inputs).toNat = exactSum inputs % 2 ^ 64 := by
  induction inputs with
  | nil => rfl
  | cons inp inputs ih =>
      have hSum : exactSum (inp :: inputs) = inp.prevoutData.value.toNat + exactSum inputs := rfl
      rw [sumValues_cons, UInt64.toNat_add, ih, hSum, Nat.add_mod_mod]

theorem Listed.entries (h : Listed coins) :
    coins.utxosSet.entries = (coins.spendQueue.map (Collection.row coinRow) : List _) :=
  listed_iff_order.mp h

theorem Listed.card (h : Listed coins) :
    coins.utxosSet.entries.card = coins.spendQueue.length := by
  rw [h.entries, Multiset.coe_card, List.length_map]

theorem Listed.setTotal (h : Listed coins) : coins.setTotal = exactSum coins.spendQueue := by
  rw [Coins.setTotal, h.entries]
  simp [exactSum, Collection.row, coinRow, Function.comp_def]

theorem Agrees.consistent (h : Agrees coins) : Consistent coins where
  toListed := h.toListed
  balance hFits := by
    rw [h.toListed.setTotal] at hFits ⊢
    rw [h.balanced, toNat_sumValues, Nat.mod_eq_of_lt hFits]

theorem agrees_ofUtxos {utxos : Finmap fun _ : OutPoint => Output} {order : List Input}
    (h : (Collection.table coinRow).Order utxos order) : Agrees (coins.ofUtxos utxos order) where
  toListed := listed_iff_order.mpr h
  balanced := rfl

end Total

end Coins

namespace Wallet

variable {crypto : Crypto}

/-- The operations of a wallet, with what they draw or read. -/
inductive Operation where
  | confirmTransaction (tx : FullTx)
  | confirmInputs (credits : List Input)
  | spend (call : SpendCall)
  | seed (privkey : PrivKey) (value : UInt32) (beginSeed endSeed : UInt64)
  | generateKey (draw : KeyStore.KeyDraw)
  | load (file : Wire.WalletFile) (keyOrder : List (PubKey × PrivKey)) (utxoOrder : List Input)

/-- A file is gone through in an order that its containers have. -/
def apply (signing : Signing) (wallet : Wallet crypto) : Operation → Option (Wallet crypto)
  | .confirmTransaction tx => wallet.confirmTransaction tx
  | .confirmInputs credits => some (wallet.confirmInputs credits)
  | .spend call => some (wallet.spend signing call).1
  | .seed privkey value beginSeed endSeed =>
      some (wallet.seed signing privkey value beginSeed endSeed).1
  | .generateKey draw => some (wallet.generateKey signing draw).1
  | .load file keyOrder utxoOrder =>
      if file.keys.entries = (keyOrder.map (Collection.row id) : List _) ∧
          file.utxos.entries = (utxoOrder.map (Collection.row Coins.coinRow) : List _) then
        some (wallet.load file keyOrder utxoOrder)
      else none

/-- A confirmed transaction spends no coin that the wallet holds, and none of its own
outputs. -/
def DebitsNothing (wallet : Wallet crypto) : Operation → Prop
  | .confirmTransaction tx => ∀ inp ∈ tx.inputs,
      inp.prevout ∉ wallet.coins.utxosSet ∧ inp.prevout ∉ (wallet.newUtxos tx).map Input.prevout
  | .confirmInputs _ | .spend _ | .seed _ _ _ _ | .generateKey _ | .load _ _ _ => True

instance (wallet : Wallet crypto) : (op : Operation) → Decidable (wallet.DebitsNothing op)
  | .confirmTransaction tx => inferInstanceAs (Decidable (∀ inp ∈ tx.inputs, _ ∧ _))
  | .confirmInputs _ | .spend _ | .seed _ _ _ _ | .generateKey _ | .load _ _ _ => isTrue trivial

theorem agrees_seed (signing : Signing) {wallet : Wallet crypto} (h : wallet.coins.Agrees)
    (privkey : PrivKey) (value : UInt32) (beginSeed endSeed : UInt64) :
    (wallet.seed signing privkey value beginSeed endSeed).1.coins.Agrees := by
  unfold Wallet.seed
  split
  · exact h
  · split
    · exact h
    · exact ⟨⟨h.nodup, h.mem⟩, h.balanced⟩

section Step

variable {signing : Signing} {wallet next : Wallet crypto} {op : Operation}

/-- Every operation keeps set, queue and balance in agreement, if no confirmed transaction
debits a coin that the wallet holds. -/
theorem agrees_apply (h : wallet.coins.Agrees) (hDebits : wallet.DebitsNothing op)
    (hStep : wallet.apply signing op = some next) : next.coins.Agrees := by
  cases op with
  | confirmTransaction tx =>
      simp only [apply, confirmTransaction, Option.ite_none_left_eq_some,
        Option.some.injEq] at hStep
      obtain ⟨_, rfl⟩ := hStep
      have hCredited := h.credits (wallet.newUtxos tx)
      rw [Coins.updateBalance, Coins.debits_of_not_held]
      · exact hCredited
      · intro inp hInp
        rw [Coins.mem_credits]
        exact fun hHeld => hHeld.elim (hDebits inp hInp).2 (hDebits inp hInp).1
  | confirmInputs credits =>
      obtain rfl := Option.some.inj hStep
      exact h.credits credits
  | spend call =>
      obtain rfl := Option.some.inj hStep
      rcases wallet.spend_cases signing call with hNone | ⟨seeds, queued, _, _, _, hSome⟩
      · rw [hNone]
        exact h
      · rw [hSome]
        exact h.spent seeds queued
  | seed privkey value beginSeed endSeed =>
      obtain rfl := Option.some.inj hStep
      exact agrees_seed signing h privkey value beginSeed endSeed
  | generateKey draw =>
      obtain rfl := Option.some.inj hStep
      exact h
  | load file keyOrder utxoOrder =>
      simp only [apply, Option.ite_none_right_eq_some, Option.some.injEq] at hStep
      obtain ⟨⟨_, hOrder⟩, rfl⟩ := hStep
      exact Coins.agrees_ofUtxos hOrder

/-- A transaction that spends what the wallet holds upsets the records. -/
theorem debitsNothing_of_listed (h : wallet.coins.Agrees)
    (hStep : wallet.apply signing op = some next) (hNext : next.coins.Listed) :
    wallet.DebitsNothing op := by
  cases op with
  | confirmTransaction tx =>
      simp only [apply, confirmTransaction, Option.ite_none_left_eq_some,
        Option.some.injEq] at hStep
      obtain ⟨_, rfl⟩ := hStep
      have hCredited := h.credits (wallet.newUtxos tx)
      intro inp hInp
      have hNot : inp.prevout ∉ ((wallet.newUtxos tx).foldl Coins.credit wallet.coins).utxosSet :=
        fun hHeld => Coins.not_listed_of_held hCredited.toListed hInp hHeld hNext
      rw [Coins.mem_credits, not_or] at hNot
      exact ⟨hNot.2, hNot.1⟩
  | confirmInputs | spend | seed | generateKey | load => trivial

/-- The records agree along a run in which no transaction debits a coin. -/
theorem agrees_of_run {ops : List Operation}
    (hRun : run (apply signing) (.new crypto) ops = some wallet)
    (hGuard : Guarded (apply signing) (.new crypto) DebitsNothing ops) :
    wallet.coins.Agrees :=
  guarded_invariant
    (motive := fun state : Wallet crypto => state.coins.Agrees) Coins.agrees_empty
    (fun _ _ _ hInv hNow hStep => agrees_apply hInv hNow hStep) hRun hGuard

end Step

/-- In every state that a wallet passes, its records of coins agree, if and only if no
transaction that it confirms spends a coin that it still holds. -/
theorem records_consistent_iff (signing : Signing) {ops : List Operation} {wallet : Wallet crypto}
    (hRun : run (apply signing) (.new crypto) ops = some wallet) :
    (∀ before after state, ops = before ++ after →
      run (apply signing) (.new crypto) before = some state →
        state.coins.Consistent) ↔
    Guarded (apply signing) (.new crypto) DebitsNothing ops := by
  constructor
  · intro hAll
    exact guarded_of_property hRun hAll
      (motive := fun state : Wallet crypto => state.coins.Agrees) Coins.agrees_empty
      (fun _ _ _ hInv hNow hStep => agrees_apply hInv hNow hStep)
      (fun _ _ _ hInv hStep hNext => debitsNothing_of_listed hInv hStep hNext.toListed)
  · intro hGuard before after state hOps hBefore
    subst hOps
    exact (agrees_of_run hBefore hGuard.of_append).consistent

/-- Primitives for fixed runs in which nothing is signed. -/
def unusedSigning : Signing :=
  { pubkeyFromPrivkey := id, schnorrsigSign := fun _ _ => Vector.replicate 64 0 }

def receivedCoin : Input := ⟨⟨.ofByte 1, 0⟩, ⟨.ofByte 2, 5⟩⟩

/-- A wallet gets two seeded coins of value 2, a key and the coin. -/
def funded : List Operation :=
  [.seed (Hash.ofByte 4) 2 0 2, .generateKey ⟨Hash.ofByte 3, 0⟩, .confirmInputs [receivedCoin]]

def payment : SpendCall := .sendTo 6 (Hash.ofByte 5) true ⟨Hash.ofByte 6, 0⟩

def paymentTx : FullTx :=
  ((run (apply unusedSigning) (.new byteSum) funded).bind fun wallet =>
    (wallet.spend unusedSigning payment).2).getD ⟨[], [], []⟩

/-- The payment spends the three coins, and comes back with a change of 3: the wallet has
taken the coins from its records before, and debits nothing. -/
theorem records_consistent_paid :
    ∃ wallet, run (apply unusedSigning) (.new byteSum)
        (funded ++ [.spend payment, .confirmTransaction paymentTx]) = some wallet ∧
      wallet.coins.Consistent ∧ wallet.coins.balance = 3 ∧ paymentTx.inputs.length = 3 := by
  have hTest : (run (apply unusedSigning) (.new byteSum)
      (funded ++ [.spend payment, .confirmTransaction paymentTx])).any
      (fun wallet => decide (wallet.coins.balance = 3)) = true := by
    decide +kernel
  obtain ⟨wallet, hRun, hBalance⟩ := exists_run_of_test hTest
  have hConsistent := (records_consistent_iff unusedSigning hRun).mpr (by decide +kernel) _ []
    wallet (List.append_nil _).symm hRun
  exact ⟨wallet, hRun, hConsistent, of_decide_eq_true hBalance, by decide +kernel⟩

/-- The coin is spent by a transaction that the wallet has not made. -/
def foreignSpend : List Operation :=
  [.confirmInputs [receivedCoin], .confirmTransaction ⟨[receivedCoin], [⟨.ofByte 7, 5⟩], []⟩]

/-- It is then still queued to be spent, although it has left the set. -/
theorem spent_coin_stays_queued :
    ∃ wallet, run (apply unusedSigning) (.new .unused) foreignSpend =
        some wallet ∧
      wallet.coins.spendQueue = [receivedCoin] ∧ wallet.coins.utxosSet = ∅ ∧
      ¬wallet.coins.Consistent := by
  have hTest : (run (apply unusedSigning) (.new .unused) foreignSpend).any
      (fun wallet => decide (wallet.coins.spendQueue = [receivedCoin] ∧
        wallet.coins.utxosSet = ∅)) = true := by
    decide +kernel
  obtain ⟨wallet, hRun, hWallet⟩ := exists_run_of_test hTest
  obtain ⟨hQueue, hSet⟩ := of_decide_eq_true hWallet
  refine ⟨wallet, hRun, hQueue, hSet, fun hConsistent => ?_⟩
  have hHeld := (hConsistent.mem receivedCoin).mp (by simp [hQueue])
  rw [hSet] at hHeld
  cases hHeld

end Wallet
end OpenCbdc

import Mathlib.Tactic.Abel
import OpenCbdc.Wallet.Wallet

/-! What the loops that collect coins do. A transaction spends the next seeded coins
and then the first coins of the queue, or nothing is spent at all. -/
namespace OpenCbdc

def sumValues (inputs : List Input) : UInt64 :=
  (inputs.map fun inp => inp.prevoutData.value).sum

@[simp] theorem sumValues_nil : sumValues [] = 0 := rfl

@[simp] theorem sumValues_cons (inp : Input) (inputs : List Input) :
    sumValues (inp :: inputs) = inp.prevoutData.value + sumValues inputs := rfl

@[simp] theorem sumValues_append (first second : List Input) :
    sumValues (first ++ second) = sumValues first + sumValues second := by
  simp [sumValues]

namespace Coins

/-- The transaction that a seeded coin is taken to come from. -/
def seededTransaction (coins : Coins) (seedIdx : UInt64) : FullTx :=
  { inputs := [⟨⟨.ofByte 0, seedIdx⟩, ⟨.ofByte 0, coins.seedValue.toUInt64⟩⟩]
    outputs := [⟨coins.seedWitnessCommitment, coins.seedValue.toUInt64⟩]
    witness := [] }

def seededInput (crypto : Crypto) (coins : Coins) (seedIdx : UInt64) : Input :=
  ⟨⟨txId crypto (coins.seededTransaction seedIdx), 0⟩,
    ⟨coins.seedWitnessCommitment, coins.seedValue.toUInt64⟩⟩

def seededInputs (crypto : Crypto) (coins : Coins) (seeds : Nat) : List Input :=
  (List.range seeds).map fun i => coins.seededInput crypto (coins.seedFrom + UInt64.ofNat i)

def seedsLeft (coins : Coins) : Nat := (coins.seedTo - coins.seedFrom).toNat

/-- What remains when the next seeded coins and the first coins of the queue are
spent. -/
def spent (coins : Coins) (seeds queued : Nat) : Coins :=
  { coins with
    seedFrom := coins.seedFrom + UInt64.ofNat seeds
    mBalance := coins.mBalance - sumValues (coins.spendQueue.take queued)
    utxosSet := Table.eraseAll coins.utxosSet
      (((coins.spendQueue.take queued).map Input.prevout : List OutPoint) : Multiset OutPoint)
    spendQueue := coins.spendQueue.drop queued }

def spentInputs (crypto : Crypto) (coins : Coins) (seeds queued : Nat) : List Input :=
  coins.seededInputs crypto seeds ++ coins.spendQueue.take queued

/-- All that can be spent: the seeded coins that are left, and the queue. -/
def spendable (crypto : Crypto) (coins : Coins) : List Input :=
  coins.seededInputs crypto coins.seedsLeft ++ coins.spendQueue

section Seeded

variable {crypto : Crypto} {coins : Coins}

theorem createSeededInput_eq (crypto : Crypto) (h : coins.seedFrom ≠ coins.seedTo)
    (seedIdx : UInt64) :
    coins.createSeededInput crypto seedIdx = some (coins.seededInput crypto seedIdx) := by
  rw [createSeededInput, createSeededTransaction, if_neg h]
  rfl

theorem add_ofNat_succ (start : UInt64) (n : Nat) :
    start + UInt64.ofNat (n + 1) = start + 1 + UInt64.ofNat n := by
  rw [UInt64.ofNat_add, add_assoc, add_comm (UInt64.ofNat n)]
  rfl

theorem seededInputs_succ (crypto : Crypto) (coins : Coins) (seeds : Nat) :
    coins.seededInputs crypto (seeds + 1) = coins.seededInput crypto coins.seedFrom ::
      { coins with seedFrom := coins.seedFrom + 1 }.seededInputs crypto seeds := by
  rw [seededInputs, List.range_succ_eq_map, List.map_cons, List.map_map]
  refine congrArg₂ List.cons ?_ ?_
  · simp
  · apply List.map_congr_left
    intro i _
    show coins.seededInput crypto (coins.seedFrom + UInt64.ofNat (i + 1)) = _
    rw [add_ofNat_succ]
    rfl

theorem seedsLeft_eq_zero_iff : coins.seedsLeft = 0 ↔ coins.seedFrom = coins.seedTo := by
  rw [seedsLeft, ← UInt64.toNat_zero, UInt64.toNat_inj, sub_eq_zero, eq_comm]

theorem seedsLeft_lt (coins : Coins) : coins.seedsLeft < 2 ^ 64 :=
  (coins.seedTo - coins.seedFrom).toNat_lt

theorem seedsLeft_succ (h : coins.seedFrom ≠ coins.seedTo) :
    { coins with seedFrom := coins.seedFrom + 1 }.seedsLeft + 1 = coins.seedsLeft := by
  have hNext : coins.seedTo - (coins.seedFrom + 1) = coins.seedTo - coins.seedFrom - 1 :=
    (sub_sub _ _ _).symm
  have hPositive : coins.seedsLeft ≠ 0 := fun hZero => h (seedsLeft_eq_zero_iff.mp hZero)
  have hOne : (1 : UInt64) ≤ coins.seedTo - coins.seedFrom := by
    rw [UInt64.le_iff_toNat_le]
    exact Nat.one_le_iff_ne_zero.mpr hPositive
  show (coins.seedTo - (coins.seedFrom + 1)).toNat + 1 = coins.seedsLeft
  rw [hNext, UInt64.toNat_sub_of_le _ _ hOne]
  exact Nat.sub_add_cancel (Nat.one_le_iff_ne_zero.mpr hPositive)

theorem ofNat_succ_mul (n : Nat) (value : UInt64) :
    UInt64.ofNat (n + 1) * value = UInt64.ofNat n * value + value := by
  have hOne : UInt64.ofNat 1 * value = value := UInt64.one_mul value
  rw [UInt64.ofNat_add, add_mul, hOne]

theorem sumValues_seededInputs (crypto : Crypto) (coins : Coins) (seeds : Nat) :
    sumValues (coins.seededInputs crypto seeds) =
      UInt64.ofNat seeds * coins.seedValue.toUInt64 := by
  induction seeds generalizing coins with
  | zero => exact (zero_mul coins.seedValue.toUInt64).symm
  | succ seeds ih =>
      rw [seededInputs_succ, sumValues_cons, ih, ofNat_succ_mul]
      exact add_comm _ _

end Seeded

section Collect

variable {crypto : Crypto} {wanted : Draft → Bool}

/-- What the loop over the seeded coins does: it takes some of them, and stops when
there are no more or no more are wanted. -/
theorem takeSeeded_spec (crypto : Crypto) (wanted : Draft → Bool) {rounds : Nat} {coins : Coins}
    (hRounds : coins.seedsLeft ≤ rounds) (draft : Draft) :
    ∃ seeds ≤ coins.seedsLeft,
      (takeSeeded crypto wanted rounds coins draft).1 =
        { coins with seedFrom := coins.seedFrom + UInt64.ofNat seeds } ∧
      (takeSeeded crypto wanted rounds coins draft).2 =
        { inputs := draft.inputs ++ coins.seededInputs crypto seeds
          witness := draft.witness ++ List.replicate seeds blankWitness
          totalAmount := draft.totalAmount + sumValues (coins.seededInputs crypto seeds)
          seededInputs := draft.seededInputs + UInt64.ofNat seeds } ∧
      (seeds = coins.seedsLeft ∨
        wanted (takeSeeded crypto wanted rounds coins draft).2 = false) := by
  induction rounds generalizing coins draft with
  | zero =>
      refine ⟨0, Nat.zero_le _, ?_, ?_, Or.inl (Nat.le_zero.mp hRounds).symm⟩
      · simp [takeSeeded]
      · simp [takeSeeded, seededInputs]
  | succ rounds ih =>
      by_cases hMore : coins.seedFrom ≠ coins.seedTo ∧ wanted draft
      · have hLeft := seedsLeft_succ hMore.1
        obtain ⟨seeds, hSeeds, hCoins, hDraft, hStop⟩ :=
          @ih { coins with seedFrom := coins.seedFrom + 1 } (by omega)
            { inputs := draft.inputs ++ [coins.seededInput crypto coins.seedFrom]
              witness := draft.witness ++ [blankWitness]
              totalAmount := draft.totalAmount + coins.seedValue.toUInt64
              seededInputs := draft.seededInputs + 1 }
        have hRound : takeSeeded crypto wanted (rounds + 1) coins draft =
            takeSeeded crypto wanted rounds { coins with seedFrom := coins.seedFrom + 1 }
              { inputs := draft.inputs ++ [coins.seededInput crypto coins.seedFrom]
                witness := draft.witness ++ [blankWitness]
                totalAmount := draft.totalAmount + coins.seedValue.toUInt64
                seededInputs := draft.seededInputs + 1 } := by
          rw [takeSeeded, if_pos hMore, createSeededInput_eq crypto hMore.1]
        rw [hRound]
        refine ⟨seeds + 1, by omega, ?_, ?_, ?_⟩
        · rw [hCoins, add_ofNat_succ]
        · rw [hDraft, add_ofNat_succ, seededInputs_succ, sumValues_cons, List.replicate_succ,
            List.append_assoc, List.append_assoc, add_assoc]
          rfl
        · exact hStop.imp_left fun hAll => by omega
      · have hRound : takeSeeded crypto wanted (rounds + 1) coins draft = (coins, draft) := by
          rw [takeSeeded, if_neg hMore]
        rw [hRound]
        refine ⟨0, Nat.zero_le _, by simp, by simp [seededInputs], ?_⟩
        by_cases hSeeds : coins.seedFrom = coins.seedTo
        · exact Or.inl (seedsLeft_eq_zero_iff.mpr hSeeds).symm
        · exact Or.inr (by simpa [hSeeds] using hMore)

/-- What the loop over the queue does: it takes the first coins, and stops when there
are no more or no more are wanted. -/
theorem takeQueued_spec (wanted : Draft → Bool) (withWitness : Bool) (queue : List Input)
    (draft : Draft) :
    ∃ queued ≤ queue.length,
      takeQueued wanted withWitness queue draft =
        { draft with
          inputs := draft.inputs ++ queue.take queued
          witness :=
            draft.witness ++ List.replicate (if withWitness then queued else 0) blankWitness
          totalAmount := draft.totalAmount + sumValues (queue.take queued) } ∧
      (queued = queue.length ∨ wanted (takeQueued wanted withWitness queue draft) = false) := by
  induction queue generalizing draft with
  | nil => exact ⟨0, Nat.le_refl 0, by simp [takeQueued], Or.inl rfl⟩
  | cons utxo queue ih =>
      by_cases hMore : wanted draft
      · obtain ⟨queued, hQueued, hDraft, hStop⟩ := ih
          { draft with
            inputs := draft.inputs ++ [utxo]
            witness := if withWitness then draft.witness ++ [blankWitness] else draft.witness
            totalAmount := draft.totalAmount + utxo.prevoutData.value }
        rw [takeQueued, if_pos hMore]
        refine ⟨queued + 1, Nat.succ_le_succ hQueued, ?_, hStop.imp_left (congrArg Nat.succ)⟩
        rw [hDraft, List.take_succ_cons, sumValues_cons, List.append_assoc, add_assoc]
        cases withWitness with
        | false => rfl
        | true => simp [List.replicate_succ]
      · rw [takeQueued, if_neg hMore]
        exact ⟨0, Nat.zero_le _, by simp, Or.inr (by simpa using hMore)⟩

theorem takeQueued_of_not_wanted (withWitness : Bool) (queue : List Input) {draft : Draft}
    (h : wanted draft = false) : takeQueued wanted withWitness queue draft = draft := by
  cases queue with
  | nil => rfl
  | cons utxo queue => rw [takeQueued, h, if_neg Bool.false_ne_true]

/-- The draft that the two loops make of the next seeded coins and the first coins of
the queue. -/
def draftOf (crypto : Crypto) (coins : Coins) (withWitness : Bool) (seeds queued : Nat) : Draft :=
  { inputs := coins.spentInputs crypto seeds queued
    witness := List.replicate (seeds + if withWitness then queued else 0) blankWitness
    totalAmount := sumValues (coins.spentInputs crypto seeds queued)
    seededInputs := UInt64.ofNat seeds }

structure Available (coins : Coins) (seeds queued : Nat) : Prop where
  seeds : seeds ≤ coins.seedsLeft
  queued : queued ≤ coins.spendQueue.length

/-- Collecting takes seeded coins first and then coins from the front of the queue, until it
has what is wanted or there are no more. -/
theorem collect_spec (crypto : Crypto) (wanted : Draft → Bool) (withWitness : Bool)
    (coins : Coins) :
    ∃ seeds queued, Available coins seeds queued ∧
      coins.collect crypto wanted withWitness =
        ({ coins with seedFrom := coins.seedFrom + UInt64.ofNat seeds },
          coins.draftOf crypto withWitness seeds queued) ∧
      (seeds = coins.seedsLeft ∧ queued = coins.spendQueue.length ∨
        wanted (coins.draftOf crypto withWitness seeds queued) = false) := by
  obtain ⟨seeds, hSeeds, hCoins, hDraft, hSeedStop⟩ :=
    takeSeeded_spec crypto wanted (Nat.le_refl coins.seedsLeft) .new
  obtain ⟨queued, hQueued, hQueue, hStop⟩ :=
    takeQueued_spec wanted withWitness coins.spendQueue
      (takeSeeded crypto wanted coins.seedsLeft coins .new).2
  have hDraftOf : takeQueued wanted withWitness coins.spendQueue
      (takeSeeded crypto wanted coins.seedsLeft coins .new).2 =
        coins.draftOf crypto withWitness seeds queued := by
    rw [hQueue, hDraft, draftOf, spentInputs, sumValues_append, List.replicate_add]
    simp [Draft.new]
  refine ⟨seeds, queued, ⟨hSeeds, hQueued⟩, ?_, ?_⟩
  · have hQueue : (takeSeeded crypto wanted coins.seedsLeft coins .new).1.spendQueue =
        coins.spendQueue := by
      rw [hCoins]
    refine Prod.ext hCoins ?_
    show takeQueued wanted withWitness
      (takeSeeded crypto wanted coins.seedsLeft coins .new).1.spendQueue _ = _
    rw [hQueue]
    exact hDraftOf
  · rw [← hDraftOf]
    rcases hSeedStop with hAll | hEnough
    · exact hStop.imp_left fun hEnd => ⟨hAll, hEnd⟩
    · exact Or.inr (by rwa [takeQueued_of_not_wanted withWitness coins.spendQueue hEnough])

end Collect

section Remove

variable {coins : Coins} {seeds queued : Nat}

theorem putBack_eq (coins : Coins) (crypto : Crypto) (withWitness : Bool) (seeds queued : Nat) :
    { coins with seedFrom := coins.seedFrom + UInt64.ofNat seeds }.putBack
      (coins.draftOf crypto withWitness seeds queued) = coins := by
  show { coins with seedFrom := coins.seedFrom + UInt64.ofNat seeds - UInt64.ofNat seeds } = coins
  rw [add_sub_cancel_right]

/-- Spending one coin more of the queue. -/
theorem spent_cons {utxo : Input} {rest : List Input} (h : coins.spendQueue = utxo :: rest) :
    coins.spent 0 (queued + 1) =
      { coins with
        mBalance := coins.mBalance - utxo.prevoutData.value
        utxosSet := coins.utxosSet.erase utxo.prevout
        spendQueue := rest }.spent 0 queued := by
  simp only [spent, h, List.take_succ_cons, List.map_cons, sumValues_cons, List.drop_succ_cons,
    sub_sub]
  rfl

theorem removeFront_eq (h : queued ≤ coins.spendQueue.length) :
    removeFront queued coins = coins.spent 0 queued := by
  induction queued generalizing coins with
  | zero => simp [removeFront, spent, Table.eraseAll]
  | succ queued ih =>
      cases hQueue : coins.spendQueue with
      | nil => simp [hQueue] at h
      | cons utxo rest =>
          rw [hQueue, List.length_cons] at h
          rw [spent_cons hQueue, ← ih (Nat.le_of_succ_le_succ h), removeFront, hQueue]

theorem foldl_removeInput_eq (h : queued ≤ coins.spendQueue.length) :
    (coins.spendQueue.take queued).foldl removeInput coins = coins.spent 0 queued := by
  induction queued generalizing coins with
  | zero => simp [spent, Table.eraseAll]
  | succ queued ih =>
      cases hQueue : coins.spendQueue with
      | nil => simp [hQueue] at h
      | cons utxo rest =>
          rw [hQueue, List.length_cons] at h
          rw [spent_cons hQueue, ← ih (Nat.le_of_succ_le_succ h), List.take_succ_cons,
            List.foldl_cons, removeInput, hQueue, List.tail_cons]

theorem spent_seeded (coins : Coins) (seeds queued : Nat) :
    { coins with seedFrom := coins.seedFrom + UInt64.ofNat seeds }.spent 0 queued =
      coins.spent seeds queued := by
  simp [spent]

theorem Available.toNat_seeds (h : Available coins seeds queued) :
    (UInt64.ofNat seeds).toNat = seeds :=
  UInt64.toNat_ofNat_of_lt' (Nat.lt_of_le_of_lt h.seeds coins.seedsLeft_lt)

theorem length_seededInputs (crypto : Crypto) (coins : Coins) (seeds : Nat) :
    (coins.seededInputs crypto seeds).length = seeds := by
  simp [seededInputs]

theorem Available.length_spentInputs (h : Available coins seeds queued) (crypto : Crypto) :
    (coins.spentInputs crypto seeds queued).length = seeds + queued := by
  rw [spentInputs, List.length_append, length_seededInputs,
    List.length_take_of_le h.queued]

end Remove

/-- `accumulate_inputs` takes coins that are worth the amount, or leaves everything as
it was. -/
theorem accumulateInputs_cases (crypto : Crypto) (coins : Coins) (amount : UInt64) :
    coins.accumulateInputs crypto amount = (coins, none) ∨
    ∃ seeds queued, Available coins seeds queued ∧
      amount ≤ sumValues (coins.spentInputs crypto seeds queued) ∧
      coins.accumulateInputs crypto amount =
        (coins.spent seeds queued,
          some (⟨coins.spentInputs crypto seeds queued, [],
            List.replicate (seeds + queued) blankWitness⟩,
            sumValues (coins.spentInputs crypto seeds queued))) := by
  obtain ⟨seeds, queued, hAvailable, hCollect, _⟩ :=
    collect_spec crypto (fun draft => draft.totalAmount < amount) true coins
  rw [accumulateInputs, hCollect]
  dsimp only
  split
  · exact Or.inl (by rw [putBack_eq])
  case isFalse hEnough =>
      refine Or.inr ⟨seeds, queued, hAvailable, UInt64.not_lt.mp hEnough, ?_⟩
      have hLength : (coins.draftOf crypto true seeds queued).inputs.length -
          (coins.draftOf crypto true seeds queued).seededInputs.toNat = queued := by
        rw [draftOf, hAvailable.toNat_seeds, hAvailable.length_spentInputs]
        omega
      have hRemoved : removeFront queued
          { coins with seedFrom := coins.seedFrom + UInt64.ofNat seeds } =
            coins.spent seeds queued := by
        rw [← spent_seeded]
        exact removeFront_eq hAvailable.queued
      rw [hLength, hRemoved]
      rfl

/-- The same for the inputs of `send_to` with counts. -/
theorem takeInputs_cases (crypto : Crypto) (coins : Coins) (inputCount outputCount : UInt64) :
    coins.takeInputs crypto inputCount outputCount = (coins, none) ∨
    ∃ seeds queued, Available coins seeds queued ∧
      (seeds = coins.seedsLeft ∧ queued = coins.spendQueue.length ∨
        inputCount.toNat ≤ seeds + queued) ∧
      ¬UInt64.ofNat coins.utxosSet.entries.card + coins.seedTo - coins.seedFrom < inputCount ∧
      ¬(sumValues (coins.spentInputs crypto seeds queued) / outputCount = 0 ∧ 1 < outputCount) ∧
      coins.takeInputs crypto inputCount outputCount =
        (coins.spent seeds queued,
          some (⟨coins.spentInputs crypto seeds queued, [],
            List.replicate seeds blankWitness⟩,
            sumValues (coins.spentInputs crypto seeds queued),
            sumValues (coins.spentInputs crypto seeds queued) / outputCount)) := by
  obtain ⟨seeds, queued, hAvailable, hCollect, hStop⟩ :=
    collect_spec crypto (fun draft => draft.inputs.length < inputCount.toNat) false coins
  rw [takeInputs]
  split
  · exact Or.inl rfl
  case isFalse hSize =>
      rw [hCollect]
      dsimp only
      split
      · exact Or.inl (by rw [putBack_eq])
      case isFalse hValue =>
          refine Or.inr ⟨seeds, queued, hAvailable, ?_, hSize, hValue, ?_⟩
          · refine hStop.imp_right fun hEnough => ?_
            have hLength := hAvailable.length_spentInputs crypto
            simp only [draftOf, hLength, decide_eq_false_iff_not] at hEnough
            omega
          · have hDrop : (coins.draftOf crypto false seeds queued).inputs.drop
                (coins.draftOf crypto false seeds queued).seededInputs.toNat =
                  coins.spendQueue.take queued := by
              rw [draftOf, hAvailable.toNat_seeds, spentInputs,
                List.drop_left' (length_seededInputs crypto coins seeds)]
            have hRemoved : (coins.spendQueue.take queued).foldl removeInput
                { coins with seedFrom := coins.seedFrom + UInt64.ofNat seeds } =
                  coins.spent seeds queued := by
              rw [← spent_seeded]
              exact foldl_removeInput_eq hAvailable.queued
            rw [hDrop, hRemoved]
            rfl

theorem balance_eq (coins : Coins) :
    coins.balance =
      coins.mBalance + (coins.seedTo - coins.seedFrom) * coins.seedValue.toUInt64 := by
  rw [balance]
  split
  · rfl
  case isFalse hEmpty =>
      rw [ne_eq, not_not] at hEmpty
      rw [hEmpty, sub_self, zero_mul, add_zero]

/-- The balance drops by what is spent. -/
theorem balance_spent (crypto : Crypto) (coins : Coins) (seeds queued : Nat) :
    (coins.spent seeds queued).balance =
      coins.balance - sumValues (coins.spentInputs crypto seeds queued) := by
  rw [balance_eq, balance_eq, spentInputs, sumValues_append, sumValues_seededInputs]
  simp only [spent]
  rw [← sub_sub, sub_mul]
  abel

theorem lookup_spent (coins : Coins) (seeds queued : Nat) (outPoint : OutPoint) :
    (coins.spent seeds queued).utxosSet.lookup outPoint =
      if outPoint ∈ (coins.spendQueue.take queued).map Input.prevout then none
      else coins.utxosSet.lookup outPoint :=
  Table.lookup_eraseAll _ _ outPoint

end Coins

namespace Wallet

variable {crypto : Crypto}

@[simp] theorem inputs_signIf (signing : Signing) (keys : KeyStore crypto) (signTx : Bool)
    (tx : FullTx) : (signIf signing keys signTx tx).inputs = tx.inputs := by
  cases signTx <;> rfl

def SpendCall.signTx : SpendCall → Bool
  | .sendTo _ _ signTx _ => signTx
  | .fan _ _ _ signTx _ => signTx
  | .sendToCounts _ _ _ signTx => signTx

/-- The outputs that a call makes of a total, and the keys afterwards. -/
def pay (signing : Signing) (keys : KeyStore crypto) (totalAmount : UInt64) :
    SpendCall → KeyStore crypto × List Output
  | .sendTo amount payee _ draw =>
      let (after, change) := withChange signing keys draw totalAmount amount.toUInt64
      (after, payTo crypto payee amount.toUInt64 :: change)
  | .fan outputCount value payee _ draw =>
      let (after, change) :=
        withChange signing keys draw totalAmount (outputCount * value.toUInt64)
      (after,
        change ++ List.replicate outputCount.toNat (payTo crypto payee value.toUInt64))
  | .sendToCounts _ outputCount payee _ =>
      (keys, (Coins.splitAmount (totalAmount / outputCount) outputCount.toNat totalAmount).map
        (payTo crypto payee))

/-- The coins are those that the call asks for. -/
def SpendCall.Covered (crypto : Crypto) (coins : Coins) (seeds queued : Nat) : SpendCall → Prop
  | .sendTo amount _ _ _ =>
      amount.toUInt64 ≤ sumValues (coins.spentInputs crypto seeds queued)
  | .fan outputCount value _ _ _ =>
      outputCount * value.toUInt64 ≤ sumValues (coins.spentInputs crypto seeds queued)
  | .sendToCounts inputCount outputCount _ _ =>
      (seeds = coins.seedsLeft ∧ queued = coins.spendQueue.length ∨
        inputCount.toNat ≤ seeds + queued) ∧
      ¬UInt64.ofNat coins.utxosSet.entries.card + coins.seedTo - coins.seedFrom < inputCount ∧
      ¬(sumValues (coins.spentInputs crypto seeds queued) / outputCount = 0 ∧ 1 < outputCount)

/-- What a call that makes a transaction does: nothing, or it spends the coins it asks
for and pays their total. -/
theorem spend_cases (signing : Signing) (wallet : Wallet crypto) (call : SpendCall) :
    wallet.spend signing call = (wallet, none) ∨
    ∃ seeds queued witness, wallet.coins.Available seeds queued ∧
      call.Covered crypto wallet.coins seeds queued ∧
      let inputs := wallet.coins.spentInputs crypto seeds queued
      let paid := pay signing wallet.keys (sumValues inputs) call
      wallet.spend signing call =
        ({ keys := paid.1, coins := wallet.coins.spent seeds queued },
          some (signIf signing paid.1 call.signTx ⟨inputs, paid.2, witness⟩)) := by
  cases call with
  | sendTo amount payee signTx draw =>
      rcases wallet.coins.accumulateInputs_cases crypto amount.toUInt64 with
        hNone | ⟨seeds, queued, hAvailable, hCovered, hSome⟩
      · exact Or.inl (by simp only [spend, sendTo, hNone])
      · refine Or.inr ⟨seeds, queued, List.replicate (seeds + queued) Coins.blankWitness,
          hAvailable, hCovered, ?_⟩
        simp only [spend, sendTo, hSome]
        rfl
  | fan outputCount value payee signTx draw =>
      rcases wallet.coins.accumulateInputs_cases crypto (outputCount * value.toUInt64) with
        hNone | ⟨seeds, queued, hAvailable, hCovered, hSome⟩
      · exact Or.inl (by simp only [spend, fan, hNone])
      · refine Or.inr ⟨seeds, queued, List.replicate (seeds + queued) Coins.blankWitness,
          hAvailable, hCovered, ?_⟩
        simp only [spend, fan, hSome]
        rfl
  | sendToCounts inputCount outputCount payee signTx =>
      rcases wallet.coins.takeInputs_cases crypto inputCount outputCount with
        hNone | ⟨seeds, queued, hAvailable, hStop, hSize, hValue, hSome⟩
      · exact Or.inl (by simp only [spend, sendToCounts, hNone])
      · refine Or.inr ⟨seeds, queued, List.replicate seeds Coins.blankWitness, hAvailable,
          ⟨hStop, hSize, hValue⟩, ?_⟩
        simp only [spend, sendToCounts, hSome]
        rfl

/-- A call returns nothing and leaves the coins as they were, or its transaction spends
the next seeded coins and then the first coins of the queue: they leave the seed range,
the queue and the set, and the balance drops by their values. -/
theorem spend_atomic (signing : Signing) (wallet : Wallet crypto) (call : SpendCall) :
    match wallet.spend signing call with
    | (after, none) => after = wallet
    | (after, some tx) => ∃ seeds queued, wallet.coins.Available seeds queued ∧
        tx.inputs = wallet.coins.seededInputs crypto seeds ++ wallet.coins.spendQueue.take queued ∧
        after.coins.seedFrom = wallet.coins.seedFrom + UInt64.ofNat seeds ∧
        after.coins.seedTo = wallet.coins.seedTo ∧
        after.coins.spendQueue = wallet.coins.spendQueue.drop queued ∧
        (∀ outPoint, after.coins.utxosSet.lookup outPoint =
          if outPoint ∈ (wallet.coins.spendQueue.take queued).map Input.prevout then none
          else wallet.coins.utxosSet.lookup outPoint) ∧
        after.coins.balance = wallet.coins.balance - sumValues tx.inputs := by
  rcases wallet.spend_cases signing call with hNone | ⟨seeds, queued, witness, hAvailable, _, hSome⟩
  · rw [hNone]
  · rw [hSome]
    refine ⟨seeds, queued, hAvailable, inputs_signIf _ _ _ _, rfl, rfl, rfl,
      wallet.coins.lookup_spent seeds queued, ?_⟩
    rw [inputs_signIf]
    exact wallet.coins.balance_spent crypto seeds queued

end Wallet
end OpenCbdc

import OpenCbdc.Wallet.Validity

/-! What a wallet can spend, as one list of coins: a call takes some of them, and a
confirmed transaction adds the outputs that are locked to the wallet's keys. -/
namespace OpenCbdc

open Validation

def sumOutputs (outputs : List Output) : UInt64 := (outputs.map Output.value).sum

namespace Coins

variable {crypto : Crypto} {coins : Coins} {seeds queued : Nat}

theorem seededInputs_add (crypto : Crypto) (coins : Coins) (first second : Nat) :
    coins.seededInputs crypto (first + second) = coins.seededInputs crypto first ++
      { coins with seedFrom := coins.seedFrom + UInt64.ofNat first }.seededInputs crypto
        second := by
  rw [seededInputs, List.range_add, List.map_append, List.map_map]
  congr 1
  apply List.map_congr_left
  intro i _
  show coins.seededInput crypto (coins.seedFrom + UInt64.ofNat (first + i)) =
    coins.seededInput crypto (coins.seedFrom + UInt64.ofNat first + UInt64.ofNat i)
  rw [UInt64.ofNat_add, add_assoc]

theorem Available.seedsLeft_spent (h : Available coins seeds queued) :
    seeds + (coins.spent seeds queued).seedsLeft = coins.seedsLeft := by
  have hLe : UInt64.ofNat seeds ≤ coins.seedTo - coins.seedFrom := by
    rw [UInt64.le_iff_toNat_le, h.toNat_seeds]
    exact h.seeds
  have hLeft : (coins.spent seeds queued).seedsLeft = coins.seedsLeft - seeds := by
    show (coins.seedTo - (coins.seedFrom + UInt64.ofNat seeds)).toNat = _
    rw [← sub_sub, UInt64.toNat_sub_of_le _ _ hLe, h.toNat_seeds]
    rfl
  rw [hLeft, Nat.add_sub_cancel' h.seeds]

/-- What can be spent is divided into what is spent and what can be spent then. -/
theorem Available.spendable_perm (h : Available coins seeds queued) (crypto : Crypto) :
    (coins.spendable crypto).Perm
      (coins.spentInputs crypto seeds queued ++ (coins.spent seeds queued).spendable crypto) := by
  have hSeeds : coins.seededInputs crypto coins.seedsLeft =
      coins.seededInputs crypto seeds ++ (coins.spent seeds queued).seededInputs crypto
        (coins.spent seeds queued).seedsLeft := by
    rw [← h.seedsLeft_spent]
    exact seededInputs_add crypto coins seeds _
  rw [spendable, hSeeds, spentInputs, List.append_assoc, List.append_assoc]
  refine List.Perm.append_left _ ?_
  nth_rewrite 1 [← coins.spendQueue.take_append_drop queued]
  exact List.perm_append_comm_assoc _ _ _

/-- The coins before a call are the inputs it takes and the coins after it. -/
theorem Available.prevouts_perm (h : Available coins seeds queued) (crypto : Crypto) :
    ((coins.spendable crypto).map Input.prevout).Perm
      ((coins.spentInputs crypto seeds queued).map Input.prevout ++
        ((coins.spent seeds queued).spendable crypto).map Input.prevout) := by
  rw [← List.map_append]
  exact (h.spendable_perm crypto).map Input.prevout

/-- What is new and is not the coin that is credited is still new then. -/
theorem new_of_credit {inp : Input} {credits : List Input}
    (hNodup : inp.prevout ∉ credits.map Input.prevout)
    (hNew : ∀ later ∈ credits, later.prevout ∉ coins.utxosSet) :
    ∀ later ∈ credits, later.prevout ∉ (coins.credit inp).utxosSet := by
  intro later hLater hHeld
  rcases (mem_credit coins inp later.prevout).mp hHeld with hSame | hOld
  · exact hNodup (hSame ▸ List.mem_map_of_mem hLater)
  · exact hNew later hLater hOld

/-- Coins that are not held yet are added to the queue and to the balance. -/
theorem credits_of_new {credits : List Input} (hNodup : (credits.map Input.prevout).Nodup)
    (hNew : ∀ inp ∈ credits, inp.prevout ∉ coins.utxosSet) :
    ∃ utxos, credits.foldl credit coins =
      { coins with
        mBalance := coins.mBalance + sumValues credits
        utxosSet := utxos
        spendQueue := coins.spendQueue ++ credits } := by
  induction credits generalizing coins with
  | nil => exact ⟨coins.utxosSet, by simp⟩
  | cons inp credits ih =>
      obtain ⟨hFirst, hRest⟩ := List.forall_mem_cons.mp hNew
      rw [List.map_cons, List.nodup_cons] at hNodup
      obtain ⟨utxos, hCredits⟩ := ih hNodup.2 (new_of_credit hNodup.1 hRest)
      refine ⟨utxos, ?_⟩
      rw [List.foldl_cons, hCredits, credit, if_neg hFirst]
      simp [add_assoc]

theorem lookup_credits {credits : List Input} {outPoint : OutPoint} {out : Output}
    (h : coins.utxosSet.lookup outPoint = some out) :
    (credits.foldl credit coins).utxosSet.lookup outPoint = some out := by
  induction credits generalizing coins with
  | nil => exact h
  | cons inp credits ih =>
      refine ih ?_
      unfold credit
      split
      · exact h
      case isFalse hNew => exact Table.lookup_insert_of_lookup hNew _ h

theorem lookup_credits_of_new {credits : List Input}
    (hNodup : (credits.map Input.prevout).Nodup)
    (hNew : ∀ inp ∈ credits, inp.prevout ∉ coins.utxosSet) {inp : Input} (hInp : inp ∈ credits) :
    (credits.foldl credit coins).utxosSet.lookup inp.prevout = some inp.prevoutData := by
  induction credits generalizing coins with
  | nil => cases hInp
  | cons first credits ih =>
      obtain ⟨hFirst, hRest⟩ := List.forall_mem_cons.mp hNew
      rw [List.map_cons, List.nodup_cons] at hNodup
      rcases List.mem_cons.mp hInp with rfl | hLater
      · have hCredit : coins.credit inp = _ := if_neg hFirst
        rw [List.foldl_cons, hCredit]
        exact lookup_credits (Finmap.lookup_insert _)
      · exact ih hNodup.2 (new_of_credit hNodup.1 hRest) hLater

theorem mem_queue_credits {credits : List Input} {inp : Input}
    (h : inp ∈ (credits.foldl Coins.credit coins).spendQueue) :
    inp ∈ coins.spendQueue ∨ inp ∈ credits := by
  induction credits generalizing coins with
  | nil => exact Or.inl h
  | cons first credits ih =>
      rcases ih h with hOld | hNew
      · unfold Coins.credit at hOld
        split at hOld
        · exact Or.inl hOld
        · rcases List.mem_append.mp hOld with hOld | hFirst
          · exact Or.inl hOld
          · exact Or.inr (List.mem_cons.mpr (Or.inl (List.mem_singleton.mp hFirst)))
      · exact Or.inr (List.mem_cons_of_mem _ hNew)

/-- Confirmations leave the seeded coins as they are. -/
theorem updateBalance_frame (coins : Coins) (credits debits : List Input) :
    ∃ balance utxos queue, coins.updateBalance credits debits =
      { coins with mBalance := balance, utxosSet := utxos, spendQueue := queue } := by
  have hCredits : ∃ balance utxos queue, credits.foldl credit coins =
      { coins with mBalance := balance, utxosSet := utxos, spendQueue := queue } := by
    induction credits generalizing coins with
    | nil => exact ⟨_, _, _, rfl⟩
    | cons inp credits ih =>
        obtain ⟨balance, utxos, queue, hRest⟩ := ih (coins.credit inp)
        refine ⟨balance, utxos, queue, ?_⟩
        rw [List.foldl_cons, hRest, credit]
        split <;> rfl
  obtain ⟨balance, utxos, queue, hCredits⟩ := hCredits
  rw [updateBalance, hCredits]
  clear hCredits
  induction debits generalizing balance utxos queue with
  | nil => exact ⟨_, _, _, rfl⟩
  | cons inp debits ih =>
      rw [List.foldl_cons, debit]
      split
      · exact ih _ _ _
      · exact ih _ _ _

theorem mem_utxosSet_updateBalance {credits debits : List Input} {outPoint : OutPoint}
    (h : outPoint ∈ (coins.updateBalance credits debits).utxosSet) :
    outPoint ∈ credits.map Input.prevout ∨ outPoint ∈ coins.utxosSet := by
  rw [← mem_credits]
  obtain ⟨found, hFound⟩ := Finmap.mem_iff.mp h
  rw [updateBalance, (debits_spec _ debits).2] at hFound
  split at hFound
  · cases hFound
  · exact Finmap.mem_iff.mpr ⟨found, hFound⟩

theorem mem_spendable_updateBalance {credits debits : List Input} {inp : Input}
    (h : inp ∈ (coins.updateBalance credits debits).spendable crypto) :
    inp ∈ coins.spendable crypto ∨ inp ∈ credits := by
  rcases List.mem_append.mp h with hSeeded | hQueued
  · obtain ⟨balance, utxos, queue, hFrame⟩ := coins.updateBalance_frame credits debits
    rw [hFrame] at hSeeded
    exact Or.inl (List.mem_append_left _ hSeeded)
  · rw [updateBalance, (debits_spec _ debits).1] at hQueued
    exact (mem_queue_credits hQueued).imp_left (List.mem_append_right _)

theorem Listed.mem_spendable (h : Listed coins) (crypto : Crypto) {outPoint : OutPoint}
    (hHeld : outPoint ∈ coins.utxosSet) :
    outPoint ∈ (coins.spendable crypto).map Input.prevout := by
  rw [spendable, List.map_append]
  exact List.mem_append_right _ ((h.mem_set outPoint).mp hHeld)

/-- New coins are credited and nothing is debited: they can be spent then, and the
balance grows by their values. -/
theorem Agrees.confirmed (h : Agrees coins) {credits debits : List Input}
    (hNodup : (credits.map Input.prevout).Nodup)
    (hNew : ∀ inp ∈ credits, inp.prevout ∉ coins.utxosSet)
    (hDebits : ∀ inp ∈ debits,
      inp.prevout ∉ coins.utxosSet ∧ inp.prevout ∉ credits.map Input.prevout) (crypto : Crypto) :
    Agrees (coins.updateBalance credits debits) ∧
      (coins.updateBalance credits debits).spendable crypto = coins.spendable crypto ++ credits ∧
      (coins.updateBalance credits debits).balance = coins.balance + sumValues credits := by
  have hKept : coins.updateBalance credits debits = credits.foldl Coins.credit coins := by
    refine debits_of_not_held fun inp hInp hHeld => ?_
    rcases (mem_credits coins credits inp.prevout).mp hHeld with hCredit | hOld
    · exact (hDebits inp hInp).2 hCredit
    · exact (hDebits inp hInp).1 hOld
  obtain ⟨utxos, hCredits⟩ := credits_of_new hNodup hNew
  rw [hKept]
  refine ⟨h.credits credits, ?_, ?_⟩
  · rw [hCredits, spendable, spendable, List.append_assoc]
    rfl
  · rw [hCredits, balance_eq, balance_eq, add_right_comm]

end Coins

namespace Wallet

variable {crypto : Crypto} {wallet : Wallet crypto} {tx : FullTx} {inp : Input}

def Owns (wallet : Wallet crypto) (out : Output) : Prop :=
  out.witnessProgramCommitment ∈ wallet.keys.witnessPrograms

instance (wallet : Wallet crypto) (out : Output) : Decidable (wallet.Owns out) :=
  inferInstanceAs (Decidable (_ ∈ wallet.keys.witnessPrograms))

theorem isSpendable_iff : wallet.keys.isSpendable inp = true ↔ wallet.Owns inp.prevoutData :=
  decide_eq_true_iff

theorem mem_newUtxos : inp ∈ wallet.newUtxos tx ↔
    ∃ i out, tx.outputs[i]? = some out ∧ wallet.Owns out ∧
      inp = ⟨⟨txId crypto tx, UInt64.ofNat i⟩, out⟩ := by
  simp only [newUtxos, List.mem_filterMap, List.mem_range, inputFromOutput,
    Option.filter_eq_some_iff, Option.map_eq_some_iff, isSpendable_iff]
  constructor
  · rintro ⟨i, _, ⟨out, hOut, rfl⟩, hOwned⟩
    exact ⟨i, out, hOut, hOwned, rfl⟩
  · rintro ⟨i, out, hOut, hOwned, rfl⟩
    exact ⟨i, (List.getElem?_eq_some_iff.mp hOut).1, ⟨out, hOut, rfl⟩, hOwned⟩

theorem nodup_newUtxos (hSize : tx.outputs.length ≤ 2 ^ 64) :
    ((wallet.newUtxos tx).map Input.prevout).Nodup := by
  have hPrevout : ∀ {i inp}, (inputFromOutput crypto tx i).filter wallet.keys.isSpendable =
      some inp → inp.prevout = ⟨txId crypto tx, UInt64.ofNat i⟩ := by
    intro i inp hInp
    obtain ⟨hInput, _⟩ := Option.filter_eq_some_iff.mp hInp
    obtain ⟨out, _, rfl⟩ := Option.map_eq_some_iff.mp hInput
    rfl
  rw [List.Nodup, List.pairwise_map, newUtxos, List.pairwise_filterMap]
  refine List.nodup_range.imp_of_mem ?_
  intro i j hI hJ hNe first hFirst second hSecond hSame
  rw [hPrevout hFirst, hPrevout hSecond, OutPoint.mk.injEq] at hSame
  rw [List.mem_range] at hI hJ
  exact hNe (Coins.ofNat_inj_of_lt (by omega) (by omega) hSame.2)

theorem sumValues_filterMap (f : Nat → Option Input) (indices : List Nat) :
    sumValues (indices.filterMap f) =
      (indices.map fun i => (f i).elim 0 fun inp => inp.prevoutData.value).sum := by
  induction indices with
  | nil => rfl
  | cons i indices ih =>
      cases hNext : f i with
      | none => simp [hNext, ih]
      | some inp => simp [hNext, ih]

/-- A wallet is credited with the outputs that it owns. -/
theorem sumValues_newUtxos (wallet : Wallet crypto) (tx : FullTx) :
    sumValues (wallet.newUtxos tx) =
      (tx.outputs.map fun out => if wallet.Owns out then out.value else 0).sum := by
  rw [newUtxos, sumValues_filterMap]
  congr 1
  apply List.ext_getElem (by simp)
  intro i hI _
  rw [List.length_map, List.length_range] at hI
  simp only [List.getElem_map, List.getElem_range, inputFromOutput, List.getElem?_eq_getElem hI,
    Option.map_some, Option.filter_some]
  by_cases hOwned : wallet.Owns tx.outputs[i]
  · rw [if_pos (isSpendable_iff.mpr hOwned), if_pos hOwned]
    rfl
  · rw [if_neg (fun hKnown => hOwned (isSpendable_iff.mp hKnown)), if_neg hOwned]
    rfl

@[simp] theorem outputs_signIf (signing : Signing) (keys : KeyStore crypto) (signTx : Bool)
    (tx : FullTx) : (signIf signing keys signTx tx).outputs = tx.outputs := by
  cases signTx <;> rfl

def SpendCall.payee : SpendCall → PubKey
  | .sendTo _ payee _ _ => payee
  | .fan _ _ payee _ _ => payee
  | .sendToCounts _ _ payee _ => payee

/-- What the source asserts of the counts. -/
def SpendCall.HasCounts : SpendCall → Prop
  | .sendTo _ _ _ _ => True
  | .fan _ _ _ _ _ => True
  | .sendToCounts inputCount outputCount _ _ => 0 < inputCount.toNat ∧ 0 < outputCount.toNat

instance : (call : SpendCall) → Decidable call.HasCounts
  | .sendTo _ _ _ _ => isTrue trivial
  | .fan _ _ _ _ _ => isTrue trivial
  | .sendToCounts _ _ _ _ => inferInstanceAs (Decidable (_ ∧ _))

section Outputs

variable {signing : Signing} {keys : KeyStore crypto} {totalAmount amount : UInt64}

theorem sumOutputs_append (first second : List Output) :
    sumOutputs (first ++ second) = sumOutputs first + sumOutputs second := by
  simp [sumOutputs]

theorem sumOutputs_replicate (count : Nat) (out : Output) :
    sumOutputs (List.replicate count out) = UInt64.ofNat count * out.value := by
  induction count with
  | zero => exact (zero_mul out.value).symm
  | succ count ih =>
      have hSum : sumOutputs (List.replicate (count + 1) out) =
          out.value + sumOutputs (List.replicate count out) := rfl
      rw [hSum, ih, Coins.ofNat_succ_mul, add_comm]

/-- The change is what is left of the total. -/
theorem sumOutputs_withChange (signing : Signing) (keys : KeyStore crypto)
    (draw : KeyStore.KeyDraw) (h : amount ≤ totalAmount) :
    sumOutputs (withChange signing keys draw totalAmount amount).2 = totalAmount - amount := by
  unfold withChange
  split
  · exact add_zero _
  case isFalse hNone =>
      rw [UInt64.le_antisymm h (UInt64.not_lt.mp hNone), sub_self]
      rfl

/-- The outputs of a call add up to the total of its inputs. -/
theorem sumOutputs_pay {coins : Coins} {seeds queued : Nat} {call : SpendCall}
    (hCounts : call.HasCounts) (hCovered : call.Covered crypto coins seeds queued)
    (signing : Signing) (keys : KeyStore crypto) :
    sumOutputs (pay signing keys (sumValues (coins.spentInputs crypto seeds queued)) call).2 =
      sumValues (coins.spentInputs crypto seeds queued) := by
  cases call with
  | sendTo amount payee signTx draw =>
      have hSum : ∀ change, sumOutputs (payTo crypto payee amount.toUInt64 :: change) =
          amount.toUInt64 + sumOutputs change := fun _ => rfl
      simp only [pay]
      rw [hSum, sumOutputs_withChange signing keys draw hCovered, add_sub_cancel]
  | fan outputCount value payee signTx draw =>
      simp only [pay]
      rw [sumOutputs_append, sumOutputs_withChange signing keys draw hCovered,
        sumOutputs_replicate, UInt64.ofNat_toNat]
      exact sub_add_cancel _ _
  | sendToCounts inputCount outputCount payee signTx =>
      obtain ⟨count, hCount⟩ := Nat.exists_eq_add_of_le' hCounts.2
      simp only [pay]
      rw [hCount, Coins.splitAmount_succ, List.map_append, List.map_replicate, sumOutputs_append,
        sumOutputs_replicate]
      simp [sumOutputs, payTo]

/-- They are locked to the key that the call names or to a key of the wallet. -/
theorem owner_of_pay {call : SpendCall} {out : Output}
    (h : out ∈ (pay signing keys totalAmount call).2) :
    out.witnessProgramCommitment = getP2pkWitnessCommitment crypto call.payee ∨
      out.witnessProgramCommitment ∈ (pay signing keys totalAmount call).1.witnessPrograms := by
  have hChange : ∀ {draw amount},
      out ∈ (withChange signing keys draw totalAmount amount).2 → out.witnessProgramCommitment ∈
        (withChange signing keys draw totalAmount amount).1.witnessPrograms := by
    intro draw amount hOut
    by_cases hRest : totalAmount > amount
    · simp only [withChange, if_pos hRest, List.mem_singleton] at hOut ⊢
      rw [hOut]
      exact KeyStore.committed _ _ (KeyStore.generateKey_owned signing keys draw)
    · simp only [withChange, if_neg hRest, List.not_mem_nil] at hOut
  cases call with
  | sendTo amount payee signTx draw =>
      rcases List.mem_cons.mp h with rfl | hRest
      · exact Or.inl rfl
      · exact Or.inr (hChange hRest)
  | fan outputCount value payee signTx draw =>
      rcases List.mem_append.mp h with hRest | hPaid
      · exact Or.inr (hChange hRest)
      · rw [(List.mem_replicate.mp hPaid).2]
        exact Or.inl rfl
  | sendToCounts inputCount outputCount payee signTx =>
      obtain ⟨value, _, rfl⟩ := List.mem_map.mp h
      exact Or.inl rfl

end Outputs

end Wallet
end OpenCbdc

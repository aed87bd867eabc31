import OpenCbdc.Transaction.UhsId
import OpenCbdc.Wallet.Bookkeeping

/-! The transactions that a wallet makes and signs are valid: what it pays and what it
keeps is what it spends, and every input is signed by its owner. -/
namespace OpenCbdc

open Validation

namespace Coins

theorem toNat_ofNat_mul {n : Nat} {value : UInt64} (h : n * value.toNat < 2 ^ 64) :
    (UInt64.ofNat n * value).toNat = n * value.toNat := by
  rw [UInt64.toNat_mul, UInt64.toNat_ofNat', Nat.mod_mul_mod, Nat.mod_eq_of_lt h]

theorem ofNat_inj_of_lt {i j : Nat} (hI : i < 2 ^ 64) (hJ : j < 2 ^ 64)
    (h : UInt64.ofNat i = UInt64.ofNat j) : i = j := by
  have hNat := congrArg UInt64.toNat h
  rwa [UInt64.toNat_ofNat_of_lt' hI, UInt64.toNat_ofNat_of_lt' hJ] at hNat

theorem splitAmount_succ (outputVal : UInt64) (count : Nat) (totalAmount : UInt64) :
    splitAmount outputVal (count + 1) totalAmount =
      List.replicate count outputVal ++ [totalAmount - UInt64.ofNat count * outputVal] := by
  induction count generalizing totalAmount with
  | zero =>
      have hZero : UInt64.ofNat 0 * outputVal = 0 := zero_mul outputVal
      rw [splitAmount, hZero, sub_zero]
      rfl
  | succ count ih =>
      have hNext : totalAmount - outputVal - UInt64.ofNat count * outputVal =
          totalAmount - UInt64.ofNat (count + 1) * outputVal := by
        rw [ofNat_succ_mul, sub_sub, add_comm outputVal]
      rw [splitAmount, ih, hNext, List.replicate_succ, List.cons_append]

/-- A total that suffices for the outputs is divided without a rest, and no output is
empty. -/
theorem splitAmount_spec {totalAmount outputCount : UInt64} (hCount : 1 ≤ outputCount.toNat)
    (hTotal : 1 ≤ totalAmount.toNat)
    (hEnough : ¬(totalAmount / outputCount = 0 ∧ 1 < outputCount)) :
    ((splitAmount (totalAmount / outputCount) outputCount.toNat totalAmount).map
        UInt64.toNat).sum = totalAmount.toNat ∧
      (splitAmount (totalAmount / outputCount) outputCount.toNat totalAmount).length =
        outputCount.toNat ∧
      ∀ value ∈ splitAmount (totalAmount / outputCount) outputCount.toNat totalAmount,
        1 ≤ value.toNat := by
  obtain ⟨count, hSucc⟩ := Nat.exists_eq_add_of_le' hCount
  have hVal : (totalAmount / outputCount).toNat = totalAmount.toNat / (count + 1) := by
    rw [UInt64.toNat_div, hSucc]
  have hShare : (count + 1) * (totalAmount / outputCount).toNat ≤ totalAmount.toNat := by
    rw [hVal]
    exact Nat.mul_div_le _ _
  have hFits := totalAmount.toNat_lt
  have hBefore : (UInt64.ofNat count * (totalAmount / outputCount)).toNat =
      count * (totalAmount / outputCount).toNat := toNat_ofNat_mul (by lia)
  have hLast : (totalAmount - UInt64.ofNat count * (totalAmount / outputCount)).toNat =
      totalAmount.toNat - count * (totalAmount / outputCount).toNat := by
    rw [UInt64.toNat_sub_of_le, hBefore]
    rw [UInt64.le_iff_toNat_le, hBefore]
    lia
  rw [hSucc, splitAmount_succ]
  refine ⟨?_, by simp, ?_⟩
  · rw [List.map_append, List.map_replicate, List.sum_append_nat, List.sum_replicate_nat,
      List.map_singleton, List.sum_singleton, hLast]
    lia
  · intro value hValue
    rcases List.mem_append.mp hValue with hShared | hRest
    · obtain ⟨hSome, rfl⟩ := List.mem_replicate.mp hShared
      have hMany : 1 < outputCount := by
        rw [UInt64.lt_iff_toNat_lt, hSucc]
        exact Nat.succ_lt_succ (Nat.pos_of_ne_zero hSome)
      rw [Nat.one_le_iff_ne_zero, ← UInt64.toNat_zero, ne_eq, UInt64.toNat_inj]
      exact fun hZero => hEnough ⟨hZero, hMany⟩
    · rw [List.mem_singleton.mp hRest, hLast]
      rcases Nat.eq_zero_or_pos (totalAmount / outputCount).toNat with hZero | hPositive
      · rw [hZero]
        omega
      · lia

end Coins

namespace Wallet

variable {crypto : Crypto}

/-- The change is one output with the rest, locked to a key of the wallet, or nothing
if there is no rest. -/
def Change (keys : KeyStore crypto) (rest : Nat) (change : List Output) : Prop :=
  if rest = 0 then change = []
  else ∃ pubkey ∈ keys.keys, ∃ value : UInt64, value.toNat = rest ∧
    change = [payTo crypto pubkey value]

/-- What the caller asks for: the amount, so many outputs of a value, or the whole total
in so many outputs. -/
def SpendCall.Paid (keys : KeyStore crypto) (total : Nat) (outputs : List Output) :
    SpendCall → Prop
  | .sendTo amount payee _ _ => ∃ change,
      outputs = payTo crypto payee amount.toUInt64 :: change ∧ amount.toNat ≤ total ∧
        Change keys (total - amount.toNat) change
  | .fan outputCount value payee _ _ => ∃ change,
      outputs = change ++ List.replicate outputCount.toNat (payTo crypto payee value.toUInt64) ∧
        outputCount.toNat * value.toNat ≤ total ∧
        Change keys (total - outputCount.toNat * value.toNat) change
  | .sendToCounts _ outputCount payee _ => outputs.length = outputCount.toNat ∧
      (∀ out ∈ outputs, out.witnessProgramCommitment = getP2pkWitnessCommitment crypto payee) ∧
      (outputs.map fun out => out.value.toNat).sum = total

/-- The calls that the transactions are asked for with, each with its bounds. -/
def SpendCall.Proper : SpendCall → Prop
  | .sendTo amount _ signTx _ => 1 ≤ amount.toNat ∧ signTx = true
  | .fan outputCount value _ signTx _ =>
      1 ≤ outputCount.toNat ∧ outputCount.toNat < 2 ^ 32 ∧ 1 ≤ value.toNat ∧ signTx = true
  | .sendToCounts inputCount outputCount _ signTx =>
      1 ≤ inputCount.toNat ∧ 1 ≤ outputCount.toNat ∧ signTx = true

section Outputs

theorem withChange_change (signing : Signing) (keys : KeyStore crypto) (draw : KeyStore.KeyDraw)
    {totalAmount amount : UInt64} (h : amount ≤ totalAmount) :
    Change (withChange signing keys draw totalAmount amount).1
      (totalAmount.toNat - amount.toNat) (withChange signing keys draw totalAmount amount).2 := by
  have hLe : amount.toNat ≤ totalAmount.toNat := UInt64.le_iff_toNat_le.mp h
  unfold withChange
  split
  case isTrue hRest =>
      have hLt : amount.toNat < totalAmount.toNat := UInt64.lt_iff_toNat_lt.mp hRest
      rw [Change, if_neg (by omega)]
      exact ⟨_, KeyStore.generateKey_owned signing keys draw, _, UInt64.toNat_sub_of_le _ _ h, rfl⟩
  case isFalse hNone =>
      have hGe : ¬amount.toNat < totalAmount.toNat := fun hLt =>
        hNone (UInt64.lt_iff_toNat_lt.mpr hLt)
      rw [Change, if_pos (by omega)]

theorem withChange_extends (signing : Signing) (keys : KeyStore crypto) (draw : KeyStore.KeyDraw)
    (totalAmount amount : UInt64) :
    KeyStore.Extends keys (withChange signing keys draw totalAmount amount).1 := by
  unfold withChange
  split
  · exact KeyStore.generateKey_extends signing keys draw
  · exact KeyStore.Extends.refl keys

theorem pay_extends (signing : Signing) (keys : KeyStore crypto) (totalAmount : UInt64)
    (call : SpendCall) : KeyStore.Extends keys (pay signing keys totalAmount call).1 := by
  cases call with
  | sendTo => exact withChange_extends ..
  | fan => exact withChange_extends ..
  | sendToCounts => exact KeyStore.Extends.refl keys

variable {signing : Signing} {keys : KeyStore crypto} {totalAmount : UInt64}

/-- The outputs of change are positive and add up to the rest. -/
theorem Change.spec {rest : Nat} {change : List Output} (h : Change keys rest change) :
    (∀ out ∈ change, 1 ≤ out.value.toNat) ∧
      (change.map fun out => out.value.toNat).sum = rest := by
  unfold Change at h
  split at h
  case isTrue hNone => simp [h, hNone]
  case isFalse hSome =>
      obtain ⟨pubkey, _, value, hValue, rfl⟩ := h
      simp only [List.forall_mem_singleton, payTo, List.map_singleton, List.sum_singleton]
      omega

/-- There are outputs, none is empty, and they add up to a total. -/
structure Divides (total : Nat) (outputs : List Output) : Prop where
  ne_nil : outputs ≠ []
  positive : ∀ out ∈ outputs, 1 ≤ out.value.toNat
  sum : (outputs.map fun out => out.value.toNat).sum = total

theorem pay_sendTo {amount : UInt32} (hAmount : 1 ≤ amount.toNat)
    (hCovered : amount.toUInt64 ≤ totalAmount) (payee : PubKey) (signTx : Bool)
    (draw : KeyStore.KeyDraw) :
    let paid := pay signing keys totalAmount (.sendTo amount payee signTx draw)
    SpendCall.Paid paid.1 totalAmount.toNat paid.2 (.sendTo amount payee signTx draw) ∧
      Divides totalAmount.toNat paid.2 := by
  have hWide : amount.toUInt64.toNat = amount.toNat := UInt32.toNat_toUInt64 amount
  have hLe : amount.toUInt64.toNat ≤ totalAmount.toNat := UInt64.le_iff_toNat_le.mp hCovered
  have hChange := withChange_change signing keys draw hCovered
  obtain ⟨hPositive, hSum⟩ := hChange.spec
  rw [hWide] at hLe hChange hSum
  refine ⟨⟨_, rfl, hLe, hChange⟩, List.cons_ne_nil _ _, ?_, ?_⟩
  · exact List.forall_mem_cons.mpr ⟨hWide ▸ hAmount, hPositive⟩
  · simp only [pay, List.map_cons, List.sum_cons, payTo, hWide]
    omega

/-- The product of two numbers of 32 bits fits in 64 bits. -/
theorem toNat_fanAmount {outputCount : UInt64} (hBound : outputCount.toNat < 2 ^ 32)
    (value : UInt32) :
    (outputCount * value.toUInt64).toNat = outputCount.toNat * value.toNat := by
  rw [UInt64.toNat_mul, UInt32.toNat_toUInt64]
  refine Nat.mod_eq_of_lt ?_
  calc outputCount.toNat * value.toNat
      < 2 ^ 32 * 2 ^ 32 :=
        Nat.mul_lt_mul_of_lt_of_le hBound (Nat.le_of_lt value.toNat_lt) (by decide)
    _ = 2 ^ 64 := by decide

theorem pay_fan {outputCount : UInt64} {value : UInt32} (hCount : 1 ≤ outputCount.toNat)
    (hBound : outputCount.toNat < 2 ^ 32) (hValue : 1 ≤ value.toNat)
    (hCovered : outputCount * value.toUInt64 ≤ totalAmount) (payee : PubKey) (signTx : Bool)
    (draw : KeyStore.KeyDraw) :
    let paid := pay signing keys totalAmount (.fan outputCount value payee signTx draw)
    SpendCall.Paid paid.1 totalAmount.toNat paid.2 (.fan outputCount value payee signTx draw) ∧
      Divides totalAmount.toNat paid.2 := by
  have hWide : value.toUInt64.toNat = value.toNat := UInt32.toNat_toUInt64 value
  have hProduct := toNat_fanAmount hBound value
  have hLe : (outputCount * value.toUInt64).toNat ≤ totalAmount.toNat :=
    UInt64.le_iff_toNat_le.mp hCovered
  have hChange := withChange_change signing keys draw hCovered
  obtain ⟨hPositive, hSum⟩ := hChange.spec
  rw [hProduct] at hLe hChange hSum
  refine ⟨⟨_, rfl, hLe, hChange⟩, ?_, ?_, ?_⟩
  · intro hNil
    have hNone := congrArg List.length hNil
    simp only [pay, List.length_append, List.length_replicate, List.length_nil] at hNone
    omega
  · intro out hOut
    rcases List.mem_append.mp hOut with hRest | hPaid
    · exact hPositive out hRest
    · rw [(List.mem_replicate.mp hPaid).2]
      exact hWide ▸ hValue
  · simp only [pay, List.map_append, List.map_replicate, List.sum_append_nat,
      List.sum_replicate_nat, payTo, hWide]
    omega

theorem pay_sendToCounts {outputCount : UInt64} (hCount : 1 ≤ outputCount.toNat)
    (hTotal : 1 ≤ totalAmount.toNat) (hEnough : ¬(totalAmount / outputCount = 0 ∧ 1 < outputCount))
    (inputCount : UInt64) (payee : PubKey) (signTx : Bool) :
    let paid := pay signing keys totalAmount (.sendToCounts inputCount outputCount payee signTx)
    SpendCall.Paid paid.1 totalAmount.toNat paid.2
        (.sendToCounts inputCount outputCount payee signTx) ∧
      Divides totalAmount.toNat paid.2 := by
  obtain ⟨hSum, hLength, hPositive⟩ := Coins.splitAmount_spec hCount hTotal hEnough
  have hOutputs : ∀ values : List UInt64,
      ((values.map (payTo crypto payee)).map fun out => out.value.toNat) =
        values.map UInt64.toNat := by
    intro values
    rw [List.map_map]
    rfl
  refine ⟨⟨?_, ?_, ?_⟩, ?_, ?_, ?_⟩
  · exact (List.length_map _).trans hLength
  · intro out hOut
    obtain ⟨value, _, rfl⟩ := List.mem_map.mp hOut
    rfl
  · exact (congrArg List.sum (hOutputs _)).trans hSum
  · intro hNil
    rw [List.map_eq_nil_iff.mp hNil, List.length_nil] at hLength
    omega
  · intro out hOut
    obtain ⟨value, hValue, rfl⟩ := List.mem_map.mp hOut
    exact hPositive value hValue
  · exact (congrArg List.sum (hOutputs _)).trans hSum

/-- What a call pays, given coins that cover it. -/
theorem pay_paid {coins : Coins} {seeds queued : Nat} {call : SpendCall} (hProper : call.Proper)
    (hCovered : call.Covered crypto coins seeds queued)
    (hTotal : 1 ≤ (sumValues (coins.spentInputs crypto seeds queued)).toNat) :
    let total := sumValues (coins.spentInputs crypto seeds queued)
    let paid := pay signing keys total call
    call.Paid paid.1 total.toNat paid.2 ∧ Divides total.toNat paid.2 := by
  cases call with
  | sendTo amount payee signTx draw => exact pay_sendTo hProper.1 hCovered payee signTx draw
  | fan outputCount value payee signTx draw =>
      exact pay_fan hProper.1 hProper.2.1 hProper.2.2.1 hCovered payee signTx draw
  | sendToCounts inputCount outputCount payee signTx =>
      exact pay_sendToCounts hProper.2.1 hTotal hCovered.2.2 inputCount payee signTx

end Outputs

section Signed

variable {signing : Signing} {keys : KeyStore crypto}

/-- Signatures that are made with a key pair verify under its public key. -/
def Verifies (crypto : Crypto) (signing : Signing) (key : PubKey × PrivKey) : Prop :=
  ∃ pubkey, crypto.xonlyPubkeyParse key.1 = some pubkey ∧
    ∀ sighash, crypto.schnorrsigVerify (signing.schnorrsigSign sighash key.2) sighash pubkey = true

/-- A signature of the key that an input is locked to authorizes its spending. -/
theorem witnessOf_authorizes {tx : FullTx} {inp : Input} {key : PubKey × PrivKey}
    (hCommitment : getP2pkWitnessCommitment crypto key.1 =
      inp.prevoutData.witnessProgramCommitment) (hVerifies : Verifies crypto signing key) :
    Authorizes crypto tx inp (KeyStore.witnessOf signing (txId crypto tx) key) := by
  obtain ⟨pubkey, hParse, hVerify⟩ := hVerifies
  have hKey : key.1.toList.length = 32 := Vector.length_toList
  have hSig : (signing.schnorrsigSign (txId crypto tx) key.2).toList.length = 64 :=
    Vector.length_toList
  refine ⟨?_, rfl, ?_, key.1, _, pubkey, ?_, ?_, hParse, hVerify (txId crypto tx)⟩
  · simp [KeyStore.witnessOf, p2pkWitnessLen, p2pkWitnessProgLen]
  · rw [← hCommitment, getP2pkWitnessCommitment]
    congr 1
    exact List.take_left' (by simp [p2pkWitnessProgLen])
  · exact (List.take_left' hKey).symm
  · exact (List.drop_left' (by simp [p2pkWitnessProgLen])).symm

theorem keyOf_spec {commitment : Hash} {key : PubKey × PrivKey}
    (h : keys.keyOf commitment = some key) :
    keys.keys.lookup key.1 = some key.2 ∧ getP2pkWitnessCommitment crypto key.1 = commitment := by
  simp only [KeyStore.keyOf, Option.bind_eq_some_iff, Option.map_eq_some_iff] at h
  obtain ⟨pubkey, hProgram, seckey, hKey, rfl⟩ := h
  exact ⟨hKey, (keys.owned commitment pubkey hProgram).2⟩

/-- Signing authorizes every input whose key is known. -/
theorem sign_witnesses {tx : FullTx} (hKeys : ∀ inp ∈ tx.inputs, ∃ key,
      keys.keyOf inp.prevoutData.witnessProgramCommitment = some key ∧
        Verifies crypto signing key) (idx : Nat) (inp : Input) (wit : List UInt8)
    (hInp : (keys.sign signing tx).inputs[idx]? = some inp)
    (hWit : (keys.sign signing tx).witness[idx]? = some wit) :
    Authorizes crypto (keys.sign signing tx) inp wit := by
  have hInput : tx.inputs[idx]? = some inp := hInp
  obtain ⟨key, hKey, hVerifies⟩ := hKeys inp (List.mem_of_getElem? hInput)
  have hWitness : wit = KeyStore.witnessOf signing (txId crypto (keys.sign signing tx)) key := by
    simp only [KeyStore.sign, List.getElem?_mapIdx, hInput, Option.map_some, Option.some.injEq,
      hKey] at hWit
    exact hWit.symm
  rw [hWitness]
  exact witnessOf_authorizes (keyOf_spec hKey).2 hVerifies

/-- A signed transaction is valid if it has distinct inputs with known keys, and its
outputs divide their total. -/
theorem valid_sign {tx : FullTx} (hInputs : tx.inputs ≠ [])
    (hNodup : (tx.inputs.map Input.prevout).Nodup)
    (hPositive : ∀ inp ∈ tx.inputs, 1 ≤ inp.prevoutData.value.toNat)
    (hFits : Coins.exactSum tx.inputs < 2 ^ 64)
    (hKeys : ∀ inp ∈ tx.inputs, ∃ key,
      keys.keyOf inp.prevoutData.witnessProgramCommitment = some key ∧ Verifies crypto signing key)
    (hDivides : Divides (Coins.exactSum tx.inputs) tx.outputs) :
    Valid crypto (keys.sign signing tx) where
  inputs_ne_nil := hInputs
  outputs_ne_nil := hDivides.ne_nil
  witness_count := List.length_mapIdx
  prevouts_nodup := hNodup
  inputs_positive := hPositive
  outputs_positive := hDivides.positive
  inputSum_lt := hFits
  balanced := hDivides.sum.symm
  witnesses := sign_witnesses hKeys

theorem exactSum_positive {inputs : List Input} (hInputs : inputs ≠ [])
    (hPositive : ∀ inp ∈ inputs, 1 ≤ inp.prevoutData.value.toNat) :
    1 ≤ Coins.exactSum inputs := by
  obtain ⟨inp, rest, rfl⟩ := List.exists_cons_of_ne_nil hInputs
  have hFirst := hPositive inp (List.mem_cons_self ..)
  have hSum : Coins.exactSum (inp :: rest) =
      inp.prevoutData.value.toNat + Coins.exactSum rest := rfl
  omega

end Signed

theorem SpendCall.Proper.signTx_eq {call : SpendCall} (h : call.Proper) : call.signTx = true := by
  cases call with
  | sendTo => exact h.2
  | fan => exact h.2.2.2
  | sendToCounts => exact h.2.2

/-- A wallet that can spend all its coins: they are worth something, they are locked to
its keys, and together with the seeded ones they have distinct out points and a total
that fits in 64 bits. -/
structure Ready (signing : Signing) (wallet : Wallet crypto) : Prop where
  listed : wallet.coins.Listed
  positive : ∀ inp ∈ wallet.coins.spendQueue, 1 ≤ inp.prevoutData.value.toNat
  owned : ∀ inp ∈ wallet.coins.spendQueue, ∃ pubkey ∈ wallet.keys.keys,
    getP2pkWitnessCommitment crypto pubkey = inp.prevoutData.witnessProgramCommitment
  seedPositive : wallet.coins.seedFrom ≠ wallet.coins.seedTo → 1 ≤ wallet.coins.seedValue.toNat
  seedOwned : wallet.coins.seedFrom ≠ wallet.coins.seedTo → ∃ pubkey ∈ wallet.keys.keys,
    getP2pkWitnessCommitment crypto pubkey = wallet.coins.seedWitnessCommitment
  total : Coins.exactSum wallet.coins.spendQueue +
    wallet.coins.seedsLeft * wallet.coins.seedValue.toNat < 2 ^ 64
  verifies : ∀ pubkey seckey, wallet.keys.keys.lookup pubkey = some seckey →
    Verifies crypto signing (pubkey, seckey)
  seedIds : Set.InjOn crypto.sha256 {bytes | ∃ i < wallet.coins.seedsLeft,
    bytes = txIdBytes (wallet.coins.seededTransaction (wallet.coins.seedFrom + UInt64.ofNat i))}
  seedsNew : ∀ i < wallet.coins.seedsLeft,
    (wallet.coins.seededInput crypto (wallet.coins.seedFrom + UInt64.ofNat i)).prevout ∉
      wallet.coins.utxosSet

section Ready

variable {signing : Signing} {wallet : Wallet crypto} {seeds queued : Nat}

theorem Ready.keyOf (h : wallet.Ready signing) {commitment : Hash}
    (hOwned : ∃ pubkey ∈ wallet.keys.keys, getP2pkWitnessCommitment crypto pubkey = commitment) :
    ∃ key, wallet.keys.keyOf commitment = some key ∧ Verifies crypto signing key := by
  obtain ⟨pubkey, hKey, rfl⟩ := hOwned
  obtain ⟨key, hKeyOf, hPair, _⟩ := KeyStore.exists_keyOf (wallet.keys.committed pubkey hKey)
  exact ⟨key, hKeyOf, h.verifies key.1 key.2 hPair⟩

/-- What holds of every coin that may be spent. -/
theorem Ready.of_mem_spentInputs (h : wallet.Ready signing)
    (hAvailable : wallet.coins.Available seeds queued) {inp : Input}
    (hIn : inp ∈ wallet.coins.spentInputs crypto seeds queued) :
    1 ≤ inp.prevoutData.value.toNat ∧
      ∃ key, wallet.keys.keyOf inp.prevoutData.witnessProgramCommitment = some key ∧
        Verifies crypto signing key := by
  rcases List.mem_append.mp hIn with hSeeded | hQueued
  · obtain ⟨i, hRange, rfl⟩ := List.mem_map.mp hSeeded
    have hLeft : wallet.coins.seedFrom ≠ wallet.coins.seedTo := by
      rw [ne_eq, ← Coins.seedsLeft_eq_zero_iff]
      have hLt := List.mem_range.mp hRange
      have hLe := hAvailable.seeds
      omega
    have hValue : wallet.coins.seedValue.toUInt64.toNat = wallet.coins.seedValue.toNat :=
      UInt32.toNat_toUInt64 _
    exact ⟨hValue ▸ h.seedPositive hLeft, h.keyOf (h.seedOwned hLeft)⟩
  · have hIn := List.mem_of_mem_take hQueued
    exact ⟨h.positive inp hIn, h.keyOf (h.owned inp hIn)⟩

theorem exactSum_append (first second : List Input) :
    Coins.exactSum (first ++ second) = Coins.exactSum first + Coins.exactSum second := by
  simp [Coins.exactSum]

theorem exactSum_seededInputs (coins : Coins) (seeds : Nat) :
    Coins.exactSum (coins.seededInputs crypto seeds) = seeds * coins.seedValue.toNat := by
  have hValues : (coins.seededInputs crypto seeds).map (fun inp => inp.prevoutData.value.toNat) =
      List.replicate seeds coins.seedValue.toNat := by
    refine List.eq_replicate_iff.mpr ⟨by simp [Coins.seededInputs], ?_⟩
    intro value hValue
    obtain ⟨inp, hInp, rfl⟩ := List.mem_map.mp hValue
    obtain ⟨i, _, rfl⟩ := List.mem_map.mp hInp
    exact UInt32.toNat_toUInt64 coins.seedValue
  rw [Coins.exactSum, hValues, List.sum_replicate_nat]

/-- No part of the coins has a total that does not fit in 64 bits. -/
theorem Ready.exactSum_lt (h : wallet.Ready signing)
    (hAvailable : wallet.coins.Available seeds queued) :
    Coins.exactSum (wallet.coins.spentInputs crypto seeds queued) < 2 ^ 64 := by
  have hQueue : Coins.exactSum (wallet.coins.spendQueue.take queued) ≤
      Coins.exactSum wallet.coins.spendQueue := by
    conv_rhs => rw [← wallet.coins.spendQueue.take_append_drop queued]
    rw [exactSum_append]
    exact Nat.le_add_right _ _
  have hSeeds : seeds * wallet.coins.seedValue.toNat ≤
      wallet.coins.seedsLeft * wallet.coins.seedValue.toNat :=
    Nat.mul_le_mul_right _ hAvailable.seeds
  have hTotal := h.total
  rw [Coins.spentInputs, exactSum_append, exactSum_seededInputs]
  omega

theorem Ready.toNat_sumValues (h : wallet.Ready signing)
    (hAvailable : wallet.coins.Available seeds queued) :
    (sumValues (wallet.coins.spentInputs crypto seeds queued)).toNat =
      Coins.exactSum (wallet.coins.spentInputs crypto seeds queued) := by
  rw [Coins.toNat_sumValues, Nat.mod_eq_of_lt (h.exactSum_lt hAvailable)]

theorem sized_seededTransaction (coins : Coins) (seedIdx : UInt64) :
    (coins.seededTransaction seedIdx).Sized := by
  simp [FullTx.Sized, Coins.seededTransaction]

/-- The index of a seeded coin can be read from the bytes of its transaction. -/
theorem seedIdx_inj {coins : Coins} {first second : UInt64}
    (h : txIdBytes (coins.seededTransaction first) = txIdBytes (coins.seededTransaction second)) :
    first = second := by
  obtain ⟨hInputs, _⟩ := txIdBytes_inj (sized_seededTransaction coins first)
    (sized_seededTransaction coins second) h
  simpa [Coins.seededTransaction] using hInputs

/-- Seeded coins of different indices come from different transactions. -/
theorem Ready.seeded_injective (h : wallet.Ready signing) {i j : Nat}
    (hi : i < wallet.coins.seedsLeft) (hj : j < wallet.coins.seedsLeft)
    (hSame : (wallet.coins.seededInput crypto (wallet.coins.seedFrom + UInt64.ofNat i)).prevout =
      (wallet.coins.seededInput crypto (wallet.coins.seedFrom + UInt64.ofNat j)).prevout) :
    i = j := by
  have hIds := congrArg OutPoint.txId hSame
  have hBytes := h.seedIds ⟨i, hi, rfl⟩ ⟨j, hj, rfl⟩ hIds
  have hLeft := wallet.coins.seedsLeft_lt
  exact Coins.ofNat_inj_of_lt (hi.trans hLeft) (hj.trans hLeft)
    (add_left_cancel (seedIdx_inj hBytes))

theorem Ready.prevouts_nodup (h : wallet.Ready signing)
    (hAvailable : wallet.coins.Available seeds queued) :
    ((wallet.coins.spentInputs crypto seeds queued).map Input.prevout).Nodup := by
  rw [Coins.spentInputs, List.map_append, List.nodup_append]
  refine ⟨?_, ?_, ?_⟩
  · rw [Coins.seededInputs, List.map_map]
    refine List.Nodup.map_on ?_ List.nodup_range
    intro i hi j hj hSame
    have hLe := hAvailable.seeds
    exact h.seeded_injective (Nat.lt_of_lt_of_le (List.mem_range.mp hi) hLe)
      (Nat.lt_of_lt_of_le (List.mem_range.mp hj) hLe) hSame
  · exact h.listed.nodup.sublist ((List.take_sublist _ _).map _)
  · rintro outPoint hSeeded other hQueued rfl
    obtain ⟨inp, hInp, rfl⟩ := List.mem_map.mp hSeeded
    obtain ⟨i, hRange, rfl⟩ := List.mem_map.mp hInp
    refine h.seedsNew i (Nat.lt_of_lt_of_le (List.mem_range.mp hRange) hAvailable.seeds) ?_
    rw [h.listed.mem_set]
    exact ((List.take_sublist _ _).map _).subset hQueued

/-- A call that asks for something takes at least one coin. -/
theorem Ready.spentInputs_ne_nil (h : wallet.Ready signing) {call : SpendCall}
    (hProper : call.Proper) (hAvailable : wallet.coins.Available seeds queued)
    (hCovered : call.Covered crypto wallet.coins seeds queued) :
    wallet.coins.spentInputs crypto seeds queued ≠ [] := by
  intro hNil
  cases call with
  | sendTo amount payee signTx draw =>
      have hLe : amount.toUInt64 ≤ sumValues (wallet.coins.spentInputs crypto seeds queued) :=
        hCovered
      rw [hNil, sumValues_nil, UInt64.le_iff_toNat_le, UInt32.toNat_toUInt64] at hLe
      exact absurd (Nat.le_trans hProper.1 hLe) (by decide)
  | fan outputCount value payee signTx draw =>
      obtain ⟨hCount, hBound, hValue, _⟩ := hProper
      have hLe : outputCount * value.toUInt64 ≤
          sumValues (wallet.coins.spentInputs crypto seeds queued) := hCovered
      rw [hNil, sumValues_nil, UInt64.le_iff_toNat_le, toNat_fanAmount hBound] at hLe
      exact absurd (Nat.le_trans (Nat.mul_le_mul hCount hValue) hLe) (by decide)
  | sendToCounts inputCount outputCount payee signTx =>
      obtain ⟨hStop, hSize, _⟩ := hCovered
      have hNone := hAvailable.length_spentInputs crypto
      rw [hNil, List.length_nil] at hNone
      rcases hStop with ⟨hSeeds, hQueue⟩ | hEnough
      · -- There are no coins at all, so the call has returned nothing.
        have hFrom := Coins.seedsLeft_eq_zero_iff.mp (show wallet.coins.seedsLeft = 0 by omega)
        have hCard : wallet.coins.utxosSet.entries.card = 0 := by
          rw [h.listed.card]
          omega
        rw [hCard, hFrom, add_sub_cancel_right, UInt64.lt_iff_toNat_lt] at hSize
        exact hSize hProper.1
      · exact absurd (Nat.le_trans hProper.1 hEnough) (by omega)

end Ready

/-- Every transaction that a call returns passes `check_tx`, and its outputs are what the
caller asks for, with the change if there is a rest. -/
theorem spend_valid (signing : Signing) (wallet after : Wallet crypto) (call : SpendCall)
    (tx : FullTx) (hReady : wallet.Ready signing) (hProper : call.Proper)
    (hSpend : wallet.spend signing call = (after, some tx)) :
    checkTx crypto tx = .ok none ∧ call.Paid after.keys (inputSum tx) tx.outputs := by
  rcases wallet.spend_cases signing call with
    hNone | ⟨seeds, queued, witness, hAvailable, hCovered, hSome⟩
  · rw [hNone] at hSpend
    cases hSpend
  · rw [hSome, Prod.mk.injEq, Option.some.injEq] at hSpend
    obtain ⟨rfl, rfl⟩ := hSpend
    have hInputs := hReady.spentInputs_ne_nil hProper hAvailable hCovered
    have hEach : ∀ inp ∈ wallet.coins.spentInputs crypto seeds queued, _ :=
      fun inp hIn => hReady.of_mem_spentInputs hAvailable hIn
    have hTotal := hReady.toNat_sumValues hAvailable
    have hPositive := exactSum_positive hInputs fun inp hIn => (hEach inp hIn).1
    obtain ⟨hPaid, hDivides⟩ := pay_paid hProper hCovered (hTotal.symm ▸ hPositive)
    rw [hTotal] at hPaid hDivides
    rw [signIf, hProper.signTx_eq, if_pos rfl]
    refine ⟨(checkTx_eq_none _ _).mpr (valid_sign hInputs (hReady.prevouts_nodup hAvailable)
      (fun inp hIn => (hEach inp hIn).1) (hReady.exactSum_lt hAvailable) ?_ hDivides), hPaid⟩
    intro inp hIn
    obtain ⟨key, hKey, hVerifies⟩ := (hEach inp hIn).2
    exact ⟨key, (pay_extends signing wallet.keys _ call).keyOf hKey, hVerifies⟩

/-- Primitives for fixed runs: a hash of one byte, and signatures that show the message
and the key. -/
def plainCrypto : Crypto :=
  { sha256 := fun bytes => .ofByte (bytes.foldl (fun hash byte => (hash ^^^ byte) * 31) 7)
    XonlyPubkey := PubKey
    xonlyPubkeyParse := some
    schnorrsigVerify := fun sig sighash pubkey => decide (sig = sighash ++ pubkey) }

def plainSigning : Signing :=
  { pubkeyFromPrivkey := id, schnorrsigSign := fun sighash seckey => sighash ++ seckey }

theorem plainSigning_verifies (key : PubKey) : Verifies plainCrypto plainSigning (key, key) :=
  ⟨key, rfl, fun _ => decide_eq_true rfl⟩

def plainKey (byte : UInt8) : Vector UInt8 32 := (Vector.replicate 31 0).push byte

def partlySeeded : Wallet plainCrypto :=
  ((new plainCrypto).seed plainSigning (plainKey 1) 5 0 2).1.confirmInputs
    [⟨⟨.ofByte 9, 0⟩, payTo plainCrypto (plainKey 1) 3⟩]

theorem partlySeeded_ready : partlySeeded.Ready plainSigning where
  listed := ((agrees_seed plainSigning Coins.agrees_empty _ _ _ _).credits _).toListed
  positive := by decide +kernel
  owned := by
    have hCoin : ∀ inp ∈ partlySeeded.coins.spendQueue,
        getP2pkWitnessCommitment plainCrypto (plainKey 1) =
          inp.prevoutData.witnessProgramCommitment := by
      decide +kernel
    exact fun inp hIn => ⟨plainKey 1, by decide +kernel, hCoin inp hIn⟩
  seedPositive := by decide +kernel
  seedOwned _ := ⟨plainKey 1, by decide +kernel, by decide +kernel⟩
  total := by decide +kernel
  verifies pubkey seckey h := by
    have hKeys : partlySeeded.keys.keys =
        (∅ : Finmap fun _ : PubKey => PrivKey).insert (plainKey 1) (plainKey 1) := by
      decide +kernel
    rw [hKeys] at h
    rcases Table.of_lookup_insert h with ⟨rfl, rfl⟩ | ⟨_, hNone⟩
    · exact plainSigning_verifies (plainKey 1)
    · cases hNone
  seedIds := by
    have hDistinct : ∀ i < 2, ∀ j < 2,
        plainCrypto.sha256 (txIdBytes (partlySeeded.coins.seededTransaction
          (partlySeeded.coins.seedFrom + UInt64.ofNat i))) =
        plainCrypto.sha256 (txIdBytes (partlySeeded.coins.seededTransaction
          (partlySeeded.coins.seedFrom + UInt64.ofNat j))) → i = j := by
      decide +kernel
    have hLeft : partlySeeded.coins.seedsLeft = 2 := by decide +kernel
    rw [hLeft]
    rintro _ ⟨i, hi, rfl⟩ _ ⟨j, hj, rfl⟩ hSame
    rw [hDistinct i hi j hj hSame]
  seedsNew := by decide +kernel

/-- The wallet pays 12 with all its coins. -/
theorem spend_valid_partlySeeded :
    ∃ after tx, partlySeeded.spend plainSigning
        (.sendTo 12 (plainKey 2) true ⟨plainKey 3, 0⟩) = (after, some tx) ∧
      checkTx plainCrypto tx = .ok none ∧
      (SpendCall.sendTo 12 (plainKey 2) true ⟨plainKey 3, 0⟩).Paid after.keys (inputSum tx)
        tx.outputs := by
  have hSome : (partlySeeded.spend plainSigning
      (.sendTo 12 (plainKey 2) true ⟨plainKey 3, 0⟩)).2.isSome = true := by
    decide +kernel
  obtain ⟨tx, hTx⟩ := Option.isSome_iff_exists.mp hSome
  refine ⟨_, tx, Prod.ext rfl hTx, ?_⟩
  exact spend_valid plainSigning partlySeeded _ _ tx partlySeeded_ready
    ⟨by decide, rfl⟩ (Prod.ext rfl hTx)

end Wallet
end OpenCbdc

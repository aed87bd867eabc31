import OpenCbdc.Library.Table
import OpenCbdc.Transaction.UhsId
import OpenCbdc.Transaction.Validation

/-! What UHS IDs are worth. The shards see hashes only. A compact transaction
that a shard or the atomizer accepts carries the signature of a sentinel, which
has checked the full transaction behind it, so the hashes stand for values that
balance. -/
namespace OpenCbdc

open Serialization

namespace CompactTx

/-- The bytes that `compact_tx::hash` hashes. -/
def hashBytes (tx : CompactTx) : List UInt8 :=
  putArray tx.id ++ putVector putArray tx.inputs ++ putVector putArray tx.uhsOutputs ++ putUInt64 0

/-- What `size()` of the two vectors can be. -/
def Sized (tx : CompactTx) : Prop := tx.inputs.length < 2 ^ 64 ∧ tx.uhsOutputs.length < 2 ^ 64

/-- Everything but the attestations can be read off the hashed bytes. -/
theorem hashBytes_inj {first second : CompactTx} (hFirst : first.Sized) (hSecond : second.Sized)
    (h : first.hashBytes = second.hashBytes) :
    first.id = second.id ∧ first.inputs = second.inputs ∧
      first.uhsOutputs = second.uhsOutputs := by
  simp only [hashBytes, List.append_assoc] at h
  obtain ⟨hId, hRest⟩ := List.append_inj h (by simp)
  obtain ⟨hInputs, hRest⟩ := putVector_append_inj length_putArray (putArray_injective 32)
    hFirst.1 hSecond.1 hRest
  obtain ⟨hOutputs, _⟩ := putVector_append_inj length_putArray (putArray_injective 32)
    hFirst.2 hSecond.2 hRest
  exact ⟨putArray_injective 32 hId, hInputs, hOutputs⟩

/-- The compact transaction is made from the full one, whatever its
attestations are. -/
structure Stands (crypto : Crypto) (ctx : CompactTx) (tx : FullTx) : Prop where
  id : ctx.id = txId crypto tx
  inputs : ctx.inputs = tx.inputs.map (Input.hash crypto)
  uhsOutputs : ctx.uhsOutputs = (ofFullTx crypto tx).uhsOutputs

end CompactTx

def FullTx.newCoins (crypto : Crypto) (tx : FullTx) : List Input :=
  tx.outputs.mapIdx fun i out => ⟨⟨txId crypto tx, UInt64.ofNat i⟩, out⟩

def FullTx.coins (crypto : Crypto) (tx : FullTx) : List Input := tx.inputs ++ tx.newCoins crypto

/-- Every ID that one of these transactions names is worth the value of its
coin. -/
def Appraises (crypto : Crypto) (worth : Hash → Nat) (txs : List FullTx) : Prop :=
  ∀ tx ∈ txs, ∀ coin ∈ tx.coins crypto, worth (coin.hash crypto) = coin.prevoutData.value.toNat

/-- What the keys of the sentinels have signed. A signature that verifies is one
over the compact form of a signed transaction. A signed transaction has passed
`check_tx`, unless it mints. None of the hashes that are taken collide. -/
structure Endorsed (crypto : Crypto) (opts : Options) (signed : List FullTx)
    (txs : List CompactTx) : Prop where
  threshold : 0 < opts.attestationThreshold
  checked : ∀ tx ∈ signed, tx.inputs ≠ [] → Validation.checkTx crypto tx = .ok none
  sized : ∀ tx ∈ signed, tx.Sized
  sizedCompact : ∀ ctx ∈ txs, ctx.Sized
  unforged : ∀ ctx ∈ txs, ∀ key ∈ opts.sentinelPublicKeys, ∀ signature,
    ctx.verify crypto key signature = true →
      ∃ tx ∈ signed, ctx.hash crypto = (CompactTx.ofFullTx crypto tx).hash crypto
  collisionFree : Set.InjOn crypto.sha256 {bytes |
    (∃ tx ∈ signed, bytes ∈ hashed crypto tx ∨ bytes = (CompactTx.ofFullTx crypto tx).hashBytes) ∨
      ∃ ctx ∈ txs, bytes = ctx.hashBytes}

section Coins

variable {crypto : Crypto} {tx : FullTx} {coin : Input}

theorem getElem?_newCoins (crypto : Crypto) (tx : FullTx) (i : Nat) :
    (tx.newCoins crypto)[i]? = inputFromOutput crypto tx i :=
  List.getElem?_mapIdx

theorem mem_coins :
    coin ∈ tx.coins crypto ↔ coin ∈ tx.inputs ∨ ∃ i, inputFromOutput crypto tx i = some coin := by
  simp only [FullTx.coins, List.mem_append, List.mem_iff_getElem? (l := tx.newCoins crypto),
    getElem?_newCoins]

/-- The bytes of every coin are among those that are hashed. -/
theorem putInput_mem_hashed (h : coin ∈ tx.coins crypto) : putInput coin ∈ hashed crypto tx := by
  rcases mem_coins.mp h with hInput | ⟨i, hOutput⟩
  · exact Or.inr (Or.inl ⟨coin, hInput, rfl⟩)
  · obtain ⟨out, hOut, rfl⟩ := Option.map_eq_some_iff.mp hOutput
    exact Or.inr (Or.inr ⟨i, out, hOut, rfl⟩)

/-- The IDs of the outputs are the hashes of the new coins. -/
theorem uhsOutputs_eq_map :
    (CompactTx.ofFullTx crypto tx).uhsOutputs = (tx.newCoins crypto).map (Input.hash crypto) := by
  refine List.ext_getElem? fun i => ?_
  rw [getElem?_uhsOutputs, List.getElem?_map, getElem?_newCoins]

/-- The values of the new coins are those of the outputs. -/
theorem newCoins_values (crypto : Crypto) (tx : FullTx) :
    ((tx.newCoins crypto).map fun coin => coin.prevoutData.value.toNat) =
      tx.outputs.map fun out => out.value.toNat := by
  refine List.ext_getElem? fun i => ?_
  simp [getElem?_newCoins, inputFromOutput, Function.comp_def]

end Coins

namespace Endorsed

variable {crypto : Crypto} {opts : Options} {signed : List FullTx} {txs : List CompactTx}
  {worth : Hash → Nat} {tx other : FullTx} {ctx : CompactTx}

/-- The hashes of two signed transactions do not collide. -/
theorem injOn_hashed (h : Endorsed crypto opts signed txs) (hTx : tx ∈ signed)
    (hOther : other ∈ signed) :
    Set.InjOn crypto.sha256 (hashed crypto tx ∪ hashed crypto other) := by
  refine h.collisionFree.mono ?_
  rintro bytes (hBytes | hBytes)
  · exact Or.inl ⟨tx, hTx, Or.inl hBytes⟩
  · exact Or.inl ⟨other, hOther, Or.inl hBytes⟩

theorem length_ofFullTx (hSized : tx.Sized) : (CompactTx.ofFullTx crypto tx).Sized := by
  simpa [CompactTx.Sized, CompactTx.ofFullTx, FullTx.Sized] using hSized

/-- Behind every accepted compact transaction stands a signed full one: the
check asks for one signature at least. -/
theorem exists_signed (h : Endorsed crypto opts signed txs) (hCtx : ctx ∈ txs)
    (hChecked : checkAttestations crypto ctx opts = true) :
    ∃ tx ∈ signed, ctx.Stands crypto tx := by
  rw [checkAttestations] at hChecked
  split at hChecked
  case isTrue => cases hChecked
  case isFalse hEnough =>
      have hCard : 0 < ctx.attestations.keys.card := by
        have hPositive := h.threshold
        omega
      obtain ⟨key, hKey⟩ := Finset.card_pos.mp hCard
      obtain ⟨signature, hLookup⟩ := Finmap.mem_iff.mp (Finmap.mem_keys.mp hKey)
      have hVerified := Table.all_eq_true_iff.mp hChecked key signature hLookup
      rw [Bool.and_eq_true, decide_eq_true_iff] at hVerified
      obtain ⟨tx, hTx, hHash⟩ := h.unforged ctx hCtx key hVerified.1 signature hVerified.2
      have hBytes : ctx.hashBytes = (CompactTx.ofFullTx crypto tx).hashBytes :=
        h.collisionFree (Or.inr ⟨ctx, hCtx, rfl⟩) (Or.inl ⟨tx, hTx, Or.inr rfl⟩) hHash
      obtain ⟨hId, hInputs, hOutputs⟩ := CompactTx.hashBytes_inj (h.sizedCompact ctx hCtx)
        (length_ofFullTx (h.sized tx hTx)) hBytes
      exact ⟨tx, hTx, hId, hInputs, hOutputs⟩

/-- Compact transactions with one ID stand for the same inputs. -/
theorem inputs_eq_of_id_eq (h : Endorsed crypto opts signed txs) {first second : CompactTx}
    (hTx : tx ∈ signed) (hOther : other ∈ signed) (hFirst : first.Stands crypto tx)
    (hSecond : second.Stands crypto other) (hId : first.id = second.id) :
    first.inputs = second.inputs := by
  have hTxId : txId crypto tx = txId crypto other := by rw [← hFirst.id, hId, hSecond.id]
  have hBytes := h.injOn_hashed hTx hOther (Or.inl (Or.inl rfl)) (Or.inr (Or.inl rfl)) hTxId
  rw [hFirst.inputs, hSecond.inputs, (txIdBytes_inj (h.sized tx hTx) (h.sized other hOther)
    hBytes).1]

/-- An ID is created by one transaction only. -/
theorem id_eq_of_shared_output (h : Endorsed crypto opts signed txs) {first second : CompactTx}
    (hTx : tx ∈ signed) (hOther : other ∈ signed) (hFirst : first.Stands crypto tx)
    (hSecond : second.Stands crypto other) {uhsId : Hash} (hMade : uhsId ∈ first.uhsOutputs)
    (hAgain : uhsId ∈ second.uhsOutputs) : first.id = second.id := by
  rw [hFirst.uhsOutputs] at hMade
  rw [hSecond.uhsOutputs] at hAgain
  obtain ⟨i, hI⟩ := List.mem_iff_getElem?.mp hMade
  obtain ⟨j, hJ⟩ := List.mem_iff_getElem?.mp hAgain
  rw [hFirst.id, hSecond.id]
  exact (output_unique (h.sized tx hTx) (h.sized other hOther) (h.injOn_hashed hTx hOther)
    hI hJ).2

theorem injOn_hash (h : Endorsed crypto opts signed txs) (hTx : tx ∈ signed) {first second : Input}
    (hFirst : first ∈ tx.coins crypto) (hSecond : second ∈ tx.coins crypto)
    (hSame : first.hash crypto = second.hash crypto) : first = second :=
  putInput_injective (h.collisionFree
    (Or.inl ⟨tx, hTx, Or.inl (putInput_mem_hashed hFirst)⟩)
    (Or.inl ⟨tx, hTx, Or.inl (putInput_mem_hashed hSecond)⟩) hSame)

/-- No ID is an input of the transaction twice. -/
theorem nodup_inputs (h : Endorsed crypto opts signed txs) (hTx : tx ∈ signed)
    (hStands : ctx.Stands crypto tx) : ctx.inputs.Nodup := by
  rw [hStands.inputs]
  by_cases hMint : tx.inputs = []
  · simp [hMint]
  · have hValid := (Validation.checkTx_eq_none crypto tx).mp (h.checked tx hTx hMint)
    refine List.Nodup.map_on ?_ (List.Nodup.of_map Input.prevout hValid.prevouts_nodup)
    intro first hFirst second hSecond hSame
    exact h.injOn_hash hTx (mem_coins.mpr (Or.inl hFirst)) (mem_coins.mpr (Or.inl hSecond)) hSame

/-- No ID is created twice by the transaction. -/
theorem nodup_outputs (h : Endorsed crypto opts signed txs) (hTx : tx ∈ signed)
    (hStands : ctx.Stands crypto tx) : ctx.uhsOutputs.Nodup := by
  rw [hStands.uhsOutputs, List.nodup_iff_injective_getElem]
  intro i j hSame
  have hI := List.getElem?_eq_getElem i.isLt
  have hSame : (CompactTx.ofFullTx crypto tx).uhsOutputs[i] =
      (CompactTx.ofFullTx crypto tx).uhsOutputs[j] := hSame
  have hJ := List.getElem?_eq_getElem j.isLt
  rw [Fin.getElem_fin, Fin.getElem_fin] at hSame
  rw [← hSame] at hJ
  exact Fin.ext (output_unique (h.sized tx hTx) (h.sized tx hTx) (h.injOn_hashed hTx hTx) hI hJ).1

/-- The hashes of a checked transaction are worth as much on either side. -/
theorem balanced (h : Endorsed crypto opts signed txs) (hWorth : Appraises crypto worth signed)
    (hTx : tx ∈ signed) (hStands : ctx.Stands crypto tx) (hInputs : ctx.inputs ≠ []) :
    (ctx.uhsOutputs.map worth).sum = (ctx.inputs.map worth).sum := by
  have hSpends : tx.inputs ≠ [] := by
    intro hNone
    exact hInputs (by rw [hStands.inputs, hNone, List.map_nil])
  have hBalanced := ((Validation.checkTx_eq_none crypto tx).mp (h.checked tx hTx hSpends)).balanced
  have hIn : (ctx.inputs.map worth).sum = Validation.inputSum tx := by
    rw [hStands.inputs, List.map_map, Validation.inputSum]
    refine congrArg List.sum (List.map_congr_left fun coin hCoin => ?_)
    exact hWorth tx hTx coin (mem_coins.mpr (Or.inl hCoin))
  have hOut : (ctx.uhsOutputs.map worth).sum = Validation.outputSum tx := by
    rw [hStands.uhsOutputs, uhsOutputs_eq_map, List.map_map, Validation.outputSum,
      ← newCoins_values crypto tx]
    refine congrArg List.sum (List.map_congr_left fun coin hCoin => ?_)
    exact hWorth tx hTx coin (List.mem_append_right _ hCoin)
  rw [hIn, hOut, hBalanced]

end Endorsed

section Fixed

/-- Primitives for fixed runs: a hash of one byte, and signatures that show the
message and the key. -/
def shownCrypto : Crypto :=
  { sha256 := fun bytes => .ofByte (bytes.foldl (fun hash byte => (hash ^^^ byte) * 31) 7)
    XonlyPubkey := PubKey
    xonlyPubkeyParse := some
    schnorrsigVerify := fun sig sighash pubkey => decide (sig = sighash ++ pubkey) }

/-- The witness program of the key that owns the coin. -/
def paymentProgram : List UInt8 := Validation.WitnessProgramType.p2pk :: (Hash.ofByte 1).toList

/-- A coin of value 5, and a transaction that pays it to another key. -/
def paidCoin : Input := ⟨⟨.ofByte 9, 0⟩, ⟨shownCrypto.sha256 paymentProgram, 5⟩⟩

def payment : FullTx :=
  let unsigned : FullTx := ⟨[paidCoin], [⟨.ofByte 2, 5⟩], []⟩
  { unsigned with
    witness := [paymentProgram ++ (txId shownCrypto unsigned ++ Hash.ofByte 1).toList] }

def paymentBytes : List (List UInt8) :=
  [txIdBytes payment, putInput paidCoin,
    uhsIdBytes (txId shownCrypto payment) 0 ⟨.ofByte 2, 5⟩,
    (CompactTx.ofFullTx shownCrypto payment).hashBytes]

theorem mem_paymentBytes {bytes : List UInt8} (h : bytes ∈ hashed shownCrypto payment) :
    bytes ∈ paymentBytes := by
  rcases h with hTxId | ⟨inp, hInp, rfl⟩ | ⟨i, out, hOut, rfl⟩
  · simp [hTxId, paymentBytes]
  · obtain rfl := List.mem_singleton.mp hInp
    simp [paymentBytes]
  · cases i with
    | zero =>
        cases hOut
        simp [paymentBytes]
    | succ i => cases hOut

/-- One sentinel, whose signature is asked for. -/
def oneSentinel : Options := { sentinelPublicKeys := {Hash.ofByte 3}, attestationThreshold := 1 }

def signedPayment : CompactTx :=
  { CompactTx.ofFullTx shownCrypto payment with
    attestations := (∅ : Finmap fun _ : PubKey => Signature).insert (Hash.ofByte 3)
      ((CompactTx.ofFullTx shownCrypto payment).hash shownCrypto ++ Hash.ofByte 3) }

theorem signedPayment_sized : signedPayment.Sized := ⟨by decide, by decide⟩

theorem endorsed_payment {txs : List CompactTx} (h : ∀ ctx ∈ txs, ctx = signedPayment) :
    Endorsed shownCrypto oneSentinel [payment] txs where
  threshold := Nat.one_pos
  checked := by
    intro tx hTx _
    obtain rfl := List.mem_singleton.mp hTx
    decide +kernel
  sized := by
    intro tx hTx
    obtain rfl := List.mem_singleton.mp hTx
    exact ⟨by decide, by decide⟩
  sizedCompact ctx hCtx := h ctx hCtx ▸ signedPayment_sized
  unforged ctx hCtx _ _ _ _ := ⟨payment, List.mem_singleton_self _, h ctx hCtx ▸ rfl⟩
  collisionFree := by
    have hNodup : (paymentBytes.map shownCrypto.sha256).Nodup := by decide +kernel
    have hCompact : (CompactTx.ofFullTx shownCrypto payment).hashBytes ∈ paymentBytes := by
      simp [paymentBytes]
    have hAmong : ∀ bytes ∈ {bytes | (∃ tx ∈ [payment], bytes ∈ hashed shownCrypto tx ∨
        bytes = (CompactTx.ofFullTx shownCrypto tx).hashBytes) ∨
          ∃ ctx ∈ txs, bytes = ctx.hashBytes}, bytes ∈ paymentBytes := by
      rintro bytes (⟨tx, hTx, hBytes⟩ | ⟨ctx, hCtx, rfl⟩)
      · obtain rfl := List.mem_singleton.mp hTx
        rcases hBytes with hHashed | rfl
        · exact mem_paymentBytes hHashed
        · exact hCompact
      · rw [h ctx hCtx]
        exact hCompact
    intro first hFirst second hSecond hSame
    exact List.inj_on_of_nodup_map hNodup (hAmong first hFirst) (hAmong second hSecond) hSame

def paymentWorth (uhsId : Hash) : Nat :=
  if uhsId ∈ signedPayment.inputs ++ signedPayment.uhsOutputs then 5 else 0

theorem appraises_payment : Appraises shownCrypto paymentWorth [payment] := by
  intro tx hTx coin hCoin
  obtain rfl := List.mem_singleton.mp hTx
  revert coin
  decide +kernel

end Fixed
end OpenCbdc

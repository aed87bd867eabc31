import Mathlib.Data.UInt
import OpenCbdc.Transaction.FullTx

/-! UHS IDs of outputs. The constructor of a compact transaction and the
recipient of an output compute them on different ways, and must agree; a hash
without collisions on what is hashed makes them unique. -/
namespace OpenCbdc

open Serialization

variable {crypto : Crypto} {tx other : FullTx}

@[simp] theorem length_putArray {len : Nat} (arr : Vector UInt8 len) :
    (putArray arr).length = len :=
  Vector.length_toList

@[simp] theorem length_putUInt64 (value : Nat) : (putUInt64 value).length = 8 :=
  length_putInteger 8 value

@[simp] theorem length_putOutPoint (op : OutPoint) : (putOutPoint op).length = 40 := by
  simp [putOutPoint]

@[simp] theorem length_putOutput (out : Output) : (putOutput out).length = 40 := by
  simp [putOutput]

@[simp] theorem length_putInput (inp : Input) : (putInput inp).length = 80 := by
  simp [putInput]

theorem putArray_injective (len : Nat) :
    Function.Injective (putArray : Vector UInt8 len → List UInt8) :=
  fun _ _ h => Vector.toList_inj.mp h

/-- Numbers of 64 bits can be told apart by their bytes. -/
theorem putUInt64_inj {first second : Nat} (hFirst : first < 2 ^ 64) (hSecond : second < 2 ^ 64)
    (h : putUInt64 first = putUInt64 second) : first = second := by
  have hValue := congrArg integerOf h
  rwa [putUInt64, putUInt64, integerOf_putInteger hFirst, integerOf_putInteger hSecond] at hValue

theorem putWord_injective : Function.Injective fun word : UInt64 => putUInt64 word.toNat := by
  intro first second h
  exact UInt64.toNat_inj.mp (putUInt64_inj first.toNat_lt second.toNat_lt h)

theorem putOutPoint_injective : Function.Injective putOutPoint := by
  intro first second h
  obtain ⟨hTxId, hIndex⟩ := List.append_inj h (by simp)
  have hTxId := putArray_injective 32 hTxId
  have hIndex := putWord_injective hIndex
  cases first
  cases second
  simp_all

theorem putOutput_injective : Function.Injective putOutput := by
  intro first second h
  obtain ⟨hCommitment, hValue⟩ := List.append_inj h (by simp)
  have hCommitment := putArray_injective 32 hCommitment
  have hValue := putWord_injective hValue
  cases first
  cases second
  simp_all

theorem putInput_injective : Function.Injective putInput := by
  intro first second h
  obtain ⟨hPrevout, hData⟩ := List.append_inj h (by simp)
  have hPrevout := putOutPoint_injective hPrevout
  have hData := putOutput_injective hData
  cases first
  cases second
  simp_all

/-- Elements of one width can be cut apart again. -/
theorem flatMap_append_inj {α : Type} {put : α → List UInt8} {width : Nat}
    (hWidth : ∀ x, (put x).length = width) (hInjective : Function.Injective put)
    {first second : List α} {rest more : List UInt8} (hLength : first.length = second.length)
    (h : first.flatMap put ++ rest = second.flatMap put ++ more) :
    first = second ∧ rest = more := by
  induction first generalizing second with
  | nil =>
      cases second with
      | nil => exact ⟨rfl, by simpa using h⟩
      | cons y second => simp at hLength
  | cons x first ih =>
      cases second with
      | nil => simp at hLength
      | cons y second =>
          simp only [List.flatMap_cons, List.append_assoc] at h
          obtain ⟨hHead, hTail⟩ := List.append_inj h (by simp [hWidth])
          obtain ⟨hRest, hMore⟩ := ih (by simpa using hLength) hTail
          exact ⟨by rw [hInjective hHead, hRest], hMore⟩

/-- The bytes of a vector tell where it ends. -/
theorem putVector_append_inj {α : Type} {put : α → List UInt8} {width : Nat}
    (hWidth : ∀ x, (put x).length = width) (hInjective : Function.Injective put)
    {first second : List α} {rest more : List UInt8} (hFirst : first.length < 2 ^ 64)
    (hSecond : second.length < 2 ^ 64)
    (h : putVector put first ++ rest = putVector put second ++ more) :
    first = second ∧ rest = more := by
  simp only [putVector, List.append_assoc] at h
  obtain ⟨hSize, hBody⟩ := List.append_inj h (by simp)
  exact flatMap_append_inj hWidth hInjective (putUInt64_inj hFirst hSecond hSize) hBody

/-- What `size()` of the two vectors can be. -/
def FullTx.Sized (tx : FullTx) : Prop :=
  tx.inputs.length < 2 ^ 64 ∧ tx.outputs.length < 2 ^ 64

theorem txIdBytes_inj (hTx : tx.Sized) (hOther : other.Sized)
    (h : txIdBytes tx = txIdBytes other) :
    tx.inputs = other.inputs ∧ tx.outputs = other.outputs := by
  obtain ⟨hInputs, hRest⟩ := putVector_append_inj length_putInput putInput_injective hTx.1
    hOther.1 h
  rw [← List.append_nil (putVector _ tx.outputs), ← List.append_nil (putVector _ other.outputs)]
    at hRest
  exact ⟨hInputs, (putVector_append_inj length_putOutput putOutput_injective hTx.2 hOther.2
    hRest).1⟩

theorem uhsIdBytes_inj {entropy entropy' : Hash} {i i' : UInt64} {out out' : Output}
    (h : uhsIdBytes entropy i out = uhsIdBytes entropy' i' out') :
    entropy = entropy' ∧ i = i' := by
  obtain ⟨hHead, _⟩ := List.append_inj h (by simp)
  obtain ⟨hEntropy, hIndex⟩ := List.append_inj hHead (by simp)
  exact ⟨putArray_injective 32 hEntropy, putWord_injective hIndex⟩

/-- The byte strings that are hashed to make a compact transaction. -/
def hashed (crypto : Crypto) (tx : FullTx) : Set (List UInt8) :=
  {bytes | bytes = txIdBytes tx ∨ (∃ inp ∈ tx.inputs, bytes = putInput inp) ∨
    ∃ i out, tx.outputs[i]? = some out ∧
      bytes = uhsIdBytes (txId crypto tx) (UInt64.ofNat i) out}

/-- The hash an output has as the recipient's input is the one under which the
compact transaction creates it. -/
theorem uhsIdFromOutput_eq_hash (entropy : Hash) (i : UInt64) (out : Output) :
    uhsIdFromOutput crypto entropy i out = Input.hash crypto ⟨⟨entropy, i⟩, out⟩ := rfl

theorem getElem?_uhsOutputs (tx : FullTx) (i : Nat) :
    (CompactTx.ofFullTx crypto tx).uhsOutputs[i]? =
      (inputFromOutput crypto tx i).map (Input.hash crypto) := by
  simp only [CompactTx.ofFullTx, List.getElem?_mapIdx, inputFromOutput, Option.map_map,
    Function.comp_def, uhsIdFromOutput_eq_hash]

theorem exists_of_getElem?_uhsOutputs {i : Nat} {id : Hash}
    (h : (CompactTx.ofFullTx crypto tx).uhsOutputs[i]? = some id) :
    ∃ out, tx.outputs[i]? = some out ∧
      id = crypto.sha256 (uhsIdBytes (txId crypto tx) (UInt64.ofNat i) out) := by
  simp only [CompactTx.ofFullTx, List.getElem?_mapIdx] at h
  obtain ⟨out, hOut, rfl⟩ := Option.map_eq_some_iff.mp h
  exact ⟨out, hOut, rfl⟩

/-- One UHS ID determines the transaction and the place of the output in it. -/
theorem output_unique (hTx : tx.Sized) (hOther : other.Sized)
    (hFree : Set.InjOn crypto.sha256 (hashed crypto tx ∪ hashed crypto other)) {i j : Nat}
    {id : Hash} (hId : (CompactTx.ofFullTx crypto tx).uhsOutputs[i]? = some id)
    (hSame : (CompactTx.ofFullTx crypto other).uhsOutputs[j]? = some id) :
    i = j ∧ txId crypto tx = txId crypto other := by
  obtain ⟨out, hOut, hHash⟩ := exists_of_getElem?_uhsOutputs hId
  obtain ⟨out', hOut', hHash'⟩ := exists_of_getElem?_uhsOutputs hSame
  have hBytes := hFree (Or.inl (Or.inr (Or.inr ⟨i, out, hOut, rfl⟩)))
    (Or.inr (Or.inr (Or.inr ⟨j, out', hOut', rfl⟩))) (hHash.symm.trans hHash')
  obtain ⟨hTxId, hIndex⟩ := uhsIdBytes_inj hBytes
  have hI : i < 2 ^ 64 := (List.getElem?_eq_some_iff.mp hOut).1.trans hTx.2
  have hJ : j < 2 ^ 64 := (List.getElem?_eq_some_iff.mp hOut').1.trans hOther.2
  have hNat := congrArg UInt64.toNat hIndex
  rw [UInt64.toNat_ofNat_of_lt' hI, UInt64.toNat_ofNat_of_lt' hJ] at hNat
  exact ⟨hNat, hTxId⟩

/-- Sender, recipient and shards agree on the ID of every output, and with a
collision-free hash the IDs are unique. -/
theorem uhs_ids_agree_and_unique (crypto : Crypto) :
    (∀ (tx : FullTx) (i : Nat), i < tx.outputs.length →
      ∃ inp, inputFromOutput crypto tx i = some inp ∧
        (CompactTx.ofFullTx crypto tx).uhsOutputs[i]? = some (inp.hash crypto) ∧
        ∀ (later : FullTx) (place : Nat), later.inputs[place]? = some inp →
          (CompactTx.ofFullTx crypto later).inputs[place]? =
            (CompactTx.ofFullTx crypto tx).uhsOutputs[i]?) ∧
    ∀ tx other : FullTx, tx.Sized → other.Sized →
      Set.InjOn crypto.sha256 (hashed crypto tx ∪ hashed crypto other) →
        (txId crypto tx = txId crypto other ↔
          tx.inputs = other.inputs ∧ tx.outputs = other.outputs) ∧
        ∀ (i j : Nat) (id : Hash), i ≠ j ∨ txId crypto tx ≠ txId crypto other →
          (CompactTx.ofFullTx crypto tx).uhsOutputs[i]? = some id →
            (CompactTx.ofFullTx crypto other).uhsOutputs[j]? ≠ some id := by
  constructor
  · intro tx i hLt
    have hInput : inputFromOutput crypto tx i =
        some ⟨⟨txId crypto tx, UInt64.ofNat i⟩, tx.outputs[i]⟩ := by
      simp [inputFromOutput, hLt]
    refine ⟨_, hInput, by rw [getElem?_uhsOutputs, hInput, Option.map_some], ?_⟩
    intro later place hPlace
    rw [getElem?_uhsOutputs, hInput]
    simp [CompactTx.ofFullTx, hPlace]
  · intro tx other hTx hOther hFree
    constructor
    · constructor
      · intro hId
        exact txIdBytes_inj hTx hOther (hFree (Or.inl (Or.inl rfl)) (Or.inr (Or.inl rfl)) hId)
      · intro hLists
        rw [txId, txId, txIdBytes, txIdBytes, hLists.1, hLists.2]
    · intro i j id hDifferent hId hSame
      have hUnique := output_unique hTx hOther hFree hId hSame
      cases hDifferent with
      | inl hPlace => exact hPlace hUnique.1
      | inr hTxId => exact hTxId hUnique.2

/-- A hash for fixed transactions: the sum of the bytes. -/
def byteSum : Crypto := { Crypto.unused with sha256 := fun bytes => Hash.ofByte bytes.sum }

/-- The byte strings that are hashed, one after the other. -/
def hashedBytes (crypto : Crypto) (tx : FullTx) : List (List UInt8) :=
  txIdBytes tx :: (tx.inputs.map putInput ++
    tx.outputs.mapIdx fun i out => uhsIdBytes (txId crypto tx) (UInt64.ofNat i) out)

theorem mem_hashedBytes {crypto : Crypto} {tx : FullTx} {bytes : List UInt8}
    (h : bytes ∈ hashed crypto tx) : bytes ∈ hashedBytes crypto tx := by
  rcases h with rfl | ⟨inp, hInp, rfl⟩ | ⟨i, out, hOut, rfl⟩
  · exact List.mem_cons_self
  · exact List.mem_cons_of_mem _ (List.mem_append_left _ (List.mem_map_of_mem hInp))
  · have hPlace : (tx.outputs.mapIdx fun i out =>
        uhsIdBytes (txId crypto tx) (UInt64.ofNat i) out)[i]? =
          some (uhsIdBytes (txId crypto tx) (UInt64.ofNat i) out) := by
      rw [List.getElem?_mapIdx, hOut, Option.map_some]
    exact List.mem_cons_of_mem _ (List.mem_append_right _ (List.mem_of_getElem? hPlace))

def minting : FullTx := ⟨[], [⟨Hash.ofByte 0, 5⟩, ⟨Hash.ofByte 0, 7⟩], []⟩

def spending : FullTx :=
  ⟨[⟨⟨txId byteSum minting, 0⟩, ⟨Hash.ofByte 0, 5⟩⟩,
      ⟨⟨txId byteSum minting, 1⟩, ⟨Hash.ofByte 0, 7⟩⟩],
    [⟨Hash.ofByte 0, 2⟩, ⟨Hash.ofByte 0, 10⟩], []⟩

theorem byteSum_injOn :
    Set.InjOn byteSum.sha256 (hashed byteSum minting ∪ hashed byteSum spending) := by
  have hFree : ∀ first ∈ hashedBytes byteSum minting ++ hashedBytes byteSum spending,
      ∀ second ∈ hashedBytes byteSum minting ++ hashedBytes byteSum spending,
        byteSum.sha256 first = byteSum.sha256 second → first = second := by
    decide +kernel
  have hAmong : ∀ bytes ∈ hashed byteSum minting ∪ hashed byteSum spending,
      bytes ∈ hashedBytes byteSum minting ++ hashedBytes byteSum spending :=
    fun bytes hBytes => List.mem_append.mpr (hBytes.imp mem_hashedBytes mem_hashedBytes)
  intro first hFirst second hSecond hSame
  exact hFree first (hAmong first hFirst) second (hAmong second hSecond) hSame

/-- The second input is found under the ID of the second coin, and no output has the
ID of a coin that is spent. -/
theorem uhs_ids_agree_and_unique_spent :
    (CompactTx.ofFullTx byteSum spending).inputs[1]? =
        (CompactTx.ofFullTx byteSum minting).uhsOutputs[1]? ∧
      txId byteSum minting ≠ txId byteSum spending ∧
      ∀ i < 2, ∀ j < 2, (CompactTx.ofFullTx byteSum spending).uhsOutputs[j]? ≠
        (CompactTx.ofFullTx byteSum minting).uhsOutputs[i]? := by
  obtain ⟨hAgree, hUnique⟩ := uhs_ids_agree_and_unique byteSum
  obtain ⟨inp, hInp, _, hLater⟩ := hAgree minting 1 (by decide)
  obtain ⟨hIff, hOutputs⟩ := hUnique minting spending ⟨by decide, by decide⟩
    ⟨by decide, by decide⟩ byteSum_injOn
  have hTxId : txId byteSum minting ≠ txId byteSum spending :=
    fun hSame => absurd (hIff.mp hSame).1 (by decide)
  refine ⟨hLater spending 1 hInp, hTxId, fun i hI j _ => ?_⟩
  have hLt : i < (CompactTx.ofFullTx byteSum minting).uhsOutputs.length := hI
  have hId := List.getElem?_eq_getElem hLt
  rw [hId]
  exact hOutputs i j _ (Or.inr hTxId) hId

end OpenCbdc

import OpenCbdc.Serialization.Codec
import OpenCbdc.Transaction.FullTx

/-! The serializer operators of transactions. The readers list the fields as
`operator>>` does, without a look at the flag in between. -/
namespace OpenCbdc.Serialization

open Decoder

def Codec.element {α : Type} (codec : Codec α) (sizeof : Nat) (hLeast : 0 < codec.least)
    (hSizeof : 0 < sizeof) (hMax : sizeof ≤ maximumReservation) : Element α :=
  { codec with
    sizeof := sizeof
    least_pos := hLeast
    sizeof_pos := hSizeof
    sizeof_le := hMax }

/-- What two operators write in a row. -/
theorem singleton_append (first second : List UInt8) :
    ({first ++ second} : Language UInt8) = {first} * {second} := by
  ext bytes
  rw [Language.mem_mul]
  constructor
  · intro h
    exact ⟨first, rfl, second, rfl, h.symm⟩
  · rintro ⟨_, rfl, _, rfl, rfl⟩
    rfl

namespace Codec

section Records

variable {α β γ δ : Type}

/-- A record of two fields, which are written and read one after the other. -/
def record (first : Codec α) (second : Codec β) (make : α → β → δ) (one : δ → α) (two : δ → β)
    (h : ∀ value, make (one value) (two value) = value) : Codec δ where
  Fits value := first.Fits (one value) ∧ second.Fits (two value)
  put value := first.put (one value) * second.put (two value)
  get := make <$> first.get <*> second.get
  least := first.least + second.least
  writable _ hFits := exists_mem_mul (first.writable _ hFits.1) (second.writable _ hFits.2)
  reads value hFits := by
    have hReads := ((first.reads _ hFits.1).map make).seq (second.reads _ hFits.2)
    rwa [h value] at hReads
  checked := (first.checked.map _).seq second.checked

/-- A record of three fields. -/
def record3 (first : Codec α) (second : Codec β) (third : Codec γ) (make : α → β → γ → δ)
    (one : δ → α) (two : δ → β) (three : δ → γ)
    (h : ∀ value, make (one value) (two value) (three value) = value) : Codec δ where
  Fits value := first.Fits (one value) ∧ second.Fits (two value) ∧ third.Fits (three value)
  put value := first.put (one value) * second.put (two value) * third.put (three value)
  get := make <$> first.get <*> second.get <*> third.get
  least := first.least + second.least + third.least
  writable _ hFits := exists_mem_mul
    (exists_mem_mul (first.writable _ hFits.1) (second.writable _ hFits.2.1))
    (third.writable _ hFits.2.2)
  reads value hFits := by
    have hReads := (((first.reads _ hFits.1).map make).seq (second.reads _ hFits.2.1)).seq
      (third.reads _ hFits.2.2)
    rwa [h value] at hReads
  checked := ((first.checked.map _).seq second.checked).seq third.checked

end Records

theorem hashSize_lt : 32 < 2 ^ 63 := by decide

theorem hashSize_pos : 0 < 32 := by decide

theorem hashSize_le : 32 ≤ maximumReservation := by decide

/-- `hash_t`, `pubkey_t` and `privkey_t`. -/
def hash : Element Hash :=
  (array 32 hashSize_lt).element 32 (by decide) hashSize_pos hashSize_le

theorem signatureSize_lt : 64 < 2 ^ 63 := by decide

def signature : Element Signature :=
  (array 64 signatureSize_lt).element 64 (by decide) (by decide) (by decide)

def outPoint : Codec OutPoint where
  Fits _ := True
  put op := {putOutPoint op}
  get := OutPoint.mk <$> hash.get <*> word.get
  least := hash.least + word.least
  writable op _ := ⟨_, rfl⟩
  reads op _ := by
    rw [putOutPoint, singleton_append]
    exact ((hash.reads op.txId trivial).map OutPoint.mk).seq (word.reads op.index trivial)
  checked := (hash.checked.map _).seq word.checked

def output : Element Output :=
  element {
    Fits := fun _ => True
    put := fun out => {putOutput out}
    get := Output.mk <$> hash.get <*> word.get
    least := hash.least + word.least
    writable := fun out _ => ⟨_, rfl⟩
    reads := by
      intro out _
      rw [putOutput, singleton_append]
      exact ((hash.reads out.witnessProgramCommitment trivial).map Output.mk).seq
        (word.reads out.value trivial)
    checked := (hash.checked.map _).seq word.checked } 40 (by decide) (by decide) (by decide)

def input : Element Input :=
  element {
    Fits := fun _ => True
    put := fun inp => {putInput inp}
    get := Input.mk <$> outPoint.get <*> output.get
    least := outPoint.least + output.least
    writable := fun inp _ => ⟨_, rfl⟩
    reads := by
      intro inp _
      rw [putInput, singleton_append]
      exact ((outPoint.reads inp.prevout trivial).map Input.mk).seq
        (output.reads inp.prevoutData trivial)
    checked := (outPoint.checked.map _).seq output.checked } 80 (by decide) (by decide) (by decide)

/-- `std::vector<std::byte>`. -/
def bytes : Element (List UInt8) :=
  (vector (byte.element 1 (by decide) Nat.one_pos byteSize_le)).element 24 (by decide)
    vectorSize_pos vectorSize_le

def fullTx : Element FullTx :=
  (record3 (vector input) (vector output) (vector bytes) FullTx.mk FullTx.inputs FullTx.outputs
    FullTx.witness fun _ => rfl).element 72 (by decide) (by decide) (by decide)

def attestations : Codec (Finmap fun _ : PubKey => Signature) :=
  unorderedMap hash signature (by decide)

def compactTx : Element CompactTx :=
  element {
    Fits := fun tx => hash.Fits tx.id ∧ (vector hash).Fits tx.inputs ∧
      (vector hash).Fits tx.uhsOutputs ∧ attestations.Fits tx.attestations
    put := fun tx => hash.put tx.id * (vector hash).put tx.inputs *
      (vector hash).put tx.uhsOutputs * attestations.put tx.attestations
    get := CompactTx.mk <$> hash.get <*> (vector hash).get <*> (vector hash).get <*>
      attestations.get
    least := hash.least + (vector hash).least + (vector hash).least + attestations.least
    writable := fun tx h => exists_mem_mul (exists_mem_mul (exists_mem_mul
      (hash.writable _ h.1) ((vector hash).writable _ h.2.1)) ((vector hash).writable _ h.2.2.1))
      (attestations.writable _ h.2.2.2)
    reads := fun tx h => ((((hash.reads _ h.1).map CompactTx.mk).seq
      ((vector hash).reads _ h.2.1)).seq ((vector hash).reads _ h.2.2.1)).seq
      (attestations.reads _ h.2.2.2)
    checked := (((hash.checked.map _).seq (vector hash).checked).seq (vector hash).checked).seq
      attestations.checked } 136 (by decide) (by decide) (by decide)

/-- Every compact transaction can be written. -/
theorem compactTx_fits (tx : CompactTx) : compactTx.Fits tx :=
  ⟨trivial, ⟨trivial, fun _ _ => trivial⟩, ⟨trivial, fun _ _ => trivial⟩,
    Collection.proper_table_id _, fun _ _ => ⟨trivial, trivial⟩⟩

end Codec
end OpenCbdc.Serialization

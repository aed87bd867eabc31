import OpenCbdc.Serialization.MessageLayouts
import OpenCbdc.Serialization.Serializers

/-! How many bytes a decoder takes for the value it returns. A container that
lists an element twice makes it take more than the value needs. -/
namespace OpenCbdc.Serialization

open Decoder

/-- The position of the cursor when decoding ends. -/
def consumed (type : MessageType) (buffer : Buffer) : Nat :=
  match type.codec.get (Reader.ofBuffer buffer) with
  | .ok _ after | .error _ after => after.cursor

/-- Calls to `write` that `operator<<` may make for the value. The bytes may come
in any pieces. -/
def MessageType.Writes (type : MessageType) (value : type.Value) (calls : List (List UInt8)) :
    Prop :=
  calls.flatten ∈ type.codec.put value

/-- The buffer starts with the encoding of a value in which no container lists an
element twice. -/
def StartsWithEncoding (type : MessageType) (buffer : Buffer) : Prop :=
  ∃ value bytes rest, buffer.bytes = bytes ++ rest ∧ bytes ∈ type.layout.encodings value

section Consumption

variable {type : MessageType} {buffer : Buffer} {value : type.Value}

theorem exists_get_of_fromBuffer (h : fromBuffer type buffer = .ok (some value)) :
    ∃ after, type.codec.get (Reader.ofBuffer buffer) = .ok value after ∧ after.valid = true := by
  rw [fromBuffer] at h
  cases hGet : type.codec.get (Reader.ofBuffer buffer) with
  | error fault after =>
      rw [hGet] at h
      cases h
  | ok other after =>
      rw [hGet] at h
      by_cases hValid : after.valid = true
      · simp only [hValid, if_true] at h
        cases h
        exact ⟨after, rfl, hValid⟩
      · simp [hValid] at h

/-- A decoder never takes fewer bytes than the value has, and it takes as many
only from an encoding of the value. -/
theorem exists_taken_of_fromBuffer (h : fromBuffer type buffer = .ok (some value)) :
    ∃ taken rest, buffer.bytes = taken ++ rest ∧ consumed type buffer = taken.length ∧
      taken ∈ Spans (type.layout.size value) (type.layout.encodings value) := by
  obtain ⟨after, hGet, hValid⟩ := exists_get_of_fromBuffer h
  obtain ⟨taken, hTaken, hTook⟩ := type.layout.takes _ value after hGet hValid
  refine ⟨taken, after.rest, hTook.rest, ?_, hTaken⟩
  rw [consumed, hGet]
  show after.cursor = taken.length
  rw [hTook.cursor]
  exact Nat.zero_add _

/-- The value is the one whose encoding the buffer starts with, and what the
decoder has taken is that encoding. -/
theorem consumed_of_encoding {other : type.Value} {bytes rest : List UInt8}
    (h : fromBuffer type buffer = .ok (some value)) (hBuffer : buffer.bytes = bytes ++ rest)
    (hBytes : bytes ∈ type.layout.encodings other) :
    consumed type buffer = type.layout.size value := by
  obtain ⟨after, hGet, hValid⟩ := exists_get_of_fromBuffer h
  obtain ⟨last, hOther, _, hRest⟩ :=
    type.layout.reads other bytes hBytes (Reader.ofBuffer buffer) rest rfl hBuffer
  rw [hGet] at hOther
  cases hOther
  obtain ⟨taken, _, hTook⟩ := type.layout.takes _ value after hGet hValid
  have hSame : taken ++ rest = bytes ++ rest := by
    rw [← hRest, ← hTook.rest, hRest]
    exact hBuffer
  rw [consumed, hGet, ← type.layout.length_encodings value bytes hBytes,
    ← List.append_cancel_right hSame]
  show after.cursor = taken.length
  rw [hTook.cursor]
  exact Nat.zero_add _

end Consumption

/-- A decoder takes as many bytes as the value has when it is written exactly if
the buffer starts with an encoding in which no container lists an element twice. -/
theorem consumed_eq_serializedSize_iff (type : MessageType) (buffer : Buffer)
    (value : type.Value) (hDecode : fromBuffer type buffer = .ok (some value)) :
    (∃ calls, type.Writes value calls) ∧ ∀ calls, type.Writes value calls →
      (consumed type buffer = serializedSize calls ↔ StartsWithEncoding type buffer) := by
  constructor
  · obtain ⟨bytes, hBytes⟩ := type.layout.writable value
    refine ⟨[bytes], ?_⟩
    rw [MessageType.Writes, List.flatten_singleton]
    exact hBytes
  · intro calls hCalls
    obtain ⟨taken, rest, hBuffer, hConsumed, hTaken⟩ := exists_taken_of_fromBuffer hDecode
    have hLength : calls.flatten.length = type.layout.size value :=
      type.layout.length_put value calls.flatten hCalls
    have hBound : taken.length < 2 ^ 63 := by
      have hSize := buffer.size_lt
      rw [hBuffer, List.length_append] at hSize
      omega
    have hLe := hTaken.1
    rw [serializedSize_eq calls (by omega), hLength]
    constructor
    · intro hEqual
      exact ⟨value, taken, rest, hBuffer, hTaken.2 (by omega)⟩
    · rintro ⟨other, bytes, after, hStart, hBytes⟩
      exact consumed_of_encoding hDecode hStart hBytes

instance : DecidableEq (MessageType.Value .txErrors) :=
  inferInstanceAs (DecidableEq (List TxError))

theorem consumed_spentError :
    ∃ buffer : Buffer, buffer.bytes = spentErrorBytes ++ [7] ∧
      fromBuffer .txErrors buffer = .ok (some [spentError]) ∧
        consumed .txErrors buffer = serializedSize [spentErrorBytes] ∧
          StartsWithEncoding .txErrors buffer := by
  let buffer : Buffer := ⟨spentErrorBytes ++ [7], by decide⟩
  have hDecode : fromBuffer .txErrors buffer = .ok (some [spentError]) := by decide +kernel
  have hConsumed : consumed .txErrors buffer = serializedSize [spentErrorBytes] := by
    decide +kernel
  have hWrites : MessageType.Writes .txErrors [spentError] [spentErrorBytes] := by
    show [spentErrorBytes].flatten ∈ _
    rw [List.flatten_singleton]
    exact spentErrorBytes_mem
  exact ⟨buffer, rfl, hDecode, hConsumed,
    ((consumed_eq_serializedSize_iff .txErrors buffer [spentError] hDecode).2 _ hWrites).mp
      hConsumed⟩

/-- The bytes of two errors, the first of which names one spent input twice. -/
def repeatedIdBytes : List UInt8 :=
  putUInt64 2 ++ (putArray (Hash.ofByte 1) ++ (putInteger 1 4 ++ (putUInt64 2 ++
    (putArray (Hash.ofByte 2) ++ (putArray (Hash.ofByte 2) ++
      (putArray (Hash.ofByte 3) ++ putInteger 1 0))))))

/-- The first error swallows the transaction of the second one, which is then
read from the bytes behind the list. -/
def repeatedIdErrors : List TxError :=
  [⟨Hash.ofByte 1, .inputsSpent {Hash.ofByte 3, Hash.ofByte 2}⟩, ⟨Hash.ofByte 0, .sync⟩]

/-- The reader has consumed 32 bytes more than the value that it returns would be written
with: those of the ID that it read twice. -/
theorem repeated_id_reads_on :
    ∃ (buffer : Buffer) (calls : List (List UInt8)),
      buffer.bytes = repeatedIdBytes ++ List.replicate 32 0 ∧
        fromBuffer .txErrors buffer = .ok (some repeatedIdErrors) ∧
          MessageType.Writes .txErrors repeatedIdErrors calls ∧ serializedSize calls = 146 ∧
            consumed .txErrors buffer = 178 := by
  let buffer : Buffer := ⟨repeatedIdBytes ++ List.replicate 32 0, by decide +kernel⟩
  have hDecode : fromBuffer .txErrors buffer = .ok (some repeatedIdErrors) := by decide +kernel
  have hConsumed : consumed .txErrors buffer = 178 := by decide +kernel
  obtain ⟨bytes, hBytes⟩ := (MessageType.layout .txErrors).writable repeatedIdErrors
  have hLength : bytes.length = 146 :=
    (MessageType.layout .txErrors).length_put repeatedIdErrors bytes hBytes
  refine ⟨buffer, [bytes], rfl, hDecode, ?_, ?_, hConsumed⟩
  · show [bytes].flatten ∈ _
    rw [List.flatten_singleton]
    exact hBytes
  · rw [serializedSize_eq, List.flatten_singleton, hLength]
    rw [List.flatten_singleton, hLength]
    decide

end OpenCbdc.Serialization

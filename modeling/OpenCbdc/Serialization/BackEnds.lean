import OpenCbdc.Coordinator.StateBytes
import OpenCbdc.Serialization.MessageLayouts
import OpenCbdc.Serialization.Serializers

/-! All serializers agree on what an object is written as. NuRaft buffers are made
as large as the size serializer says and hold messages, the commands of the
coordinators and the state that their state machine hands out. -/
namespace OpenCbdc.Serialization

open Decoder

namespace Layout

def commandCode : Codec.commandCode.Layout := enumeration _ uint8 1 fun _ => rfl

def smCommandHeader : Codec.smCommandHeader.Layout :=
  (both commandCode (optional hash)).record
    ⟨fun fields => SmCommandHeader.mk fields.1 fields.2, fun c => (c.comm, c.dtxId),
      fun _ => rfl, fun _ => rfl⟩
    (map_seq_eq_map _ _ _) fun _ => rfl

end Layout

inductive Object where
  | message (type : MessageType) (value : type.Value)
  | smCommand (command : SmCommand)
  | coordinatorState (state : BufferState)

namespace Object

/-- `operator<<` for the object. -/
def put : Object → Language UInt8
  | .message type value => type.codec.put value
  | .smCommand command => command.put
  | .coordinatorState state => state.put

/-- Calls to `write` that `operator<<` may make for the object. The bytes may come
in any pieces. -/
def Writes (object : Object) (calls : List (List UInt8)) : Prop := calls.flatten ∈ object.put

/-- The room that the data behind the header of a command takes. -/
def dataSize : SmCommand → Nat
  | .prepare _ txs => (Layout.vector Layout.compactTx).size txs
  | .commit _ completeTxs txIdxs => Layout.commitTx.size (completeTxs, txIdxs)
  | _ => 0

def buffersSize (buffers : Finmap fun _ : Hash => List UInt8) : Nat :=
  8 + (Collection.Sums.table id id (fun _ => rfl) fun _ => rfl).total
    (fun entry : Hash × List UInt8 => 32 + entry.2.length) buffers

def size : Object → Nat
  | .message type value => type.layout.size value
  | .smCommand command => Layout.smCommandHeader.size command.header + dataSize command
  | .coordinatorState state => buffersSize state.prepareTxs + buffersSize state.commitTxs +
      (Layout.unorderedSet Layout.hash).size state.discardTxs

theorem length_putData (command : SmCommand) : OfLength (dataSize command) command.putData := by
  cases command with
  | prepare dtxId txs => exact (Layout.vector Layout.compactTx).length_put txs
  | commit dtxId completeTxs txIdxs => exact Layout.commitTx.length_put (completeTxs, txIdxs)
  | discard dtxId => exact Layout.empty.length_put ()
  | done dtxId => exact Layout.empty.length_put ()
  | get => exact Layout.empty.length_put ()

theorem exists_mem_putData (command : SmCommand) : ∃ bytes, bytes ∈ command.putData := by
  cases command with
  | prepare dtxId txs => exact (Layout.vector Layout.compactTx).writable txs
  | commit dtxId completeTxs txIdxs => exact Layout.commitTx.writable (completeTxs, txIdxs)
  | discard dtxId => exact Layout.empty.writable ()
  | done dtxId => exact Layout.empty.writable ()
  | get => exact Layout.empty.writable ()

theorem length_putBuffers (buffers : Finmap fun _ : Hash => List UInt8) :
    OfLength (buffersSize buffers) (BufferState.putBuffers buffers) := by
  apply Layout.length_putContainer
  intro entry
  exact (Layout.hash.length_put entry.1).mul (OfLength.singleton entry.2)

/-- However the containers in an object are visited, it takes the same room. -/
theorem length_put (object : Object) : OfLength object.size object.put := by
  cases object with
  | message type value => exact type.layout.length_put value
  | smCommand command =>
      exact (Layout.smCommandHeader.length_put command.header).mul (length_putData command)
  | coordinatorState state =>
      exact ((length_putBuffers state.prepareTxs).mul (length_putBuffers state.commitTxs)).mul
        ((Layout.unorderedSet Layout.hash).length_put state.discardTxs)

theorem exists_writes (object : Object) : ∃ calls, object.Writes calls := by
  have hPut : ∃ bytes, bytes ∈ object.put := by
    cases object with
    | message type value => exact type.layout.writable value
    | smCommand command =>
        exact exists_mem_mul (Layout.smCommandHeader.writable command.header)
          (exists_mem_putData command)
    | coordinatorState state => exact state.exists_mem_put
  obtain ⟨bytes, hBytes⟩ := hPut
  refine ⟨[bytes], ?_⟩
  rw [Writes, List.flatten_singleton]
  exact hBytes

end Object

/-- Every object can be written. The bytes in the buffer that `make_buffer`
returns, those that stand in a buffer which grew and those in a NuRaft buffer of
the serialized size are the same; no write to the NuRaft buffer is refused, and it
ends full. The size may have been counted on an equal object whose containers are
visited in another order. Only an object that no buffer can hold has no bytes. -/
theorem back_ends_agree (object : Object) :
    (∃ calls, object.Writes calls) ∧
      ∀ calls counted, object.Writes calls → object.Writes counted →
        (2 ^ 63 ≤ object.size → makeBuffer calls = none) ∧
        (object.size < 2 ^ 63 → ∃ packet, makeBuffer calls = some packet ∧
          packet.bytes.length = serializedSize counted ∧
          (∀ short : Buffer, short.bytes.length ≤ serializedSize counted →
            ∃ last, BufferCursor.writeAll BufferCursor.bufferWrite (.start short) calls =
              some (List.replicate calls.length true, last) ∧ last.buffer.bytes = packet.bytes) ∧
          ∀ allocated : Buffer, allocated.bytes.length = serializedSize counted →
            ∃ last, BufferCursor.writeAll BufferCursor.nuraftWrite (.start allocated) calls =
              some (List.replicate calls.length true, last) ∧ last.buffer.bytes = packet.bytes ∧
                last.valid = true ∧ last.endOfBuffer = true) := by
  refine ⟨object.exists_writes, ?_⟩
  intro calls counted hCalls hCounted
  have hLength : calls.flatten.length = object.size := object.length_put _ hCalls
  have hOther : counted.flatten.length = object.size := object.length_put _ hCounted
  refine ⟨?_, ?_⟩
  · intro hLarge
    rw [makeBuffer_eq, dif_neg (by omega)]
  · intro hSmall
    have hSize : serializedSize counted = calls.flatten.length := by
      rw [serializedSize_eq counted (by omega), hLength, hOther]
    refine ⟨⟨calls.flatten, by omega⟩, ?_, hSize.symm, ?_, ?_⟩
    · rw [makeBuffer_eq, dif_pos (by omega)]
    · intro short hShort
      obtain ⟨last, hWrites, hBytes, _⟩ := BufferCursor.exists_writeAll_start short calls (by omega)
        (by omega)
      exact ⟨last, hWrites, hBytes⟩
    · intro allocated hAllocated
      obtain ⟨last, hWrites, hBytes, hCursor, hValid⟩ :=
        BufferCursor.exists_writeAll_start allocated calls (by omega) (by omega)
      refine ⟨last, ?_, hBytes, hValid, ?_⟩
      · rw [BufferCursor.writeAll_nuraftWrite_eq, hWrites]
        show 0 + calls.flatten.length ≤ allocated.bytes.length
        omega
      · rw [BufferCursor.endOfBuffer, hBytes, hCursor]
        exact decide_eq_true le_rfl

end OpenCbdc.Serialization

import OpenCbdc.Serialization.Messages

/-! All message types, the round trip of their values and what their decoders do
with any other bytes. -/
namespace OpenCbdc.Serialization

open Decoder

/-- The types that are exchanged or stored. A payload of a remote call is one of
them. -/
inductive MessageType where
  | integer
  | flag
  | input
  | fullTx
  | compactTx
  | block
  | optionalBlock
  | txError
  | txErrors
  | watchtowerRequest
  | watchtowerResponse
  | atomizerRequest
  | stateMachineRequest
  | stateMachineResponse
  | lockingShardRequest
  | lockingShardResponse
  | statusRequest
  | sentinelRequest
  | sentinelResponse
  | coordinatorState
  | walletFile
  | rpcRequest (payload : MessageType)
  | rpcResponse (payload : MessageType)
deriving DecidableEq

namespace MessageType

def Value : MessageType → Type
  | .integer => Nat
  | .flag => Bool
  | .input => Input
  | .fullTx => FullTx
  | .compactTx => CompactTx
  | .block => Block
  | .optionalBlock => Option Block
  | .txError => TxError
  | .txErrors => List TxError
  | .watchtowerRequest => Wire.WatchtowerRequest
  | .watchtowerResponse => Wire.WatchtowerResponse
  | .atomizerRequest => Wire.AtomizerRequest
  | .stateMachineRequest => AtomizerStateMachine.Request
  | .stateMachineResponse => Wire.AtomizerResponse
  | .lockingShardRequest => LockingShard.Request
  | .lockingShardResponse => Wire.LockingShardResponse
  | .statusRequest => Wire.StatusRequest
  | .sentinelRequest => Wire.SentinelRequest
  | .sentinelResponse => Wire.SentinelResponse
  | .coordinatorState => CoordinatorState
  | .walletFile => Wire.WalletFile
  | .rpcRequest payload => Wire.RpcRequest payload.Value
  | .rpcResponse payload => Wire.RpcResponse payload.Value

def codec : (type : MessageType) → Codec type.Value
  | .integer => Codec.uint64
  | .flag => Codec.boolean
  | .input => Codec.input.toCodec
  | .fullTx => Codec.fullTx.toCodec
  | .compactTx => Codec.compactTx.toCodec
  | .block => Codec.block
  | .optionalBlock => Codec.optional Codec.block
  | .txError => Codec.txError.toCodec
  | .txErrors => Codec.vector Codec.txError
  | .watchtowerRequest => Codec.watchtowerRequest
  | .watchtowerResponse => Codec.watchtowerResponse
  | .atomizerRequest => Codec.atomizerRequest
  | .stateMachineRequest => Codec.stateMachineRequest
  | .stateMachineResponse => Codec.stateMachineResponse
  | .lockingShardRequest => Codec.lockingShardRequest
  | .lockingShardResponse => Codec.lockingShardResponse
  | .statusRequest => Codec.statusRequest
  | .sentinelRequest => Codec.sentinelRequest
  | .sentinelResponse => Codec.sentinelResponse
  | .coordinatorState => Codec.coordinatorState
  | .walletFile => Codec.walletFile
  | .rpcRequest payload => Codec.rpcRequest payload.codec
  | .rpcResponse payload => Codec.rpcResponse payload.codec

end MessageType

def fromBuffer (type : MessageType) (buffer : Buffer) : Except Fault (Option type.Value) :=
  match type.codec.get (Reader.ofBuffer buffer) with
  | .ok value after => .ok (if after.valid then some value else none)
  | .error fault _ => .error fault

theorem fromBuffer_of_mem {type : MessageType} {value : type.Value}
    (hFits : type.codec.Fits value) {bytes rest : List UInt8}
    (hBytes : bytes ∈ type.codec.put value) {buffer : Buffer}
    (hBuffer : buffer.bytes = bytes ++ rest) :
    fromBuffer type buffer = .ok (some value) ∧
      ∃ after, type.codec.get (Reader.ofBuffer buffer) = .ok value after ∧ after.rest = rest := by
  obtain ⟨after, hGet, hValid, hRest⟩ :=
    type.codec.reads value hFits bytes hBytes (Reader.ofBuffer buffer) rest rfl hBuffer
  refine ⟨?_, after, hGet, hRest⟩
  rw [fromBuffer, hGet]
  simp [hValid]

/-- What is written for a value, followed by any other bytes, is decoded to the
value, and the other bytes are left. -/
theorem decode_encode (type : MessageType) (value : type.Value) (hFits : type.codec.Fits value)
    (rest : List UInt8) :
    (∃ bytes, bytes ∈ type.codec.put value) ∧
      ∀ bytes ∈ type.codec.put value, ∀ buffer : Buffer, buffer.bytes = bytes ++ rest →
        fromBuffer type buffer = .ok (some value) ∧
          ∃ after, type.codec.get (Reader.ofBuffer buffer) = .ok value after ∧
            after.rest = rest := by
  refine ⟨type.codec.writable value hFits, ?_⟩
  intro bytes hBytes buffer hBuffer
  exact fromBuffer_of_mem hFits hBytes hBuffer

/-- An error that names two spent inputs, which are written in some order. -/
def spentError : TxError :=
  ⟨Hash.ofByte 1, .inputsSpent {Hash.ofByte 2, Hash.ofByte 3}⟩

def spentErrorBytes : List UInt8 :=
  putUInt64 1 ++ (putArray (Hash.ofByte 1) ++ (putInteger 1 4 ++
    (putUInt64 2 ++ (putArray (Hash.ofByte 3) ++ putArray (Hash.ofByte 2)))))

theorem spentErrorBytes_mem : spentErrorBytes ∈ (MessageType.codec .txErrors).put [spentError] := by
  have hIds : putUInt64 2 ++ (putArray (Hash.ofByte 3) ++ putArray (Hash.ofByte 2)) ∈
      (Codec.unorderedSet Codec.hash).put {Hash.ofByte 2, Hash.ofByte 3} := by
    have hOrder : ({Hash.ofByte 2, Hash.ofByte 3} : Finset Hash).val =
        ([Hash.ofByte 3, Hash.ofByte 2] : List Hash) := by decide
    refine ⟨[Hash.ofByte 3, Hash.ofByte 2], hOrder, Language.append_mem_mul rfl ?_⟩
    simp only [List.map_cons, List.map_nil, List.prod_cons, List.prod_nil, mul_one]
    exact Language.append_mem_mul rfl rfl
  have hError := Language.append_mem_mul (Set.mem_singleton (putArray (Hash.ofByte 1)))
    (Language.append_mem_mul (Set.mem_singleton (putInteger 1 4)) hIds)
  exact mem_putContainer_singleton rfl hError

theorem decode_encode_spentError :
    ∃ buffer : Buffer, buffer.bytes = spentErrorBytes ++ [7] ∧
      fromBuffer .txErrors buffer = .ok (some [spentError]) := by
  have hFits : (MessageType.codec .txErrors).Fits [spentError] := by
    refine ⟨trivial, fun value hValue => ?_⟩
    obtain rfl : value = spentError := List.mem_singleton.mp hValue
    exact ⟨trivial, trivial, fun _ _ => trivial⟩
  have hDecode := (decode_encode .txErrors [spentError] hFits [7]).2 spentErrorBytes
    spentErrorBytes_mem ⟨spentErrorBytes ++ [7], by decide⟩ rfl
  exact ⟨_, rfl, hDecode.1⟩

end OpenCbdc.Serialization

import OpenCbdc.Serialization.Layout
import OpenCbdc.Serialization.MessageTypes

/-! The layout of every message type. Each layout is put together from those of
the fields as the serializer operators of the type are. -/
namespace OpenCbdc.Serialization

open Decoder

namespace Layout

open Wire Enumeration

section Records

variable {α β γ δ : Type} {first : Codec α} {second : Codec β} {third : Codec γ}
  {one : δ → α} {two : δ → β} {three : δ → γ}

/-- A record of two fields is laid out like the pair of them. -/
def fields (layout : first.Layout) (next : second.Layout) {make : α → β → δ}
    (h : (∀ a b, one (make a b) = a ∧ two (make a b) = b) ∧
      ∀ value, make (one value) (two value) = value) :
    (Codec.record first second make one two h.2).Layout :=
  (both layout next).record
    ⟨fun parts => make parts.1 parts.2, fun value => (one value, two value),
      fun _ => Prod.ext (h.1 _ _).1 (h.1 _ _).2, h.2⟩
    (map_seq_eq_map _ _ _) fun _ => rfl

/-- A record of three fields. -/
def fields3 (layout : first.Layout) (next : second.Layout) (last : third.Layout)
    {make : α → β → γ → δ}
    (h : (∀ a b c, one (make a b c) = a ∧ two (make a b c) = b ∧ three (make a b c) = c) ∧
      ∀ value, make (one value) (two value) (three value) = value) :
    (Codec.record3 first second third make one two three h.2).Layout :=
  (both (both layout next) last).record
    ⟨fun parts => make parts.1.1 parts.1.2 parts.2,
      fun value => ((one value, two value), three value),
      fun _ => Prod.ext (Prod.ext (h.1 _ _ _).1 (h.1 _ _ _).2.1) (h.1 _ _ _).2.2, h.2⟩
    (map_seq_seq_eq_map _ _ _ _) fun _ => rfl

end Records

/-- `hash_t`, `pubkey_t` and `privkey_t`. -/
def hash : Codec.hash.Layout := array 32 Codec.hashSize_lt

def signature : Codec.signature.Layout := array 64 Codec.signatureSize_lt

def outPoint : Codec.outPoint.Layout :=
  (both hash word).record
    ⟨fun fields => OutPoint.mk fields.1 fields.2, fun op => (op.txId, op.index),
      fun _ => rfl, fun _ => rfl⟩
    (map_seq_eq_map _ _ _) fun op => singleton_append (putArray op.txId) _

def output : Codec.output.Layout :=
  (both hash word).record
    ⟨fun fields => Output.mk fields.1 fields.2,
      fun out => (out.witnessProgramCommitment, out.value), fun _ => rfl, fun _ => rfl⟩
    (map_seq_eq_map _ _ _) fun out => singleton_append (putArray out.witnessProgramCommitment) _

def input : Codec.input.Layout :=
  (both outPoint output).record
    ⟨fun fields => Input.mk fields.1 fields.2, fun inp => (inp.prevout, inp.prevoutData),
      fun _ => rfl, fun _ => rfl⟩
    (map_seq_eq_map _ _ _) fun inp => singleton_append (putOutPoint inp.prevout) _

/-- `std::vector<std::byte>`. -/
def bytes : Codec.bytes.Layout :=
  @vector _ (Codec.byte.element 1 _ _ _) byte

def fullTx : Codec.fullTx.Layout :=
  (vector input).fields3 (vector output) (vector bytes) ⟨fun _ _ _ => ⟨rfl, rfl, rfl⟩, fun _ => rfl⟩

def attestations : Codec.attestations.Layout := unorderedMap hash signature _

def compactTx : Codec.compactTx.Layout :=
  (both (both (both hash (vector hash)) (vector hash)) attestations).record
    ⟨fun fields => CompactTx.mk fields.1.1.1 fields.1.1.2 fields.1.2 fields.2,
      fun tx => (((tx.id, tx.inputs), tx.uhsOutputs), tx.attestations),
      fun _ => rfl, fun _ => rfl⟩
    (map_seq_seq_seq_eq_map _ _ _ _ _) fun _ => rfl

/-- An enumeration with this underlying type. -/
def enumeration {α : Type} [DecidableEq α] (names : List α) {underlying : Codec Nat}
    (layout : underlying.Layout) (width : Nat) (hWidth : ∀ code, layout.size code = width) :
    (Codec.enumeration names underlying).Layout :=
  layout.via width hWidth (toCode names) (ofCode names)

def searchStatus : Codec.searchStatus.Layout := enumeration _ uint32 4 fun _ => rfl

def inputErrorCode : Codec.inputErrorCode.Layout := enumeration _ uint8 1 size_uint8

def outputErrorCode : Codec.outputErrorCode.Layout := enumeration _ uint8 1 size_uint8

def witnessErrorCode : Codec.witnessErrorCode.Layout := enumeration _ uint8 1 size_uint8

def txErrorCode : Codec.txErrorCode.Layout := enumeration _ uint8 1 size_uint8

def txStatus : Codec.txStatus.Layout := enumeration _ uint32 4 fun _ => rfl

def block : Codec.block.Layout :=
  uint64.fields (vector compactTx) ⟨fun _ _ => ⟨rfl, rfl⟩, fun _ => rfl⟩

def txErrorInfo : Codec.txErrorInfo.Layout :=
  variant
    (fun
      | .sync => empty.extent 0 ()
      | .inputsDne inputUhsIds => (vector hash).extent 1 inputUhsIds
      | .stxoRange => empty.extent 2 ()
      | .incomplete => empty.extent 3 ()
      | .inputsSpent inputUhsIds => (unorderedSet hash).extent 4 inputUhsIds)
    (by
      intro info
      cases info with
      | sync => exact empty.occupies (fun _ => TxErrorInfo.sync) rfl ()
      | inputsDne inputUhsIds => exact (vector hash).occupies TxErrorInfo.inputsDne rfl _
      | stxoRange => exact empty.occupies (fun _ => TxErrorInfo.stxoRange) rfl ()
      | incomplete => exact empty.occupies (fun _ => TxErrorInfo.incomplete) rfl ()
      | inputsSpent inputUhsIds =>
          exact (unorderedSet hash).occupies TxErrorInfo.inputsSpent rfl _)
    (empty.aligned _ (fun _ => rfl) <| (vector hash).aligned _ (fun _ => rfl) <|
      empty.aligned _ (fun _ => rfl) <| empty.aligned _ (fun _ => rfl) <|
      (unorderedSet hash).aligned _ (fun _ => rfl) trivial)

def txError : Codec.txError.Layout :=
  hash.fields txErrorInfo ⟨fun _ _ => ⟨rfl, rfl⟩, fun _ => rfl⟩

def statusUpdateState : Codec.statusUpdateState.Layout :=
  searchStatus.fields3 uint64 hash ⟨fun _ _ _ => ⟨rfl, rfl, rfl⟩, fun _ => rfl⟩

def txIdUhsIds : Codec.txIdUhsIds.Layout :=
  @unorderedMap _ _ _ _ _ _
    ((Codec.vector Codec.hash).element 24 _ _ _) hash (vector hash) _

def txIdStates : Codec.txIdStates.Layout :=
  @unorderedMap _ _ _ _ _ _
    ((Codec.vector Codec.statusUpdateState).element 24 _ _ _) hash (vector statusUpdateState) _

def watchtowerRequest : Codec.watchtowerRequest.Layout :=
  variant
    (fun
      | .statusUpdate uhsIds => txIdUhsIds.extent 0 uhsIds
      | .bestBlockHeight => empty.extent 1 ())
    (by
      intro request
      cases request with
      | statusUpdate uhsIds => exact txIdUhsIds.occupies WatchtowerRequest.statusUpdate rfl _
      | bestBlockHeight => exact empty.occupies (fun _ => WatchtowerRequest.bestBlockHeight) rfl ())
    (txIdUhsIds.aligned _ (fun _ => rfl) <| empty.aligned _ (fun _ => rfl) trivial)

def watchtowerResponse : Codec.watchtowerResponse.Layout :=
  variant
    (fun
      | .checkSuccess states => txIdStates.extent 0 states
      | .bestBlockHeight height => uint64.extent 1 height)
    (by
      intro response
      cases response with
      | checkSuccess states => exact txIdStates.occupies WatchtowerResponse.checkSuccess rfl _
      | bestBlockHeight height => exact uint64.occupies WatchtowerResponse.bestBlockHeight rfl _)
    (txIdStates.aligned _ (fun _ => rfl) <| uint64.aligned _ (fun _ => rfl) trivial)

/-- `std::unordered_set<uint64_t>`. -/
def uint64Set : Codec.uint64Set.Layout :=
  @unorderedSet _ _ (Codec.uint64.element 8 _ _ _) uint64

def txNotifyRequest : Codec.txNotifyRequest.Layout :=
  uint64.fields3 compactTx uint64Set ⟨fun _ _ _ => ⟨rfl, rfl, rfl⟩, fun _ => rfl⟩

def atomizerRequest : Codec.atomizerRequest.Layout :=
  variant
    (fun
      | .txNotify request => txNotifyRequest.extent 0 request
      | .prune blockHeight => uint64.extent 1 blockHeight
      | .getBlock blockHeight => uint64.extent 2 blockHeight)
    (by
      intro request
      cases request with
      | txNotify request => exact txNotifyRequest.occupies AtomizerRequest.txNotify rfl _
      | prune blockHeight => exact uint64.occupies AtomizerRequest.prune rfl _
      | getBlock blockHeight => exact uint64.occupies AtomizerRequest.getBlock rfl _)
    (txNotifyRequest.aligned _ (fun _ => rfl) <| uint64.aligned _ (fun _ => rfl) <|
      uint64.aligned _ (fun _ => rfl) trivial)

/-- `aggregate_tx_notification`: the oldest attestation is written first. -/
def aggregateTxNotification : Codec.aggregateTxNotification.Layout :=
  uint64.fields compactTx ⟨fun _ _ => ⟨rfl, rfl⟩, fun _ => rfl⟩

def stateMachineRequest : Codec.stateMachineRequest.Layout :=
  variant
    (fun
      | .aggregateTxNotify aggTxs => (vector aggregateTxNotification).extent 0 aggTxs
      | .makeBlock => empty.extent 1 ()
      | .getBlock blockHeight => uint64.extent 2 blockHeight
      | .prune blockHeight => uint64.extent 3 blockHeight)
    (by
      intro request
      cases request with
      | aggregateTxNotify aggTxs =>
          exact (vector aggregateTxNotification).occupies
            AtomizerStateMachine.Request.aggregateTxNotify rfl _
      | makeBlock => exact empty.occupies (fun _ => AtomizerStateMachine.Request.makeBlock) rfl ()
      | getBlock blockHeight => exact uint64.occupies AtomizerStateMachine.Request.getBlock rfl _
      | prune blockHeight => exact uint64.occupies AtomizerStateMachine.Request.prune rfl _)
    ((vector aggregateTxNotification).aligned _ (fun _ => rfl) <| empty.aligned _ (fun _ => rfl) <|
      uint64.aligned _ (fun _ => rfl) <| uint64.aligned _ (fun _ => rfl) trivial)

def makeBlockResponse : Codec.makeBlockResponse.Layout :=
  block.fields (vector txError) ⟨fun _ _ => ⟨rfl, rfl⟩, fun _ => rfl⟩

def stateMachineResponse : Codec.stateMachineResponse.Layout :=
  variant
    (fun
      | .makeBlock blk errs => makeBlockResponse.extent 0 (blk, errs)
      | .getBlock blk => block.extent 1 blk
      | .errors errs => (vector txError).extent 2 errs)
    (by
      intro response
      cases response with
      | makeBlock blk errs =>
          exact makeBlockResponse.occupies
            (fun response => AtomizerResponse.makeBlock response.1 response.2) rfl (blk, errs)
      | getBlock blk => exact block.occupies AtomizerResponse.getBlock rfl _
      | errors errs => exact (vector txError).occupies AtomizerResponse.errors rfl _)
    (makeBlockResponse.aligned _ (fun _ => rfl) <| block.aligned _ (fun _ => rfl) <|
      (vector txError).aligned _ (fun _ => rfl) trivial)

/-- `std::vector<bool>`, with a byte for each flag. -/
def flags : Codec.flags.Layout :=
  @vector _ (Codec.boolean.element 1 _ _ _) boolean

def lockingShardParams : Codec.lockingShardParams.Layout :=
  variant
    (fun
      | .lock txs => (vector compactTx).extent 0 txs
      | .apply completeTxs => flags.extent 1 completeTxs
      | .discard => empty.extent 2 ())
    (by
      intro params
      cases params with
      | lock txs => exact (vector compactTx).occupies LockingShard.Params.lock rfl _
      | apply completeTxs => exact flags.occupies LockingShard.Params.apply rfl _
      | discard => exact empty.occupies (fun _ => LockingShard.Params.discard) rfl ())
    ((vector compactTx).aligned _ (fun _ => rfl) <| flags.aligned _ (fun _ => rfl) <|
      empty.aligned _ (fun _ => rfl) trivial)

def lockingShardRequest : Codec.lockingShardRequest.Layout :=
  hash.fields lockingShardParams ⟨fun _ _ => ⟨rfl, rfl⟩, fun _ => rfl⟩

def lockingShardResponse : Codec.lockingShardResponse.Layout :=
  variant
    (fun
      | .lock results => flags.extent 0 results
      | .apply => empty.extent 1 ()
      | .discard => empty.extent 2 ())
    (by
      intro response
      cases response with
      | lock results => exact flags.occupies LockingShardResponse.lock rfl _
      | apply => exact empty.occupies (fun _ => LockingShardResponse.apply) rfl ()
      | discard => exact empty.occupies (fun _ => LockingShardResponse.discard) rfl ())
    (flags.aligned _ (fun _ => rfl) <| empty.aligned _ (fun _ => rfl) <|
      empty.aligned _ (fun _ => rfl) trivial)

def statusRequest : Codec.statusRequest.Layout :=
  variant
    (fun
      | .uhsStatus uhsId => hash.extent 0 uhsId
      | .txStatus txId => hash.extent 1 txId)
    (by
      intro request
      cases request with
      | uhsStatus uhsId => exact hash.occupies StatusRequest.uhsStatus rfl _
      | txStatus txId => exact hash.occupies StatusRequest.txStatus rfl _)
    (hash.aligned _ (fun _ => rfl) <| hash.aligned _ (fun _ => rfl) trivial)

def inputError : Codec.inputError.Layout :=
  inputErrorCode.fields3 (optional outputErrorCode) uint64
    ⟨fun _ _ _ => ⟨rfl, rfl, rfl⟩, fun _ => rfl⟩

def outputError : Codec.outputError.Layout :=
  outputErrorCode.fields uint64 ⟨fun _ _ => ⟨rfl, rfl⟩, fun _ => rfl⟩

def witnessError : Codec.witnessError.Layout :=
  witnessErrorCode.fields uint64 ⟨fun _ _ => ⟨rfl, rfl⟩, fun _ => rfl⟩

/-- `validation::tx_error`. -/
def validationError : Codec.validationError.Layout :=
  variant
    (fun
      | .input error => inputError.extent 0 error
      | .output error => outputError.extent 1 error
      | .witness error => witnessError.extent 2 error
      | .tx code => txErrorCode.extent 3 code)
    (by
      intro error
      cases error with
      | input error => exact inputError.occupies ValidationError.input rfl _
      | output error => exact outputError.occupies ValidationError.output rfl _
      | witness error => exact witnessError.occupies ValidationError.witness rfl _
      | tx code => exact txErrorCode.occupies ValidationError.tx rfl _)
    (inputError.aligned _ (fun _ => rfl) <| outputError.aligned _ (fun _ => rfl) <|
      witnessError.aligned _ (fun _ => rfl) <| txErrorCode.aligned _ (fun _ => rfl) trivial)

def executeResponse : Codec.executeResponse.Layout :=
  txStatus.fields (optional validationError) ⟨fun _ _ => ⟨rfl, rfl⟩, fun _ => rfl⟩

def sentinelRequest : Codec.sentinelRequest.Layout :=
  variant
    (fun
      | .execute tx => fullTx.extent 0 tx
      | .validate tx => fullTx.extent 1 tx)
    (by
      intro request
      cases request with
      | execute tx => exact fullTx.occupies SentinelRequest.execute rfl _
      | validate tx => exact fullTx.occupies SentinelRequest.validate rfl _)
    (fullTx.aligned _ (fun _ => rfl) <| fullTx.aligned _ (fun _ => rfl) trivial)

def sentinelAttestation : Codec.sentinelAttestation.Layout := pair hash signature

def sentinelResponse : Codec.sentinelResponse.Layout :=
  variant
    (fun
      | .execute response => executeResponse.extent 0 response
      | .validate attestation => sentinelAttestation.extent 1 attestation)
    (by
      intro response
      cases response with
      | execute response => exact executeResponse.occupies SentinelResponse.execute rfl _
      | validate attestation => exact sentinelAttestation.occupies SentinelResponse.validate rfl _)
    (executeResponse.aligned _ (fun _ => rfl) <|
      sentinelAttestation.aligned _ (fun _ => rfl) trivial)

def rpcRequest {α : Type} {payload : Codec α} (layout : payload.Layout) :
    (Codec.rpcRequest payload).Layout :=
  uint64.fields layout ⟨fun _ _ => ⟨rfl, rfl⟩, fun _ => rfl⟩

def rpcResponse {α : Type} {payload : Codec α} (layout : payload.Layout) :
    (Codec.rpcResponse payload).Layout :=
  uint64.fields (optional layout) ⟨fun _ _ => ⟨rfl, rfl⟩, fun _ => rfl⟩

/-- `m_keys` of a wallet. -/
def walletKeys : Codec.walletKeys.Layout := unorderedMap hash hash _

/-- `m_utxos_set` of a wallet. -/
def walletUtxos : Codec.walletUtxos.Layout :=
  set (.table _ (fun coin => ⟨coin.1, coin.2⟩) (fun _ => rfl) fun _ => rfl) input _

def walletFile : Codec.walletFile.Layout :=
  walletKeys.fields walletUtxos ⟨fun _ _ => ⟨rfl, rfl⟩, fun _ => rfl⟩

/-- `commit_tx`: the completion flags, and for each shard the indices of its
transactions. -/
def commitTx : Codec.commitTx.Layout :=
  pair flags
    (@vector _ ((Codec.vector (Codec.uint64.element 8 _ _ _)).element 24 _ _ _)
      (@vector _ (Codec.uint64.element 8 _ _ _) uint64))

def prepareTxs : Codec.prepareTxs.Layout :=
  @unorderedMap _ _ _ _ _ _
    ((Codec.vector Codec.compactTx).element 24 _ _ _) hash (vector compactTx) _

def commitTxs : Codec.commitTxs.Layout := unorderedMap hash commitTx _

def coordinatorState : Codec.coordinatorState.Layout :=
  prepareTxs.fields3 commitTxs (unorderedSet hash) ⟨fun _ _ _ => ⟨rfl, rfl, rfl⟩, fun _ => rfl⟩

end Layout

namespace MessageType

def layout : (type : MessageType) → type.codec.Layout
  | .integer => Layout.uint64
  | .flag => Layout.boolean
  | .input => Layout.input
  | .fullTx => Layout.fullTx
  | .compactTx => Layout.compactTx
  | .block => Layout.block
  | .optionalBlock => Layout.optional Layout.block
  | .txError => Layout.txError
  | .txErrors => Layout.vector Layout.txError
  | .watchtowerRequest => Layout.watchtowerRequest
  | .watchtowerResponse => Layout.watchtowerResponse
  | .atomizerRequest => Layout.atomizerRequest
  | .stateMachineRequest => Layout.stateMachineRequest
  | .stateMachineResponse => Layout.stateMachineResponse
  | .lockingShardRequest => Layout.lockingShardRequest
  | .lockingShardResponse => Layout.lockingShardResponse
  | .statusRequest => Layout.statusRequest
  | .sentinelRequest => Layout.sentinelRequest
  | .sentinelResponse => Layout.sentinelResponse
  | .coordinatorState => Layout.coordinatorState
  | .walletFile => Layout.walletFile
  | .rpcRequest payload => Layout.rpcRequest payload.layout
  | .rpcResponse payload => Layout.rpcResponse payload.layout

end MessageType
end OpenCbdc.Serialization

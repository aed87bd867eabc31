import OpenCbdc.Atomizer.StateMachine
import OpenCbdc.Coordinator.StateMachine
import OpenCbdc.LockingShard.Shard
import OpenCbdc.Serialization.Transactions

/-! The messages that the parts of the program exchange or store, and their
serializer operators. -/
namespace OpenCbdc

namespace Wire

/-- `atomizer::tx_notify_request`, with its attestations as a set. -/
structure TxNotification where
  blockHeight : Nat
  tx : CompactTx
  attestations : Finset Nat
deriving DecidableEq

inductive AtomizerRequest where
  | txNotify (request : TxNotification)
  | prune (blockHeight : Nat)
  | getBlock (blockHeight : Nat)
deriving DecidableEq

/-- `atomizer::state_machine::response`, with its errors as a vector. -/
inductive AtomizerResponse where
  | makeBlock (blk : Block) (errs : List TxError)
  | getBlock (blk : Block)
  | errors (errs : List TxError)
deriving DecidableEq

/-- A value of an enumeration. One that was read need not have a name. -/
inductive EnumValue (α : Type) where
  | named (value : α)
  | unnamed (code : Nat)
deriving DecidableEq

inductive SearchStatus where
  | noHistory
  | unspent
  | spent
  | txRejected
  | invalidInput
  | internalError
deriving DecidableEq

structure StatusUpdateState where
  status : EnumValue SearchStatus
  blockHeight : Nat
  uhsId : Hash
deriving DecidableEq

inductive WatchtowerRequest where
  | statusUpdate (uhsIds : Finmap fun _ : Hash => List Hash)
  | bestBlockHeight
deriving DecidableEq

inductive WatchtowerResponse where
  | checkSuccess (states : Finmap fun _ : Hash => List StatusUpdateState)
  | bestBlockHeight (height : Nat)
deriving DecidableEq

inductive LockingShardResponse where
  | lock (results : List Bool)
  | apply
  | discard
deriving DecidableEq

inductive StatusRequest where
  | uhsStatus (uhsId : Hash)
  | txStatus (txId : Hash)
deriving DecidableEq

inductive InputErrorCode where
  | duplicate
  | dataError
deriving DecidableEq

inductive OutputErrorCode where
  | zeroValue
deriving DecidableEq

inductive WitnessErrorCode where
  | missingWitnessProgramType
  | unknownWitnessProgramType
  | malformed
  | programMismatch
  | invalidPublicKey
  | invalidSignature
deriving DecidableEq

inductive TxErrorCode where
  | noInputs
  | noOutputs
  | missingWitness
  | asymmetricValues
  | valueOverflow
deriving DecidableEq

structure InputError where
  code : EnumValue InputErrorCode
  dataErr : Option (EnumValue OutputErrorCode)
  idx : Nat
deriving DecidableEq

structure OutputError where
  code : EnumValue OutputErrorCode
  idx : Nat
deriving DecidableEq

structure WitnessError where
  code : EnumValue WitnessErrorCode
  idx : Nat
deriving DecidableEq

/-- `validation::tx_error`. -/
inductive ValidationError where
  | input (error : InputError)
  | output (error : OutputError)
  | witness (error : WitnessError)
  | tx (code : EnumValue TxErrorCode)
deriving DecidableEq

inductive TxStatus where
  | pending
  | staticInvalid
  | stateInvalid
  | confirmed
deriving DecidableEq

structure ExecuteResponse where
  txStatus : EnumValue TxStatus
  txError : Option ValidationError
deriving DecidableEq

inductive SentinelRequest where
  | execute (tx : FullTx)
  | validate (tx : FullTx)
deriving DecidableEq

inductive SentinelResponse where
  | execute (response : ExecuteResponse)
  | validate (attestation : PubKey × Signature)
deriving DecidableEq

structure RpcRequest (α : Type) where
  header : Nat
  payload : α

structure RpcResponse (α : Type) where
  header : Nat
  payload : Option α

/-- What a wallet writes to its file. The outputs it can spend are ordered and
compared by their out points. -/
structure WalletFile where
  keys : Finmap fun _ : PubKey => Vector UInt8 32
  utxos : Finmap fun _ : OutPoint => Output

end Wire

namespace Serialization

open Decoder

namespace Enumeration

open Wire

variable {α : Type} [DecidableEq α]

/-- `static_cast` to the underlying type. The names are numbered from zero. -/
def toCode (names : List α) : EnumValue α → Nat
  | .named value => names.idxOf value
  | .unnamed code => code

omit [DecidableEq α] in
/-- `static_cast` from the underlying type. -/
def ofCode (names : List α) (code : Nat) : EnumValue α :=
  match names[code]? with
  | some value => .named value
  | none => .unnamed code

/-- A value of the enumeration: one of its names, or a number that has none. -/
def Valid (names : List α) : EnumValue α → Prop
  | .named value => value ∈ names
  | .unnamed code => names.length ≤ code

theorem ofCode_toCode {names : List α} {value : EnumValue α} (h : Valid names value) :
    ofCode names (toCode names value) = value := by
  cases value with
  | named value => simp [ofCode, toCode, List.getElem?_idxOf h]
  | unnamed code => simp [ofCode, toCode, List.getElem?_eq_none h]

end Enumeration

namespace Codec

open Wire Enumeration

/-- An enumeration with this underlying type. -/
def enumeration {α : Type} [DecidableEq α] (names : List α) (underlying : Codec Nat) :
    Codec (EnumValue α) :=
  underlying.via (fun value => Valid names value ∧ underlying.Fits (toCode names value))
    (toCode names) (ofCode names) fun _ h => ⟨h.2, ofCode_toCode h.1⟩

def searchStatus : Codec (EnumValue SearchStatus) :=
  enumeration [.noHistory, .unspent, .spent, .txRejected, .invalidInput, .internalError] uint32

def inputErrorCode : Codec (EnumValue InputErrorCode) :=
  enumeration [.duplicate, .dataError] uint8

def outputErrorCode : Codec (EnumValue OutputErrorCode) := enumeration [.zeroValue] uint8

def witnessErrorCode : Codec (EnumValue WitnessErrorCode) :=
  enumeration [.missingWitnessProgramType, .unknownWitnessProgramType, .malformed,
    .programMismatch, .invalidPublicKey, .invalidSignature] uint8

def txErrorCode : Codec (EnumValue TxErrorCode) :=
  enumeration [.noInputs, .noOutputs, .missingWitness, .asymmetricValues, .valueOverflow] uint8

def txStatus : Codec (EnumValue TxStatus) :=
  enumeration [.pending, .staticInvalid, .stateInvalid, .confirmed] uint32

def block : Codec Block :=
  record uint64 (vector compactTx) Block.mk Block.height Block.transactions fun _ => rfl

def txErrorInfo : Codec TxErrorInfo :=
  variant [empty.alternative fun _ => .sync, (vector hash).alternative .inputsDne,
      empty.alternative fun _ => .stxoRange, empty.alternative fun _ => .incomplete,
      (unorderedSet hash).alternative .inputsSpent] (by decide)
    (fun
      | .sync => empty.argument 0 ()
      | .inputsDne inputUhsIds => (vector hash).argument 1 inputUhsIds
      | .stxoRange => empty.argument 2 ()
      | .incomplete => empty.argument 3 ()
      | .inputsSpent inputUhsIds => (unorderedSet hash).argument 4 inputUhsIds)
    (by
      intro info
      cases info with
      | sync => exact empty.selects (fun _ => TxErrorInfo.sync) rfl ()
      | inputsDne inputUhsIds => exact (vector hash).selects TxErrorInfo.inputsDne rfl _
      | stxoRange => exact empty.selects (fun _ => TxErrorInfo.stxoRange) rfl ()
      | incomplete => exact empty.selects (fun _ => TxErrorInfo.incomplete) rfl ()
      | inputsSpent inputUhsIds =>
          exact (unorderedSet hash).selects TxErrorInfo.inputsSpent rfl _)

def txError : Element TxError :=
  (record hash.toCodec txErrorInfo TxError.mk TxError.txId TxError.info fun _ => rfl).element 48
    (by decide) (by decide) (by decide)

def statusUpdateState : Element StatusUpdateState :=
  (record3 searchStatus uint64 hash.toCodec StatusUpdateState.mk StatusUpdateState.status
    StatusUpdateState.blockHeight StatusUpdateState.uhsId fun _ => rfl).element 48
    (by decide) (by decide) (by decide)

def txIdUhsIds : Codec (Finmap fun _ : Hash => List Hash) :=
  unorderedMap hash ((vector hash).element 24 (by decide) vectorSize_pos vectorSize_le) (by decide)

def txIdStates : Codec (Finmap fun _ : Hash => List StatusUpdateState) :=
  unorderedMap hash
    ((vector statusUpdateState).element 24 (by decide) vectorSize_pos vectorSize_le) (by decide)

def watchtowerRequest : Codec WatchtowerRequest :=
  variant [txIdUhsIds.alternative .statusUpdate, empty.alternative fun _ => .bestBlockHeight]
    (by decide)
    (fun
      | .statusUpdate uhsIds => txIdUhsIds.argument 0 uhsIds
      | .bestBlockHeight => empty.argument 1 ())
    (by
      intro request
      cases request with
      | statusUpdate uhsIds => exact txIdUhsIds.selects WatchtowerRequest.statusUpdate rfl _
      | bestBlockHeight => exact empty.selects (fun _ => WatchtowerRequest.bestBlockHeight) rfl ())

def watchtowerResponse : Codec WatchtowerResponse :=
  variant [txIdStates.alternative .checkSuccess, uint64.alternative .bestBlockHeight] (by decide)
    (fun
      | .checkSuccess states => txIdStates.argument 0 states
      | .bestBlockHeight height => uint64.argument 1 height)
    (by
      intro response
      cases response with
      | checkSuccess states => exact txIdStates.selects WatchtowerResponse.checkSuccess rfl _
      | bestBlockHeight height => exact uint64.selects WatchtowerResponse.bestBlockHeight rfl _)

/-- `std::unordered_set<uint64_t>`. -/
def uint64Set : Codec (Finset Nat) :=
  unorderedSet (uint64.element 8 least_uint64_pos wordSize_pos wordSize_le)

def txNotifyRequest : Codec TxNotification :=
  record3 uint64 compactTx.toCodec uint64Set TxNotification.mk TxNotification.blockHeight
    TxNotification.tx TxNotification.attestations fun _ => rfl

def atomizerRequest : Codec AtomizerRequest :=
  variant [txNotifyRequest.alternative .txNotify, uint64.alternative .prune,
      uint64.alternative .getBlock] (by decide)
    (fun
      | .txNotify request => txNotifyRequest.argument 0 request
      | .prune blockHeight => uint64.argument 1 blockHeight
      | .getBlock blockHeight => uint64.argument 2 blockHeight)
    (by
      intro request
      cases request with
      | txNotify request => exact txNotifyRequest.selects AtomizerRequest.txNotify rfl _
      | prune blockHeight => exact uint64.selects AtomizerRequest.prune rfl _
      | getBlock blockHeight => exact uint64.selects AtomizerRequest.getBlock rfl _)

/-- `aggregate_tx_notification`: the oldest attestation is written first. -/
def aggregateTxNotification : Element AggregateTxNotification :=
  (record uint64 compactTx.toCodec (fun oldestAttestation tx => ⟨tx, oldestAttestation⟩)
    AggregateTxNotification.oldestAttestation AggregateTxNotification.tx fun _ => rfl).element 144
    (by decide) (by decide) (by decide)

def stateMachineRequest : Codec AtomizerStateMachine.Request :=
  variant [(vector aggregateTxNotification).alternative .aggregateTxNotify,
      empty.alternative fun _ => .makeBlock, uint64.alternative .getBlock,
      uint64.alternative .prune] (by decide)
    (fun
      | .aggregateTxNotify aggTxs => (vector aggregateTxNotification).argument 0 aggTxs
      | .makeBlock => empty.argument 1 ()
      | .getBlock blockHeight => uint64.argument 2 blockHeight
      | .prune blockHeight => uint64.argument 3 blockHeight)
    (by
      intro request
      cases request with
      | aggregateTxNotify aggTxs =>
          exact (vector aggregateTxNotification).selects
            AtomizerStateMachine.Request.aggregateTxNotify rfl _
      | makeBlock => exact empty.selects (fun _ => AtomizerStateMachine.Request.makeBlock) rfl ()
      | getBlock blockHeight => exact uint64.selects AtomizerStateMachine.Request.getBlock rfl _
      | prune blockHeight => exact uint64.selects AtomizerStateMachine.Request.prune rfl _)

def makeBlockResponse : Codec (Block × List TxError) :=
  record block (vector txError) Prod.mk Prod.fst Prod.snd fun _ => rfl

def stateMachineResponse : Codec AtomizerResponse :=
  variant [makeBlockResponse.alternative fun response => .makeBlock response.1 response.2,
      block.alternative .getBlock, (vector txError).alternative .errors] (by decide)
    (fun
      | .makeBlock blk errs => makeBlockResponse.argument 0 (blk, errs)
      | .getBlock blk => block.argument 1 blk
      | .errors errs => (vector txError).argument 2 errs)
    (by
      intro response
      cases response with
      | makeBlock blk errs =>
          exact makeBlockResponse.selects
            (fun response => AtomizerResponse.makeBlock response.1 response.2) rfl (blk, errs)
      | getBlock blk => exact block.selects AtomizerResponse.getBlock rfl _
      | errors errs => exact (vector txError).selects AtomizerResponse.errors rfl _)

/-- `std::vector<bool>`, with a byte for each flag. -/
def flags : Codec (List Bool) :=
  vector (boolean.element 1 (by decide) Nat.one_pos byteSize_le)

def lockingShardParams : Codec LockingShard.Params :=
  variant [(vector compactTx).alternative .lock, flags.alternative .apply,
      empty.alternative fun _ => .discard] (by decide)
    (fun
      | .lock txs => (vector compactTx).argument 0 txs
      | .apply completeTxs => flags.argument 1 completeTxs
      | .discard => empty.argument 2 ())
    (by
      intro params
      cases params with
      | lock txs => exact (vector compactTx).selects LockingShard.Params.lock rfl _
      | apply completeTxs => exact flags.selects LockingShard.Params.apply rfl _
      | discard => exact empty.selects (fun _ => LockingShard.Params.discard) rfl ())

def lockingShardRequest : Codec LockingShard.Request :=
  record hash.toCodec lockingShardParams LockingShard.Request.mk LockingShard.Request.dtxId
    LockingShard.Request.params fun _ => rfl

def lockingShardResponse : Codec LockingShardResponse :=
  variant [flags.alternative .lock, empty.alternative fun _ => .apply,
      empty.alternative fun _ => .discard] (by decide)
    (fun
      | .lock results => flags.argument 0 results
      | .apply => empty.argument 1 ()
      | .discard => empty.argument 2 ())
    (by
      intro response
      cases response with
      | lock results => exact flags.selects LockingShardResponse.lock rfl _
      | apply => exact empty.selects (fun _ => LockingShardResponse.apply) rfl ()
      | discard => exact empty.selects (fun _ => LockingShardResponse.discard) rfl ())

def statusRequest : Codec StatusRequest :=
  variant [hash.alternative .uhsStatus, hash.alternative .txStatus] (by decide)
    (fun
      | .uhsStatus uhsId => hash.argument 0 uhsId
      | .txStatus txId => hash.argument 1 txId)
    (by
      intro request
      cases request with
      | uhsStatus uhsId => exact hash.selects StatusRequest.uhsStatus rfl _
      | txStatus txId => exact hash.selects StatusRequest.txStatus rfl _)

def inputError : Codec InputError :=
  record3 inputErrorCode (optional outputErrorCode) uint64 InputError.mk InputError.code
    InputError.dataErr InputError.idx fun _ => rfl

def outputError : Codec OutputError :=
  record outputErrorCode uint64 OutputError.mk OutputError.code OutputError.idx fun _ => rfl

def witnessError : Codec WitnessError :=
  record witnessErrorCode uint64 WitnessError.mk WitnessError.code WitnessError.idx fun _ => rfl

/-- `validation::tx_error`. -/
def validationError : Codec ValidationError :=
  variant [inputError.alternative .input, outputError.alternative .output,
      witnessError.alternative .witness, txErrorCode.alternative .tx] (by decide)
    (fun
      | .input error => inputError.argument 0 error
      | .output error => outputError.argument 1 error
      | .witness error => witnessError.argument 2 error
      | .tx code => txErrorCode.argument 3 code)
    (by
      intro error
      cases error with
      | input error => exact inputError.selects ValidationError.input rfl _
      | output error => exact outputError.selects ValidationError.output rfl _
      | witness error => exact witnessError.selects ValidationError.witness rfl _
      | tx code => exact txErrorCode.selects ValidationError.tx rfl _)

def executeResponse : Codec ExecuteResponse :=
  record txStatus (optional validationError) ExecuteResponse.mk ExecuteResponse.txStatus
    ExecuteResponse.txError fun _ => rfl

def sentinelRequest : Codec SentinelRequest :=
  variant [fullTx.alternative .execute, fullTx.alternative .validate] (by decide)
    (fun
      | .execute tx => fullTx.argument 0 tx
      | .validate tx => fullTx.argument 1 tx)
    (by
      intro request
      cases request with
      | execute tx => exact fullTx.selects SentinelRequest.execute rfl _
      | validate tx => exact fullTx.selects SentinelRequest.validate rfl _)

def sentinelAttestation : Codec (PubKey × Signature) := pair hash.toCodec signature.toCodec

def sentinelResponse : Codec SentinelResponse :=
  variant [executeResponse.alternative .execute, sentinelAttestation.alternative .validate]
    (by decide)
    (fun
      | .execute response => executeResponse.argument 0 response
      | .validate attestation => sentinelAttestation.argument 1 attestation)
    (by
      intro response
      cases response with
      | execute response => exact executeResponse.selects SentinelResponse.execute rfl _
      | validate attestation =>
          exact sentinelAttestation.selects SentinelResponse.validate rfl _)

def rpcRequest {α : Type} (payload : Codec α) : Codec (RpcRequest α) :=
  record uint64 payload RpcRequest.mk RpcRequest.header RpcRequest.payload fun _ => rfl

def rpcResponse {α : Type} (payload : Codec α) : Codec (RpcResponse α) :=
  record uint64 (optional payload) RpcResponse.mk RpcResponse.header RpcResponse.payload
    fun _ => rfl

/-- `m_keys` of a wallet. -/
def walletKeys : Codec (Finmap fun _ : PubKey => Vector UInt8 32) :=
  unorderedMap hash hash (by decide)

/-- `m_utxos_set` of a wallet. -/
def walletUtxos : Codec (Finmap fun _ : OutPoint => Output) :=
  set (.table fun inp : Input => (inp.prevout, inp.prevoutData)) input.toCodec (by decide)

def walletFile : Codec WalletFile :=
  record walletKeys walletUtxos WalletFile.mk WalletFile.keys WalletFile.utxos fun _ => rfl

/-- `commit_tx`: the completion flags, and for each shard the indices of its
transactions. -/
def commitTx : Element (List Bool × List (List Nat)) :=
  (pair flags (vector ((vector (uint64.element 8 least_uint64_pos wordSize_pos wordSize_le)).element
    24 (by decide) vectorSize_pos vectorSize_le))).element 48 (by decide) (by decide) (by decide)

def prepareTxs : Codec (Finmap fun _ : Hash => List CompactTx) :=
  unorderedMap hash ((vector compactTx).element 24 (by decide) vectorSize_pos vectorSize_le)
    (by decide)

def commitTxs : Codec (Finmap fun _ : Hash => List Bool × List (List Nat)) :=
  unorderedMap hash commitTx (by decide)

def coordinatorState : Codec CoordinatorState :=
  record3 prepareTxs commitTxs (unorderedSet hash) CoordinatorState.mk CoordinatorState.prepareTxs
    CoordinatorState.commitTxs CoordinatorState.discardTxs fun _ => rfl

end Codec
end Serialization
end OpenCbdc

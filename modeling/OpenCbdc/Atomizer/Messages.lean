import OpenCbdc.Transaction.CompactTx

/-! The messages between shards, atomizers and watchtowers. Block heights are
64-bit integers in the source; they count blocks from 0, so a natural number
stands for them. -/
namespace OpenCbdc

inductive TxErrorInfo where
  | sync
  | inputsDne (inputUhsIds : List Hash)
  | stxoRange
  | incomplete
  | inputsSpent (inputUhsIds : Finset Hash)
deriving DecidableEq

structure TxError where
  txId : Hash
  info : TxErrorInfo
deriving DecidableEq

structure Block where
  height : Nat
  transactions : List CompactTx
deriving DecidableEq

/-- `atomizer::tx_notify_request`: the indices of the inputs that a shard found
unspent as of a height. The unordered set of indices is the list of its elements
in the order in which a receiver goes through it. -/
structure TxNotifyRequest where
  tx : CompactTx
  attestations : List Nat
  blockHeight : Nat
deriving DecidableEq

structure AggregateTxNotification where
  tx : CompactTx
  oldestAttestation : Nat
deriving DecidableEq

end OpenCbdc

import OpenCbdc.Serialization.Codec
import OpenCbdc.Transaction.CompactTx

/-! Full transactions, the hashes that are taken of their parts, and the compact
transactions that are made from them. -/
namespace OpenCbdc

open Serialization

structure OutPoint where
  txId : Hash
  index : UInt64
deriving DecidableEq, Inhabited

structure Output where
  witnessProgramCommitment : Hash
  value : UInt64
deriving DecidableEq, Inhabited

structure Input where
  prevout : OutPoint
  prevoutData : Output
deriving DecidableEq, Inhabited

structure FullTx where
  inputs : List Input
  outputs : List Output
  witness : List (List UInt8)
deriving DecidableEq, Inhabited

def putOutPoint (op : OutPoint) : List UInt8 := putArray op.txId ++ putUInt64 op.index.toNat

def putOutput (out : Output) : List UInt8 :=
  putArray out.witnessProgramCommitment ++ putUInt64 out.value.toNat

def putInput (inp : Input) : List UInt8 := putOutPoint inp.prevout ++ putOutput inp.prevoutData

def Input.hash (crypto : Crypto) (inp : Input) : Hash := crypto.sha256 (putInput inp)

def txIdBytes (tx : FullTx) : List UInt8 :=
  putVector putInput tx.inputs ++ putVector putOutput tx.outputs

def txId (crypto : Crypto) (tx : FullTx) : Hash := crypto.sha256 (txIdBytes tx)

def inputFromOutput (crypto : Crypto) (tx : FullTx) (i : Nat) : Option Input :=
  (tx.outputs[i]?).map fun out => ⟨⟨txId crypto tx, UInt64.ofNat i⟩, out⟩

def uhsIdBytes (entropy : Hash) (i : UInt64) (out : Output) : List UInt8 :=
  putArray entropy ++ putUInt64 i.toNat ++ putOutput out

def uhsIdFromOutput (crypto : Crypto) (entropy : Hash) (i : UInt64) (out : Output) : Hash :=
  crypto.sha256 (uhsIdBytes entropy i out)

/-- The constructor `compact_tx(const full_tx&)`. -/
def CompactTx.ofFullTx (crypto : Crypto) (tx : FullTx) : CompactTx where
  id := txId crypto tx
  inputs := tx.inputs.map (Input.hash crypto)
  uhsOutputs := tx.outputs.mapIdx fun i out =>
    uhsIdFromOutput crypto (txId crypto tx) (UInt64.ofNat i) out
  attestations := ∅

end OpenCbdc

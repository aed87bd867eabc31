import OpenCbdc.Serialization.Format
import Mathlib.Data.Finmap

/-! Compact transactions and the check of their sentinel attestations. -/
namespace OpenCbdc

abbrev PubKey := Vector UInt8 32
abbrev Signature := Vector UInt8 64

/-- The cryptographic primitives of SHA-256 and libsecp256k1 that the program
calls. Nothing is assumed about them here. -/
structure Crypto where
  sha256 : List UInt8 → Hash
  XonlyPubkey : Type
  xonlyPubkeyParse : PubKey → Option XonlyPubkey
  schnorrsigVerify : Signature → Hash → XonlyPubkey → Bool

/-- `transaction::compact_tx`. The attestations are a map from the public key
of a sentinel to its signature. -/
structure CompactTx where
  id : Hash
  inputs : List Hash
  uhsOutputs : List Hash
  attestations : Finmap fun _ : PubKey => Signature
deriving DecidableEq

/-- The part of `config::options` that the attestation check reads. -/
structure Options where
  sentinelPublicKeys : Finset PubKey
  attestationThreshold : Nat

namespace CompactTx

/-- `compact_tx::hash`. The attestations are cleared before the transaction is
serialized, so only the length of an empty map stands in their place. -/
def hash (crypto : Crypto) (tx : CompactTx) : Hash :=
  crypto.sha256 (Serialization.putArray tx.id
    ++ Serialization.putVector Serialization.putArray tx.inputs
    ++ Serialization.putVector Serialization.putArray tx.uhsOutputs
    ++ Serialization.putUInt64 0)

def verify (crypto : Crypto) (tx : CompactTx) (key : PubKey) (signature : Signature) : Bool :=
  match crypto.xonlyPubkeyParse key with
  | none => false
  | some pubkey => crypto.schnorrsigVerify signature (tx.hash crypto) pubkey

def unattested (id : Hash) (inputs uhsOutputs : List Hash) : CompactTx :=
  { id := id, inputs := inputs, uhsOutputs := uhsOutputs, attestations := ∅ }

end CompactTx

/-- The options of the unit tests: no attestation is asked for. -/
def Options.noAttestations : Options := { sentinelPublicKeys := ∅, attestationThreshold := 0 }

/-- Primitives for fixed runs without attestations, which call none of them. -/
def Crypto.unused : Crypto :=
  { sha256 := fun _ => Hash.ofByte 0
    XonlyPubkey := Unit
    xonlyPubkeyParse := fun _ => none
    schnorrsigVerify := fun _ _ _ => false }

def checkAttestations (crypto : Crypto) (tx : CompactTx) (opts : Options) : Bool :=
  if tx.attestations.keys.card < opts.attestationThreshold then false
  else tx.attestations.all fun key signature =>
    decide (key ∈ opts.sentinelPublicKeys) && tx.verify crypto key signature

end OpenCbdc

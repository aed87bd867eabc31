import OpenCbdc.Common.Config
import OpenCbdc.Library.Run
import OpenCbdc.Library.Table
import OpenCbdc.Transaction.FullTx

/-! The sentinel of the two-phase commit architecture: it attests a transaction
itself, asks randomly chosen other sentinels for theirs, and sends the compact
transaction to a coordinator once it has enough. -/
namespace OpenCbdc

/-- The primitives of libsecp256k1 that a sentinel signs with. -/
structure Signing where
  pubkeyFromPrivkey : PrivKey → PubKey
  schnorrsigSign : Hash → PrivKey → Signature

abbrev SentinelAttestation := PubKey × Signature

namespace CompactTx

def sign (crypto : Crypto) (signing : Signing) (tx : CompactTx) (key : PrivKey) :
    SentinelAttestation :=
  (signing.pubkeyFromPrivkey key, signing.schnorrsigSign (tx.hash crypto) key)

/-- `m_attestations.insert`. -/
def insertAttestation (tx : CompactTx) (attestation : SentinelAttestation) : CompactTx :=
  { tx with attestations := Table.emplace tx.attestations attestation.1 attestation.2 }

end CompactTx

/-- What the code of a sentinel calls: the primitives and `check_tx`. -/
structure SentinelCalls (ValidationError : Type) where
  crypto : Crypto
  signing : Signing
  checkTx : FullTx → Option ValidationError

namespace Sentinel

variable {ValidationError : Type}

/-- `sentinel_2pc::controller`. A client is the endpoint it connects to. -/
structure Controller where
  sentinelId : Nat
  opts : ConfigOptions
  privkey : PrivKey
  sentinelClients : List Endpoint

/-- `controller::init`, where every connection can be made. -/
def init (sentinelId : Nat) (opts : ConfigOptions) : Option Controller :=
  match opts.sentinelPrivateKeys.lookup sentinelId, opts.sentinelEndpoints[sentinelId]? with
  | some privkey, some ownEp => some {
      sentinelId := sentinelId
      opts := opts
      privkey := privkey
      sentinelClients := opts.sentinelEndpoints.filter fun ep => !decide (ep = ownEp) }
  | _, _ => none

/-- Where the execution of a transaction stands: in the loop of
`gather_attestations`, before the answer of a client, or at its end. The last
end is the access to a client that does not exist. -/
inductive Phase (ValidationError : Type) where
  | choosing (ctx : CompactTx) (requested : Finset Nat)
  | waiting (ctx : CompactTx) (requested : Finset Nat) (sentinelId : Nat)
  | sent (ctx : CompactTx)
  | staticInvalid (validationErr : ValidationError)
  | refused
  | outOfBounds

/-- The execution of a transaction, and the clients that were asked so far. -/
structure Execution (ValidationError : Type) where
  phase : Phase ValidationError
  requests : List Nat

/-- `controller::gather_attestations`, up to its loop. -/
def gatherAttestations (controller : Controller) (ctx : CompactTx) (requested : Finset Nat) :
    Phase ValidationError :=
  if ctx.attestations.keys.card < controller.opts.attestationThreshold then
    .choosing ctx requested
  else .sent ctx

def executeTransaction (calls : SentinelCalls ValidationError) (controller : Controller)
    (tx : FullTx) : Execution ValidationError :=
  match calls.checkTx tx with
  | some validationErr => ⟨.staticInvalid validationErr, []⟩
  | none =>
      let compactTx := CompactTx.ofFullTx calls.crypto tx
      let attested :=
        if 0 < controller.opts.attestationThreshold then
          compactTx.insertAttestation
            (compactTx.sign calls.crypto calls.signing controller.privkey)
        else compactTx
      ⟨gatherAttestations controller attested ∅, []⟩

/-- `controller::validate_transaction` of a sentinel with this key. -/
def validateTransaction (calls : SentinelCalls ValidationError) (privkey : PrivKey)
    (tx : FullTx) : Option SentinelAttestation :=
  match calls.checkTx tx with
  | some _ => none
  | none => some ((CompactTx.ofFullTx calls.crypto tx).sign calls.crypto calls.signing privkey)

/-- The largest value of `m_dist`. It is a 64-bit integer, also without clients. -/
def lastChoice (controller : Controller) : Nat :=
  (controller.sentinelClients.length + (2 ^ 64 - 1)) % 2 ^ 64

/-- A random choice, with whether the request can be sent, and the answer to it. -/
inductive Event where
  | choose (sentinelId : Nat) (success : Bool)
  | answer (vRes : Option SentinelAttestation)
deriving DecidableEq

/-- A round of the loop in `gather_attestations`. -/
def choose (controller : Controller) (execution : Execution ValidationError) (sentinelId : Nat)
    (success : Bool) : Option (Execution ValidationError) :=
  match execution.phase with
  | .choosing ctx requested =>
      if lastChoice controller < sentinelId then none
      else if sentinelId ∈ requested then some execution
      else
        match controller.sentinelClients[sentinelId]? with
        | none => some { execution with phase := .outOfBounds }
        | some _ =>
            if success then some {
              phase := .waiting ctx requested sentinelId
              requests := execution.requests ++ [sentinelId] }
            else some execution
  | _ => none

/-- The callback of a request, with `controller::validate_result_handler`. -/
def answer (controller : Controller) (execution : Execution ValidationError)
    (vRes : Option SentinelAttestation) : Option (Execution ValidationError) :=
  match execution.phase with
  | .waiting ctx requested sentinelId =>
      match vRes with
      | none => some { execution with phase := .refused }
      | some attestation => some { execution with
          phase := gatherAttestations controller (ctx.insertAttestation attestation)
            (insert sentinelId requested) }
  | _ => none

def step (controller : Controller) (execution : Execution ValidationError) :
    Event → Option (Execution ValidationError)
  | .choose sentinelId success => choose controller execution sentinelId success
  | .answer vRes => answer controller execution vRes

end Sentinel
end OpenCbdc

import OpenCbdc.Transaction.CompactTx

/-! The options of a deployment: how the sentinels are read from the
configuration file, and which options are accepted. -/
namespace OpenCbdc

abbrev PrivKey := Vector UInt8 32

/-- `network::endpoint_t`. -/
abbrev Endpoint := String × UInt16

/-- The part of `config::options` that the sentinels and `check_options` read. -/
structure ConfigOptions extends Options where
  twophaseMode : Bool
  sentinelEndpoints : List Endpoint
  sentinelPrivateKeys : Finmap fun _ : Nat => PrivKey
  lockingShardEndpoints : List (List Endpoint)
  coordinatorEndpoints : List (List Endpoint)
  watchtowerClientEndpoints : List Endpoint
  archiverEndpoints : List Endpoint
  shardEndpoints : List Endpoint
  atomizerEndpoints : List Endpoint
  seedFrom : Nat
  seedTo : Nat
  seedValue : Nat

namespace Config

/-- The lookups of `config::parser`. A string that is to be a key is decoded by
`hash_from_hex`. -/
structure Parser where
  getUlong : String → Option UInt64
  getEndpoint : String → Option Endpoint
  getKey : String → Option (Vector UInt8 32)

/-- `get_sentinel_key_prefix`, with what comes after it. -/
def getSentinelKey (sentinelId : Nat) (suffix : String) : String :=
  "sentinel" ++ toString sentinelId ++ "_" ++ suffix

def getSentinelEndpointKey (sentinelId : Nat) : String := getSentinelKey sentinelId "endpoint"

def getSentinelPrivateKeyKey (sentinelId : Nat) : String :=
  getSentinelKey sentinelId "private_key"

def getSentinelPublicKeyKey (sentinelId : Nat) : String := getSentinelKey sentinelId "public_key"

def sentinelCount (cfg : Parser) : Nat := ((cfg.getUlong "sentinel_count").getD 0).toNat

def readSentinel (cfg : Parser) (opts : ConfigOptions) (i : Nat) :
    Except String ConfigOptions :=
  match cfg.getEndpoint (getSentinelEndpointKey i) with
  | none => .error ("No endpoint specified for sentinel " ++ toString i ++ " (" ++
      getSentinelEndpointKey i ++ ")")
  | some sentinelEp =>
      match cfg.getKey (getSentinelPublicKeyKey i) with
      | none => .error ("No public key specified for sentinel " ++ toString i ++ " (" ++
          getSentinelPublicKeyKey i ++ ")")
      | some key => .ok { opts with
          sentinelEndpoints := opts.sentinelEndpoints ++ [sentinelEp]
          sentinelPrivateKeys := (cfg.getKey (getSentinelPrivateKeyKey i)).elim
            opts.sentinelPrivateKeys fun key => opts.sentinelPrivateKeys.insert i key
          sentinelPublicKeys := insert key opts.sentinelPublicKeys }

/-- The loop of `read_sentinel_options` up to a sentinel. -/
def readSentinels (cfg : Parser) (opts : ConfigOptions) : Nat → Except String ConfigOptions
  | 0 => .ok opts
  | count + 1 =>
      match readSentinels cfg opts count with
      | .error err => .error err
      | .ok read => readSentinel cfg read count

def readSentinelOptions (cfg : Parser) (opts : ConfigOptions) : Except String ConfigOptions :=
  readSentinels cfg { opts with
    attestationThreshold :=
      ((cfg.getUlong "attestation_threshold").map UInt64.toNat).getD opts.attestationThreshold }
    (sentinelCount cfg)

/-- The components that `check_options` asks for in either mode. -/
def checkEndpoints (opts : ConfigOptions) : Option String :=
  if opts.twophaseMode then
    if opts.sentinelEndpoints.isEmpty then
      some "Two-phase mode requires at least one configured sentinel"
    else if opts.lockingShardEndpoints.isEmpty then
      some "Two-phase mode requires at least one configured shard"
    else if opts.coordinatorEndpoints.isEmpty then
      some "Two-phase mode required at least one configured coordinator"
    else none
  else
    if opts.watchtowerClientEndpoints.isEmpty then
      some "Atomizer mode requires at least one configured watchtower"
    else if opts.archiverEndpoints.isEmpty then
      some "Atomizer mode requires at least one configured archiver"
    else if opts.shardEndpoints.isEmpty && !opts.sentinelEndpoints.isEmpty then
      some "Sentinels require at least one configured shard"
    else if opts.atomizerEndpoints.isEmpty then
      some "Atomizer mode requires at least one configured atomizer"
    else none

def checkSeeds (opts : ConfigOptions) : Option String :=
  if opts.seedFrom = opts.seedTo then none
  else if opts.seedTo < opts.seedFrom then some "shard_seed_from > shard_seed_to"
  else if opts.seedValue = 0 then some "Seed range defined but value is zero"
  else none

/-- `check_options`, with the reason for which the options are refused. -/
def checkOptions (opts : ConfigOptions) : Option String :=
  (checkEndpoints opts).or ((checkSeeds opts).or
    (if opts.sentinelPublicKeys.card < opts.attestationThreshold then
      some "Not enough sentinel public keys to reach the attestation threshold"
    else none))

/-- Accepted options have enough public keys. -/
theorem threshold_le_of_checkOptions {opts : ConfigOptions} (h : checkOptions opts = none) :
    opts.attestationThreshold ≤ opts.sentinelPublicKeys.card := by
  simp only [checkOptions, Option.or_eq_none_iff] at h
  simpa using h.2.2

/-- Options without sentinels, to which the readers add. -/
structure NoSentinels (opts : ConfigOptions) : Prop where
  endpoints : opts.sentinelEndpoints = []
  publicKeys : opts.sentinelPublicKeys = ∅

/-- The options hold the endpoint and the public key of every sentinel of the
file so far, and no others. -/
structure SentinelsRead (cfg : Parser) (count : Nat) (opts : ConfigOptions) : Prop where
  length : opts.sentinelEndpoints.length = count
  publicKey : ∀ i < count, ∃ key, cfg.getKey (getSentinelPublicKeyKey i) = some key
  mem_publicKeys : ∀ key, key ∈ opts.sentinelPublicKeys ↔
    ∃ i < count, cfg.getKey (getSentinelPublicKeyKey i) = some key

/-- A round of the loop adds the endpoint and the key of one sentinel. -/
theorem SentinelsRead.step {cfg : Parser} {count : Nat} {opts next : ConfigOptions}
    (h : SentinelsRead cfg count opts) (hRead : readSentinel cfg opts count = .ok next) :
    SentinelsRead cfg (count + 1) next := by
  rw [readSentinel] at hRead
  split at hRead
  · cases hRead
  · split at hRead
    · cases hRead
    case h_2 key hKey =>
        cases hRead
        constructor
        · rw [List.length_append, h.length, List.length_singleton]
        · intro i hi
          cases Nat.lt_succ_iff_lt_or_eq.mp hi with
          | inl hLess => exact h.publicKey i hLess
          | inr hSame => exact ⟨key, hSame ▸ hKey⟩
        · intro other
          rw [Finset.mem_insert, h.mem_publicKeys]
          constructor
          · rintro (rfl | ⟨i, hi, hOther⟩)
            · exact ⟨count, Nat.lt_succ_self _, hKey⟩
            · exact ⟨i, hi.trans (Nat.lt_succ_self _), hOther⟩
          · rintro ⟨i, hi, hOther⟩
            cases Nat.lt_succ_iff_lt_or_eq.mp hi with
            | inl hLess => exact Or.inr ⟨i, hLess, hOther⟩
            | inr hSame =>
                subst hSame
                exact Or.inl (Option.some.inj (hOther.symm.trans hKey))

theorem sentinelsRead_of_readSentinels {cfg : Parser} {count : Nat} {opts read : ConfigOptions}
    (hStart : NoSentinels opts) (hRead : readSentinels cfg opts count = .ok read) :
    SentinelsRead cfg count read := by
  induction count generalizing read with
  | zero =>
      cases hRead
      exact ⟨by simp [hStart.endpoints], by simp, by simp [hStart.publicKeys]⟩
  | succ count ih =>
      rw [readSentinels] at hRead
      split at hRead
      · cases hRead
      case h_2 middle hMiddle => exact (ih hMiddle).step hRead

/-- What is read from the file are its sentinels. -/
theorem sentinelsRead_of_readSentinelOptions {cfg : Parser} {opts read : ConfigOptions}
    (hStart : NoSentinels opts) (hRead : readSentinelOptions cfg opts = .ok read) :
    SentinelsRead cfg (sentinelCount cfg) read := by
  have hThreshold : ∀ threshold, NoSentinels { opts with attestationThreshold := threshold } :=
    fun _ => ⟨hStart.endpoints, hStart.publicKeys⟩
  exact sentinelsRead_of_readSentinels (hThreshold _) hRead

end Config
end OpenCbdc

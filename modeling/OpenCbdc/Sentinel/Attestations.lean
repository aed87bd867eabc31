import OpenCbdc.Library.Slots
import OpenCbdc.Sentinel.Controller
import OpenCbdc.Transaction.Validation

/-! Sentinels that gather attestations from one another. The keys in a compact
transaction are that of the sentinel itself and those of the sentinels it has
asked, so there are enough of them when all have been asked. -/
namespace OpenCbdc.Sentinel

open TransitionSystem

variable {ValidationError : Type}

/-- A deployment in which each sentinel holds the key that the configuration file
has for it. What is signed with these keys can be verified. -/
structure Deployment (calls : SentinelCalls ValidationError) (cfg : Config.Parser)
    (opts : ConfigOptions) (privkeys : Nat → PrivKey) : Prop where
  read : ∃ start, Config.NoSentinels start ∧ Config.readSentinelOptions cfg start = .ok opts
  accepted : Config.checkOptions opts = none
  distinct : opts.sentinelEndpoints.Nodup
  holds : ∀ i < opts.sentinelEndpoints.length,
    cfg.getKey (Config.getSentinelPublicKeyKey i) =
      some (calls.signing.pubkeyFromPrivkey (privkeys i))
  verifies : ∀ i < opts.sentinelEndpoints.length, ∀ payload, ∃ pubkey,
    calls.crypto.xonlyPubkeyParse (calls.signing.pubkeyFromPrivkey (privkeys i)) = some pubkey ∧
      calls.crypto.schnorrsigVerify (calls.signing.schnorrsigSign payload (privkeys i)) payload
        pubkey = true

/-- The sentinel that listens where a client connects to. -/
def remote (controller : Controller) (sentinelId : Nat) : Option Nat :=
  (controller.sentinelClients[sentinelId]?).map controller.opts.sentinelEndpoints.idxOf

/-- What the sentinel that was asked answers if it runs the same program. -/
def honestAnswer (calls : SentinelCalls ValidationError) (controller : Controller)
    (privkeys : Nat → PrivKey) (tx : FullTx) (execution : Execution ValidationError) :
    Option SentinelAttestation :=
  match execution.phase with
  | .waiting _ _ sentinelId => (remote controller sentinelId).bind fun i =>
      validateTransaction calls (privkeys i) tx
  | _ => none

/-- The other sentinels are reachable and honest. -/
def Honest (calls : SentinelCalls ValidationError) (controller : Controller)
    (privkeys : Nat → PrivKey) (tx : FullTx) (execution : Execution ValidationError) :
    Event → Prop
  | .choose _ success => success = true
  | .answer vRes => vRes = honestAnswer calls controller privkeys tx execution

section Keys

variable {calls : SentinelCalls ValidationError} {cfg : Config.Parser} {opts : ConfigOptions}
  {privkeys : Nat → PrivKey} {controller : Controller} {sentinelId : Nat}

/-- The public keys of the options are those of the sentinels. -/
theorem Deployment.mem_publicKeys (h : Deployment calls cfg opts privkeys) (key : PubKey) :
    key ∈ opts.sentinelPublicKeys ↔ ∃ i < opts.sentinelEndpoints.length,
      calls.signing.pubkeyFromPrivkey (privkeys i) = key := by
  obtain ⟨start, hStart, hRead⟩ := h.read
  have hSentinels := Config.sentinelsRead_of_readSentinelOptions hStart hRead
  rw [hSentinels.mem_publicKeys, ← hSentinels.length]
  constructor
  · rintro ⟨i, hi, hKey⟩
    exact ⟨i, hi, Option.some.inj ((h.holds i hi).symm.trans hKey)⟩
  · rintro ⟨i, hi, rfl⟩
    exact ⟨i, hi, h.holds i hi⟩

theorem init_eq_some (hInit : init sentinelId opts = some controller) :
    controller.opts = opts ∧ controller.sentinelId = sentinelId ∧
      ∃ ownEp, opts.sentinelEndpoints[sentinelId]? = some ownEp ∧
        controller.sentinelClients =
          opts.sentinelEndpoints.filter fun ep => !decide (ep = ownEp) := by
  rw [init] at hInit
  split at hInit
  case h_1 privkey ownEp hKey hEp =>
      cases hInit
      exact ⟨rfl, rfl, ownEp, hEp, rfl⟩
  case h_2 => cases hInit

/-- A client connects to a sentinel of the deployment. -/
theorem remote_lt (hInit : init sentinelId opts = some controller) {client i : Nat}
    (hRemote : remote controller client = some i) : i < opts.sentinelEndpoints.length := by
  obtain ⟨rfl, _, ownEp, _, hClients⟩ := init_eq_some hInit
  obtain ⟨ep, hEp, rfl⟩ := Option.map_eq_some_iff.mp hRemote
  have hMem : ep ∈ controller.opts.sentinelEndpoints := by
    have hClient := List.mem_of_getElem? hEp
    rw [hClients] at hClient
    exact (List.mem_filter.mp hClient).1
  exact List.idxOf_lt_length_of_mem hMem

/-- There is a client for every other sentinel. -/
theorem exists_remote (h : Deployment calls cfg opts privkeys)
    (hInit : init sentinelId opts = some controller) {i : Nat}
    (hi : i < opts.sentinelEndpoints.length) (hOther : i ≠ sentinelId) :
    ∃ client, remote controller client = some i := by
  obtain ⟨rfl, _, ownEp, hOwn, hClients⟩ := init_eq_some hInit
  have hEp : controller.opts.sentinelEndpoints[i]? = some controller.opts.sentinelEndpoints[i] :=
    List.getElem?_eq_getElem hi
  have hNe : controller.opts.sentinelEndpoints[i] ≠ ownEp := by
    intro hSame
    rw [hSame] at hEp
    exact hOther ((List.getElem?_inj hi h.distinct).mp (hEp.trans hOwn.symm))
  have hMem : controller.opts.sentinelEndpoints[i] ∈ controller.sentinelClients := by
    rw [hClients]
    exact List.mem_filter.mpr ⟨List.getElem_mem hi, by simpa using hNe⟩
  obtain ⟨client, hClient⟩ := List.mem_iff_getElem?.mp hMem
  refine ⟨client, ?_⟩
  rw [remote, hClient, Option.map_some, h.distinct.idxOf_getElem i hi]

end Keys

section Gathering

variable (calls : SentinelCalls ValidationError) (opts : ConfigOptions)
  (privkeys : Nat → PrivKey) (tx : FullTx)

/-- A compact transaction with attestations of sentinels of the deployment. -/
structure Attested (ctx : CompactTx) : Prop where
  same : { ctx with attestations := ∅ } = CompactTx.ofFullTx calls.crypto tx
  signed : ∀ key signature, ctx.attestations.lookup key = some signature →
    ∃ i < opts.sentinelEndpoints.length, (key, signature) =
      (CompactTx.ofFullTx calls.crypto tx).sign calls.crypto calls.signing (privkeys i)

/-- The sentinel itself has attested the transaction, and so has everyone that
has answered. -/
structure Gathered (controller : Controller) (requested : Finset Nat) (ctx : CompactTx) : Prop
    extends Attested calls opts privkeys tx ctx where
  own : calls.signing.pubkeyFromPrivkey (privkeys controller.sentinelId) ∈ ctx.attestations
  asked : ∀ client ∈ requested, ∀ i, remote controller client = some i →
    calls.signing.pubkeyFromPrivkey (privkeys i) ∈ ctx.attestations

variable {calls opts privkeys tx} {cfg : Config.Parser} {controller : Controller}
  {sentinelId : Nat} {ctx : CompactTx} {requested : Finset Nat}

theorem attested_ofFullTx :
    Attested calls opts privkeys tx (CompactTx.ofFullTx calls.crypto tx) :=
  ⟨rfl, by simp [CompactTx.ofFullTx]⟩

/-- The signed hash does not depend on the attestations. -/
theorem Attested.hash_eq (h : Attested calls opts privkeys tx ctx) :
    ctx.hash calls.crypto = (CompactTx.ofFullTx calls.crypto tx).hash calls.crypto := by
  rw [← h.same]
  rfl

theorem Attested.insertAttestation (h : Attested calls opts privkeys tx ctx) {i : Nat}
    (hi : i < opts.sentinelEndpoints.length) :
    Attested calls opts privkeys tx (ctx.insertAttestation
      ((CompactTx.ofFullTx calls.crypto tx).sign calls.crypto calls.signing (privkeys i))) := by
  refine ⟨h.same, ?_⟩
  intro key signature hLookup
  rcases Table.of_lookup_emplace hLookup with ⟨rfl, rfl⟩ | hBefore
  · exact ⟨i, hi, rfl⟩
  · exact h.signed key signature hBefore

/-- With enough attestations the check passes. -/
theorem Attested.checkAttestations (h : Attested calls opts privkeys tx ctx)
    (hDeployment : Deployment calls cfg opts privkeys)
    (hEnough : opts.attestationThreshold ≤ ctx.attestations.keys.card) :
    checkAttestations calls.crypto ctx opts.toOptions = true := by
  rw [OpenCbdc.checkAttestations, if_neg (not_lt.mpr hEnough), Table.all_eq_true_iff]
  intro key signature hLookup
  obtain ⟨i, hi, hSigned⟩ := h.signed key signature hLookup
  obtain ⟨rfl, rfl⟩ := Prod.mk.inj hSigned
  obtain ⟨pubkey, hParse, hVerify⟩ := hDeployment.verifies i hi
    ((CompactTx.ofFullTx calls.crypto tx).hash calls.crypto)
  have hMem : calls.signing.pubkeyFromPrivkey (privkeys i) ∈ opts.sentinelPublicKeys :=
    (hDeployment.mem_publicKeys _).mpr ⟨i, hi, rfl⟩
  simp [hMem, CompactTx.verify, hParse, h.hash_eq, hVerify]

/-- While there are too few attestations, some sentinel has not been asked. -/
theorem Gathered.exists_unrequested (h : Gathered calls opts privkeys tx controller requested ctx)
    (hDeployment : Deployment calls cfg opts privkeys)
    (hInit : init sentinelId opts = some controller)
    (hFewer : ctx.attestations.keys.card < opts.attestationThreshold) :
    ∃ client < controller.sentinelClients.length, client ∉ requested := by
  by_contra hNone
  have hAll : ∀ client < controller.sentinelClients.length, client ∈ requested := by
    intro client hClient
    by_contra hFresh
    exact hNone ⟨client, hClient, hFresh⟩
  have hSubset : opts.sentinelPublicKeys ⊆ ctx.attestations.keys := by
    intro key hKey
    rw [Finmap.mem_keys]
    obtain ⟨i, hi, rfl⟩ := (hDeployment.mem_publicKeys key).mp hKey
    by_cases hOwn : i = controller.sentinelId
    · rw [hOwn]
      exact h.own
    · obtain ⟨_, hId, _⟩ := init_eq_some hInit
      obtain ⟨client, hRemote⟩ := exists_remote hDeployment hInit hi (hId ▸ hOwn)
      obtain ⟨ep, hEp, _⟩ := Option.map_eq_some_iff.mp hRemote
      have hClient := hAll client (List.getElem?_eq_some_iff.mp hEp).1
      exact h.asked client hClient i hRemote
  have hCard := Finset.card_le_card hSubset
  have hThreshold := Config.threshold_le_of_checkOptions hDeployment.accepted
  omega

/-- The answer of an honest sentinel adds it to those that have attested. -/
theorem Gathered.insertAttestation
    (h : Gathered calls opts privkeys tx controller requested ctx) {client i : Nat}
    (hRemote : remote controller client = some i) (hi : i < opts.sentinelEndpoints.length) :
    Gathered calls opts privkeys tx controller (insert client requested) (ctx.insertAttestation
      ((CompactTx.ofFullTx calls.crypto tx).sign calls.crypto calls.signing (privkeys i))) := by
  refine ⟨h.toAttested.insertAttestation hi, ?_, ?_⟩
  · exact (Table.mem_emplace _ _ _ _).mpr (Or.inr h.own)
  · intro other hOther j hj
    refine (Table.mem_emplace _ _ _ _).mpr ?_
    cases Finset.mem_insert.mp hOther with
    | inl hSame =>
        rw [hSame, hRemote] at hj
        cases hj
        exact Or.inl rfl
    | inr hBefore => exact Or.inr (h.asked other hBefore j hj)

/-- What holds of an execution when the other sentinels are honest. -/
inductive Reached (calls : SentinelCalls ValidationError) (opts : ConfigOptions)
    (privkeys : Nat → PrivKey) (tx : FullTx) (controller : Controller) :
    Execution ValidationError → Prop where
  | choosing {ctx : CompactTx} {requests : List Nat}
      (gathered : Gathered calls opts privkeys tx controller requests.toFinset ctx)
      (fewer : ctx.attestations.keys.card < opts.attestationThreshold)
      (nodup : requests.Nodup)
      (inRange : ∀ client ∈ requests, client < controller.sentinelClients.length) :
      Reached calls opts privkeys tx controller ⟨.choosing ctx requests.toFinset, requests⟩
  | waiting {ctx : CompactTx} {requests : List Nat} {sentinelId : Nat}
      (gathered : Gathered calls opts privkeys tx controller requests.toFinset ctx)
      (nodup : (requests ++ [sentinelId]).Nodup)
      (inRange : ∀ client ∈ requests ++ [sentinelId], client < controller.sentinelClients.length) :
      Reached calls opts privkeys tx controller
        ⟨.waiting ctx requests.toFinset sentinelId, requests ++ [sentinelId]⟩
  | sent {ctx : CompactTx} {requests : List Nat}
      (attested : Attested calls opts privkeys tx ctx)
      (enough : opts.attestationThreshold ≤ ctx.attestations.keys.card)
      (nodup : requests.Nodup)
      (inRange : ∀ client ∈ requests, client < controller.sentinelClients.length) :
      Reached calls opts privkeys tx controller ⟨.sent ctx, requests⟩

/-- `gather_attestations` goes on or sends the transaction. -/
theorem reached_gatherAttestations {requests : List Nat} (hOpts : controller.opts = opts)
    (h : Gathered calls opts privkeys tx controller requests.toFinset ctx)
    (hNodup : requests.Nodup)
    (hRange : ∀ client ∈ requests, client < controller.sentinelClients.length) :
    Reached calls opts privkeys tx controller
      ⟨gatherAttestations controller ctx requests.toFinset, requests⟩ := by
  rw [gatherAttestations, hOpts]
  split
  case isTrue hFewer => exact .choosing h hFewer hNodup hRange
  case isFalse hEnough => exact .sent h.toAttested (not_lt.mp hEnough) hNodup hRange

/-- The execution starts with the attestation of the sentinel itself. -/
theorem reached_executeTransaction (hInit : init sentinelId opts = some controller)
    (hOwn : controller.privkey = privkeys controller.sentinelId)
    (hValid : calls.checkTx tx = none) :
    Reached calls opts privkeys tx controller (executeTransaction calls controller tx) := by
  obtain ⟨hOpts, hId, ownEp, hEp, _⟩ := init_eq_some hInit
  have hLt : controller.sentinelId < opts.sentinelEndpoints.length := by
    rw [hId]
    exact (List.getElem?_eq_some_iff.mp hEp).1
  simp only [executeTransaction, hValid]
  split
  · rw [hOwn]
    have hGathered : Gathered calls opts privkeys tx controller ([] : List Nat).toFinset
        ((CompactTx.ofFullTx calls.crypto tx).insertAttestation
          ((CompactTx.ofFullTx calls.crypto tx).sign calls.crypto calls.signing
            (privkeys controller.sentinelId))) :=
      ⟨attested_ofFullTx.insertAttestation hLt, (Table.mem_emplace _ _ _ _).mpr (Or.inl rfl),
        by simp⟩
    exact reached_gatherAttestations hOpts hGathered List.nodup_nil (by simp)
  case isFalse hZero =>
    have hThreshold : controller.opts.attestationThreshold = 0 := by omega
    rw [gatherAttestations, hThreshold, if_neg (Nat.not_lt_zero _)]
    refine .sent attested_ofFullTx ?_ List.nodup_nil (by simp)
    rw [← hOpts, hThreshold]
    exact Nat.zero_le _

/-- An honest sentinel attests a valid transaction. -/
theorem honestAnswer_waiting (hValid : calls.checkTx tx = none) {requests : List Nat}
    (hLt : sentinelId < controller.sentinelClients.length) :
    ∃ i, remote controller sentinelId = some i ∧
      honestAnswer calls controller privkeys tx ⟨.waiting ctx requested sentinelId, requests⟩ =
        some ((CompactTx.ofFullTx calls.crypto tx).sign calls.crypto calls.signing
          (privkeys i)) := by
  have hRemote : remote controller sentinelId =
      some (controller.opts.sentinelEndpoints.idxOf controller.sentinelClients[sentinelId]) := by
    rw [remote, List.getElem?_eq_getElem hLt, Option.map_some]
  refine ⟨_, hRemote, ?_⟩
  simp [honestAnswer, hRemote, validateTransaction, hValid]

/-- Random values are those of clients, if there are any. -/
theorem lastChoice_lt (h : 0 < controller.sentinelClients.length) :
    lastChoice controller < controller.sentinelClients.length := by
  rw [lastChoice]
  omega

/-- A random choice is that of a client, and a client is asked once. -/
theorem reached_of_choose {hostId client : Nat} {requests : List Nat}
    {next : Execution ValidationError} (hDeployment : Deployment calls cfg opts privkeys)
    (hInit : init hostId opts = some controller)
    (gathered : Gathered calls opts privkeys tx controller requests.toFinset ctx)
    (fewer : ctx.attestations.keys.card < opts.attestationThreshold) (nodup : requests.Nodup)
    (inRange : ∀ client ∈ requests, client < controller.sentinelClients.length)
    (hStep : choose controller ⟨.choosing ctx requests.toFinset, requests⟩ client true =
      some next) : Reached calls opts privkeys tx controller next := by
  obtain ⟨fresh, hFresh, _⟩ := gathered.exists_unrequested hDeployment hInit fewer
  have hLast := lastChoice_lt (Nat.zero_lt_of_lt hFresh)
  simp only [choose] at hStep
  split at hStep
  · cases hStep
  case isFalse hChoice =>
      have hClient : client < controller.sentinelClients.length := by omega
      split at hStep
      · cases hStep
        exact .choosing gathered fewer nodup inRange
      case isFalse hNew =>
          rw [List.getElem?_eq_getElem hClient] at hStep
          cases hStep
          apply Reached.waiting gathered
          · rw [← List.concat_eq_append]
            exact nodup.concat (by simpa using hNew)
          · exact Slots.forall_mem_concat inRange hClient

/-- An honest answer brings an attestation. -/
theorem reached_of_answer {hostId client : Nat} {requests : List Nat}
    {next : Execution ValidationError} (hInit : init hostId opts = some controller)
    (hValid : calls.checkTx tx = none)
    (gathered : Gathered calls opts privkeys tx controller requests.toFinset ctx)
    (nodup : (requests ++ [client]).Nodup)
    (inRange : ∀ other ∈ requests ++ [client], other < controller.sentinelClients.length)
    (hStep : answer controller ⟨.waiting ctx requests.toFinset client, requests ++ [client]⟩
      (honestAnswer calls controller privkeys tx
        ⟨.waiting ctx requests.toFinset client, requests ++ [client]⟩) = some next) :
    Reached calls opts privkeys tx controller next := by
  obtain ⟨i, hRemote, hAnswer⟩ := honestAnswer_waiting hValid (inRange client (by simp))
  rw [hAnswer] at hStep
  cases hStep
  have hGathered := gathered.insertAttestation hRemote (remote_lt hInit hRemote)
  have hRequested : insert client requests.toFinset = (requests ++ [client]).toFinset := by
    simp
  rw [hRequested] at hGathered ⊢
  exact reached_gatherAttestations (init_eq_some hInit).1 hGathered nodup inRange

/-- Each answer of an honest sentinel adds an attestation, and each request goes to one that
was not asked before. -/
theorem reached_of_step {hostId : Nat} {execution next : Execution ValidationError} {event : Event}
    (h : Reached calls opts privkeys tx controller execution)
    (hDeployment : Deployment calls cfg opts privkeys)
    (hInit : init hostId opts = some controller) (hValid : calls.checkTx tx = none)
    (hHonest : Honest calls controller privkeys tx execution event)
    (hStep : step controller execution event = some next) :
    Reached calls opts privkeys tx controller next := by
  cases h with
  | choosing gathered fewer nodup inRange =>
      cases event with
      | choose client success =>
          cases hHonest
          exact reached_of_choose hDeployment hInit gathered fewer nodup inRange hStep
      | answer vRes => cases hStep
  | waiting gathered nodup inRange =>
      cases event with
      | choose other success => cases hStep
      | answer vRes =>
          cases hHonest
          exact reached_of_answer hInit hValid gathered nodup inRange hStep
  | sent attested enough nodup inRange => cases event <;> cases hStep

end Gathering

section Progress

variable {calls : SentinelCalls ValidationError} {cfg : Config.Parser} {opts : ConfigOptions}
  {privkeys : Nat → PrivKey} {controller : Controller} {tx : FullTx} {hostId : Nat}
  {execution : Execution ValidationError}

/-- What is left to do: two steps for each client that has not been asked. -/
def remaining (controller : Controller) (execution : Execution ValidationError) : Nat :=
  2 * (controller.sentinelClients.length - execution.requests.length) +
    match execution.phase with
    | .waiting _ _ _ => 1
    | _ => 0

theorem remaining_gatherAttestations (controller : Controller) (ctx : CompactTx)
    (requested : Finset Nat) (requests : List Nat) :
    remaining controller (⟨gatherAttestations controller ctx requested, requests⟩ :
        Execution ValidationError) =
      2 * (controller.sentinelClients.length - requests.length) := by
  rw [remaining, gatherAttestations]
  by_cases hFewer : ctx.attestations.keys.card < controller.opts.attestationThreshold
  · simp [hFewer]
  · simp [hFewer]

theorem Reached.requests_nodup (h : Reached calls opts privkeys tx controller execution) :
    execution.requests.Nodup ∧
      ∀ client ∈ execution.requests, client < controller.sentinelClients.length := by
  cases h with
  | choosing gathered fewer nodup inRange => exact ⟨nodup, inRange⟩
  | waiting gathered nodup inRange => exact ⟨nodup, inRange⟩
  | sent attested enough nodup inRange => exact ⟨nodup, inRange⟩

theorem Deployment.length_le (h : Deployment calls cfg opts privkeys)
    (hInit : init hostId opts = some controller) :
    controller.sentinelClients.length ≤ 2 ^ 64 := by
  obtain ⟨start, hStart, hRead⟩ := h.read
  have hSentinels := Config.sentinelsRead_of_readSentinelOptions hStart hRead
  obtain ⟨_, _, _, _, hClients⟩ := init_eq_some hInit
  have hFilter : controller.sentinelClients.length ≤ opts.sentinelEndpoints.length := by
    rw [hClients]
    exact List.length_filter_le _ _
  have hCount : Config.sentinelCount cfg < 2 ^ 64 := UInt64.toNat_lt _
  have hLength := hSentinels.length
  omega

/-- Until the transaction is sent, a step can be taken that leaves less to do. -/
theorem Reached.exists_step (h : Reached calls opts privkeys tx controller execution)
    (hDeployment : Deployment calls cfg opts privkeys)
    (hInit : init hostId opts = some controller) (hValid : calls.checkTx tx = none) :
    (∃ ctx, execution.phase = .sent ctx) ∨ ∃ event next,
      Honest calls controller privkeys tx execution event ∧
        step controller execution event = some next ∧
          remaining controller next < remaining controller execution := by
  cases h with
  | @choosing ctx requests gathered fewer nodup inRange =>
      obtain ⟨client, hClient, hFresh⟩ := gathered.exists_unrequested hDeployment hInit fewer
      have hLength := hDeployment.length_le hInit
      have hChoice : ¬lastChoice controller < client := by
        rw [lastChoice]
        omega
      have hStep : step controller ⟨.choosing ctx requests.toFinset, requests⟩
          (.choose client true) = some (⟨.waiting ctx requests.toFinset client,
            requests ++ [client]⟩ : Execution ValidationError) := by
        simp [step, choose, hChoice, mt List.mem_toFinset.mpr hFresh, hClient]
      have hHonest : Honest calls controller privkeys tx
          ⟨.choosing ctx requests.toFinset, requests⟩ (.choose client true) := rfl
      have hNext := reached_of_step (.choosing gathered fewer nodup inRange) hDeployment hInit
        hValid hHonest hStep
      have hLess := Slots.length_le_of_nodup hNext.requests_nodup.1 hNext.requests_nodup.2
      refine Or.inr ⟨_, _, hHonest, hStep, ?_⟩
      simp only [remaining, List.length_append, List.length_singleton] at hLess ⊢
      omega
  | @waiting ctx requests client gathered nodup inRange =>
      obtain ⟨i, hRemote, hAnswer⟩ := honestAnswer_waiting hValid (inRange client (by simp))
      refine Or.inr ⟨.answer _, _, hAnswer.symm, rfl, ?_⟩
      rw [remaining_gatherAttestations]
      exact Nat.lt_succ_self _
  | sent attested enough nodup inRange => exact Or.inl ⟨_, rfl⟩

/-- The transaction can always be sent in the end. -/
theorem Reached.exists_sent (h : Reached calls opts privkeys tx controller execution)
    (hDeployment : Deployment calls cfg opts privkeys)
    (hInit : init hostId opts = some controller) (hValid : calls.checkTx tx = none) :
    ∃ events finish ctx, run (step controller) execution events = some finish ∧
      finish.phase = .sent ctx ∧
        Guarded (step controller) execution (Honest calls controller privkeys tx) events := by
  induction hLeft : remaining controller execution using Nat.strong_induction_on
    generalizing execution with
  | h left ih =>
      cases h.exists_step hDeployment hInit hValid with
      | inl hSent =>
          obtain ⟨ctx, hPhase⟩ := hSent
          exact ⟨[], execution, ctx, rfl, hPhase, guarded_nil _ _⟩
      | inr hStep =>
          obtain ⟨event, next, hHonest, hNext, hLess⟩ := hStep
          have hReached := reached_of_step h hDeployment hInit hValid hHonest hNext
          obtain ⟨events, finish, ctx, hRun, hPhase, hGuarded⟩ :=
            ih _ (hLeft ▸ hLess) hReached rfl
          refine ⟨event :: events, finish, ctx, ?_, hPhase, hGuarded.cons hHonest hNext⟩
          rw [run, hNext]
          exact hRun

end Progress

/-- When the other sentinels are reachable and honest, gathering the attestations
of a valid transaction never runs out of sentinels to ask, asks none twice, and
sends nothing but a transaction that passes the check of the attestations; from
every state that is reached it can come to that. -/
theorem gathering_succeeds {calls : SentinelCalls ValidationError} {cfg : Config.Parser}
    {opts : ConfigOptions} {privkeys : Nat → PrivKey} {sentinelId : Nat} {controller : Controller}
    {tx : FullTx} {events : List Event} {execution : Execution ValidationError}
    (hDeployment : Deployment calls cfg opts privkeys)
    (hInit : init sentinelId opts = some controller)
    (hOwn : controller.privkey = privkeys sentinelId) (hValid : calls.checkTx tx = none)
    (hRun : run (step controller) (executeTransaction calls controller tx) events =
      some execution)
    (hHonest : Guarded (step controller) (executeTransaction calls controller tx)
      (Honest calls controller privkeys tx) events) :
    (∀ ctx requested, execution.phase = .choosing ctx requested →
      ctx.attestations.keys.card < opts.attestationThreshold →
        ∃ client < controller.sentinelClients.length, client ∉ requested) ∧
    execution.requests.Nodup ∧
    (∀ client ∈ execution.requests, client < controller.sentinelClients.length) ∧
    (∀ ctx, execution.phase = .sent ctx →
      { ctx with attestations := ∅ } = CompactTx.ofFullTx calls.crypto tx ∧
        checkAttestations calls.crypto ctx opts.toOptions = true) ∧
    ∃ more finish ctx, run (step controller) execution more = some finish ∧
      finish.phase = .sent ctx ∧
        Guarded (step controller) execution (Honest calls controller privkeys tx) more := by
  have hId := (init_eq_some hInit).2.1
  have hReached : Reached calls opts privkeys tx controller execution :=
    guarded_invariant (reached_executeTransaction hInit (hOwn.trans (hId ▸ rfl)) hValid)
      (fun _ _ _ h hNow hStep => reached_of_step h hDeployment hInit hValid hNow hStep) hRun hHonest
  refine ⟨?_, hReached.requests_nodup.1, hReached.requests_nodup.2, ?_,
    hReached.exists_sent hDeployment hInit hValid⟩
  · intro ctx requested hPhase hFewer
    cases hReached with
    | choosing gathered fewer nodup inRange =>
        cases hPhase
        exact gathered.exists_unrequested hDeployment hInit fewer
    | waiting gathered nodup inRange => cases hPhase
    | sent attested enough nodup inRange => cases hPhase
  · intro ctx hPhase
    cases hReached with
    | choosing gathered fewer nodup inRange => cases hPhase
    | waiting gathered nodup inRange => cases hPhase
    | sent attested enough nodup inRange =>
        cases hPhase
        exact ⟨attested.same, attested.checkAttestations hDeployment enough⟩

/-- A file with two sentinels, whose private keys are their public ones. -/
def pairConfig : Config.Parser where
  getUlong name :=
    if name = "sentinel_count" ∨ name = "attestation_threshold" then some 2 else none
  getEndpoint name :=
    if name = "sentinel0_endpoint" then some ("10.0.0.1", 5000)
    else if name = "sentinel1_endpoint" then some ("10.0.0.2", 5000)
    else none
  getKey name :=
    if name = "sentinel0_public_key" ∨ name = "sentinel0_private_key" then some (Hash.ofByte 1)
    else if name = "sentinel1_public_key" ∨ name = "sentinel1_private_key" then
      some (Hash.ofByte 2)
    else none

def pairStart : ConfigOptions where
  sentinelPublicKeys := ∅
  attestationThreshold := 1
  twophaseMode := true
  sentinelEndpoints := []
  sentinelPrivateKeys := ∅
  lockingShardEndpoints := [[("10.0.1.1", 6000)]]
  coordinatorEndpoints := [[("10.0.2.1", 7000)]]
  watchtowerClientEndpoints := []
  archiverEndpoints := []
  shardEndpoints := []
  atomizerEndpoints := []
  seedFrom := 0
  seedTo := 0
  seedValue := 0

def pairOpts : ConfigOptions :=
  { pairStart with
    sentinelPublicKeys := {Hash.ofByte 2, Hash.ofByte 1}
    attestationThreshold := 2
    sentinelEndpoints := [("10.0.0.1", 5000), ("10.0.0.2", 5000)]
    sentinelPrivateKeys := ((∅ : Finmap fun _ : Nat => PrivKey).insert 0 (Hash.ofByte 1)).insert 1
      (Hash.ofByte 2) }

/-- Signatures that can be told from one another by their keys. -/
def pairCrypto : Crypto where
  sha256 := fun _ => Hash.ofByte 0
  XonlyPubkey := PubKey
  xonlyPubkeyParse := some
  schnorrsigVerify := fun sig sighash pubkey => decide (sig = sighash ++ pubkey)

/-- The calls of a sentinel that validates transactions with `check_tx`. -/
def pairCalls : SentinelCalls Wire.ValidationError where
  crypto := pairCrypto
  signing := ⟨id, fun sighash seckey => sighash ++ seckey⟩
  checkTx := Validation.checkedError pairCrypto

def pairPrivkeys (i : Nat) : PrivKey := if i = 0 then Hash.ofByte 1 else Hash.ofByte 2

def pairController : Controller :=
  ⟨0, pairOpts, Hash.ofByte 1, [("10.0.0.2", 5000)]⟩

/-- The witness of an input that belongs to the key. -/
def pairWitness (key : PubKey) : List UInt8 :=
  Validation.WitnessProgramType.p2pk :: (key ++ (Hash.ofByte 0 ++ key)).toList

/-- A transaction that spends two coins with the signatures of their owners. -/
def pairTx : FullTx :=
  ⟨[⟨⟨Hash.ofByte 7, 0⟩, ⟨Hash.ofByte 0, 4⟩⟩, ⟨⟨Hash.ofByte 7, 1⟩, ⟨Hash.ofByte 0, 3⟩⟩],
    [⟨Hash.ofByte 8, 5⟩, ⟨Hash.ofByte 9, 2⟩],
    [pairWitness (Hash.ofByte 5), pairWitness (Hash.ofByte 6)]⟩

def pairAnswer : SentinelAttestation := (Hash.ofByte 2, Hash.ofByte 0 ++ Hash.ofByte 2)

def pairEvents : List Event := [.choose 0 true, .answer (some pairAnswer)]

/-- The attestation of the sentinel itself, before the other one is asked. -/
def pairAttested : CompactTx :=
  (CompactTx.ofFullTx pairCalls.crypto pairTx).insertAttestation
    (Hash.ofByte 1, Hash.ofByte 0 ++ Hash.ofByte 1)

theorem pairTx_valid : pairCalls.checkTx pairTx = none := by decide +kernel

theorem pairDeployment : Deployment pairCalls pairConfig pairOpts pairPrivkeys where
  read := ⟨pairStart, ⟨rfl, rfl⟩, rfl⟩
  accepted := by decide
  distinct := by decide
  holds := by decide
  verifies := fun i _ _ => ⟨pairPrivkeys i, rfl, decide_eq_true rfl⟩

theorem pairAttested_choosing :
    executeTransaction pairCalls pairController pairTx =
      (⟨.choosing pairAttested ∅, []⟩ : Execution _) := by
  have hFewer : pairAttested.attestations.keys.card < pairController.opts.attestationThreshold := by
    decide +kernel
  rw [executeTransaction, pairTx_valid]
  show (⟨gatherAttestations pairController pairAttested ∅, []⟩ : Execution _) = _
  rw [gatherAttestations, if_pos hFewer]

/-- Two sentinels gather both attestations of a transaction that `check_tx` takes. -/
theorem gathering_succeeds_pair :
    ∃ ctx requests, run (step pairController) (executeTransaction pairCalls pairController pairTx)
        pairEvents = some ⟨.sent ctx, requests⟩ ∧
      requests.Nodup ∧ checkAttestations pairCrypto ctx pairOpts.toOptions = true := by
  have hChoose : step pairController (executeTransaction pairCalls pairController pairTx)
      (.choose 0 true) = some ⟨.waiting pairAttested ∅ 0, [0]⟩ := by
    rw [pairAttested_choosing]
    simp [step, choose, pairController]
  have hAnswer : some pairAnswer = honestAnswer pairCalls pairController pairPrivkeys pairTx
      ⟨.waiting pairAttested ∅ 0, [0]⟩ := by decide
  have hEnough : ¬(pairAttested.insertAttestation pairAnswer).attestations.keys.card <
      pairController.opts.attestationThreshold := by decide +kernel
  have hSend : step pairController
      (⟨.waiting pairAttested ∅ 0, [0]⟩ : Execution Wire.ValidationError)
      (.answer (some pairAnswer)) =
        some ⟨.sent (pairAttested.insertAttestation pairAnswer), [0]⟩ := by
    simp only [step, answer, gatherAttestations, if_neg hEnough]
  have hRun : run (step pairController) (executeTransaction pairCalls pairController pairTx)
      pairEvents = some ⟨.sent (pairAttested.insertAttestation pairAnswer), [0]⟩ := by
    simp only [pairEvents, run, hChoose, hSend, Option.bind_some]
  have hGuarded : Guarded (step pairController)
      (executeTransaction pairCalls pairController pairTx)
      (Honest pairCalls pairController pairPrivkeys pairTx) pairEvents :=
    .cons rfl hChoose (.cons hAnswer hSend (guarded_nil _ _))
  obtain ⟨_, hNodup, _, hSent, _⟩ := gathering_succeeds pairDeployment
    (show init 0 pairOpts = some pairController from rfl) rfl pairTx_valid hRun hGuarded
  exact ⟨_, _, hRun, hNodup, (hSent _ rfl).2⟩

end OpenCbdc.Sentinel

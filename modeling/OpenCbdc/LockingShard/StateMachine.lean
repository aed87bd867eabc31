import OpenCbdc.LockingShard.Shard
import OpenCbdc.Raft.RpcServer

/-! The replicated locking shard behind the remote calls of the coordinators. -/
namespace OpenCbdc.LockingShard

open Decoder Serialization TransitionSystem Rpc Raft

/-- How a request can end the process of a node. -/
inductive Stop where
  | fatal (fatal : Fatal)
  | badOptionalAccess

/-- The response that `process_request` makes of what the shard returns. The results of
`lock_outputs` are taken out of their `std::optional`. -/
def respond : Reply → Except Stop Wire.LockingShardResponse
  | .lock (some results) => .ok (.lock results)
  | .lock none => .error .badOptionalAccess
  | .apply _ => .ok .apply
  | .discard _ => .ok .discard

/-- `state_machine::process_request`, as it is registered for remote calls. -/
def handleRequest (crypto : Crypto) (shard : LockingShard)
    (request : MessageType.Value .lockingShardRequest) :
    Except Stop (LockingShard × Option (MessageType.Value .lockingShardResponse)) :=
  match shard.processRequest crypto request with
  | .error fatal => .error (.fatal fatal)
  | .ok (next, reply) =>
      match respond reply with
      | .error stop => .error stop
      | .ok resp => .ok (next, some resp)

/-- The request in an entry of the log, if there is one that can be read. -/
def requestOf (entry : LogEntry) : Option Request :=
  match entry.command with
  | .config => none
  | .request _ data =>
      match fromBuffer (.rpcRequest .lockingShardRequest) data with
      | .ok (some req) => some req.payload
      | _ => none

def requestsOf (log : List LogEntry) : List Request := log.filterMap requestOf

section Requests

variable {crypto : Crypto} {shard next : LockingShard}

theorem handleRequest_eq_ok {request : Request} {resp : Option Wire.LockingShardResponse}
    (h : handleRequest crypto shard request = .ok (next, resp)) :
    ∃ reply value, shard.processRequest crypto request = .ok (next, reply) ∧
      respond reply = .ok value ∧ resp = some value := by
  unfold handleRequest at h
  split at h
  case h_1 => cases h
  case h_2 after reply hProcess =>
    split at h <;> cases h
    case h_2 value hRespond => exact ⟨reply, value, hProcess, hRespond, rfl⟩

/-- What the state machine does with an entry is what the shard does with its request. -/
theorem run_of_applyEntry {entry : LogEntry}
    (h : applyEntry (handleRequest crypto) shard entry = some next) :
    run (step crypto) shard (requestOf entry).toList = some next := by
  obtain ⟨term, command⟩ := entry
  cases command with
  | config => exact h
  | request ticket data =>
      simp only [applyEntry] at h
      split at h
      case h_1 => cases h
      case h_2 hRead =>
        have hNone : requestOf ⟨term, .request ticket data⟩ = none := by
          simp only [requestOf, hRead]
        rw [hNone]
        exact h
      case h_3 req hRead =>
        have hSome : requestOf ⟨term, .request ticket data⟩ = some req.payload := by
          simp only [requestOf, hRead]
          rfl
        split at h
        case h_1 => cases h
        case h_2 result hHandle =>
          obtain ⟨reply, value, hProcess, _⟩ := handleRequest_eq_ok hHandle
          have hStep : step crypto shard req.payload = some next := by
            unfold step
            rw [hProcess]
            exact h
          rw [hSome]
          exact Option.bind_eq_some_iff.mpr ⟨next, hStep, rfl⟩

/-- A replica goes through the states of the shard that handles the requests of the log. -/
theorem run_of_applyEntries {log : List LogEntry}
    (h : run (applyEntry (handleRequest crypto)) shard log = some next) :
    run (step crypto) shard (requestsOf log) = some next := by
  induction log generalizing shard with
  | nil => exact h
  | cons entry rest ih =>
      obtain ⟨middle, hEntry, hRest⟩ := Option.bind_eq_some_iff.mp h
      have hSplit : requestsOf (entry :: rest) = (requestOf entry).toList ++ requestsOf rest := by
        cases hRequest : requestOf entry with
        | none => simp [requestsOf, hRequest]
        | some request => simp [requestsOf, hRequest]
      rw [hSplit, run_append, run_of_applyEntry hEntry]
      exact ih hRest

theorem repliesFit : RepliesFit (handleRequest crypto) := by
  intro _ _ _ _ _ value _
  cases value with
  | lock results => exact ⟨trivial, fun _ _ => trivial⟩
  | apply | discard => trivial

end Requests

def service {Client Node : Type} (crypto : Crypto) (owner : Node × Nat → Nat → Option Client)
    (start : LockingShard) :
    Service Client Node LockingShard Stop .lockingShardRequest .lockingShardResponse :=
  ⟨owner, handleRequest crypto, start, repliesFit⟩

section Runs

variable {Client Node : Type} [DecidableEq Client] [DecidableEq Node] {crypto : Crypto}
  {owner : Node × Nat → Nat → Option Client} {leader : Node} {start : LockingShard}
  {before after : List (Replicated.Event Client Node .lockingShardRequest .lockingShardResponse)}
  {sys later : Replicated Client Node LockingShard .lockingShardRequest .lockingShardResponse}

/-- Each replica holds what the shard holds after a beginning of the log. A call has at most
one entry in the log, whatever is lost or sent again, and the answer to it is what the shard
returns for its request in the place of the entry. -/
theorem replicas_linearizable
    (hRun : Replicated.Reaches (service crypto owner start)
      (.initial (service crypto owner start) leader) before sys) :
    (∀ node, run (step crypto) start
        (requestsOf (sys.raft.log.take (sys.machines node).lastCommittedIdx)) =
          some (sys.machines node).state) ∧
      ∀ client id,
        (∀ first second, sys.Executes owner client id first → sys.Executes owner client id second →
          first = second) ∧
        ∀ value, sys.Answered client id value →
          ∃ place request shard next reply, sys.Executes owner client id place ∧
            (sys.rpc.callers client).requests[id]? = some request ∧
            run (step crypto) start (requestsOf (sys.raft.log.take place)) = some shard ∧
            shard.processRequest crypto request = .ok (next, reply) ∧
            respond reply = .ok value := by
  have hInv := ((Replicated.inv_initial leader).run hRun).inv
  refine ⟨fun node => run_of_applyEntries (hInv.machines node).state, fun client id => ?_⟩
  refine ⟨fun _ _ => hInv.place_unique, fun value hAnswered => ?_⟩
  obtain ⟨place, request, shard, next, hPlace, hRequest, hShard, hHandle⟩ :=
    hInv.answered hAnswered
  obtain ⟨reply, _, hProcess, hRespond, hValue⟩ := handleRequest_eq_ok hHandle
  obtain rfl := Option.some.inj hValue
  exact ⟨place, request, shard, next, reply, hPlace, hRequest, run_of_applyEntries hShard,
    hProcess, hRespond⟩

/-- The order of the log is that of real time: a call that is made after another one was
answered has its entry behind that of the other. -/
theorem answered_before_made {client other : Client} {id otherId : Nat}
    {value : MessageType.Value .lockingShardResponse}
    (hRun : Replicated.Reaches (service crypto owner start)
      (.initial (service crypto owner start) leader) before sys)
    (hLater : Replicated.Reaches (service crypto owner start) sys after later)
    (hAnswered : sys.Answered client id value)
    (hNew : (sys.rpc.callers other).requests.length ≤ otherId) {first second : Nat}
    (hFirst : later.Executes owner client id first)
    (hSecond : later.Executes owner other otherId second) : first < second := by
  have hInv := ((Replicated.inv_initial leader).run hRun).inv
  exact hInv.place_lt (hInv.run hLater) hAnswered hNew hFirst hSecond

end Runs

section Example

/-- A shard that holds one UHS ID, and a request to forget a batch. -/
def shownShard : LockingShard := initial (0, 255) 10 .noAttestations {.ofByte 1}

def shownRequest : MessageType.Value .lockingShardRequest := (⟨.ofByte 7, .discard⟩ : Request)

def shownResponse : MessageType.Value .lockingShardResponse := Wire.LockingShardResponse.discard

def requestBytes (id : Nat) : List UInt8 :=
  putInteger 8 id ++ (putArray (Hash.ofByte 7) ++ (putInteger 1 2 ++ []))

def responseBytes (id : Nat) : List UInt8 :=
  putInteger 8 id ++ (putInteger 1 1 ++ (putInteger 1 2 ++ []))

def refusedBytes (id : Nat) : List UInt8 := putInteger 8 id ++ putInteger 1 0

abbrev ShownEvent := Replicated.Event Unit Bool .lockingShardRequest .lockingShardResponse

def callEvents (id : Nat) : List ShownEvent :=
  [.net (.call () true shownRequest (Calls.shownBuffer (requestBytes id))),
    .net (.send () id (some ((true, 0), 0))),
    .handle 0 true (Calls.shownBuffer (refusedBytes id)), .copyTo false 1, .commitNext,
    .apply true (some (Calls.shownBuffer (responseBytes id))), .net (.receive 0),
    .net (.act () .handle), .net (.act () (.get id))]

def laterEvents : List ShownEvent := callEvents 1 ++ [.apply false none, .restart true]

def soleOwner : Bool × Nat → Nat → Option Unit := fun _ _ => some ()

abbrev shownService := service Crypto.unused soleOwner shownShard

abbrev Shown := Replicated Unit Bool LockingShard .lockingShardRequest .lockingShardResponse

instance decidableEqRequest : DecidableEq (MessageType.Value .lockingShardRequest) :=
  inferInstanceAs (DecidableEq Request)

instance decidableEqResponse : DecidableEq (MessageType.Value .lockingShardResponse) :=
  inferInstanceAs (DecidableEq Wire.LockingShardResponse)

/-- The bytes answer the request in an entry, if there is one, as in the example. -/
def answersShown (shard : LockingShard) (bytes : List UInt8) (entry : LogEntry) : Bool :=
  match entry.command with
  | .config => true
  | .request _ data => decide (∀ header ∈ headerOf data,
      replyTo shownService.callback shard data = some shownResponse ∧
        bytes = responseBytes header)

def writesShown (sys : Shown) : ShownEvent → Bool
  | .net (.call _ _ payload buf) =>
      decide ((sys.rpc.callers ()).requests.length < 256 ^ 8 ∧ payload = shownRequest ∧
        buf.bytes = requestBytes (sys.rpc.callers ()).requests.length)
  | .net (.serve _ _) | .net (.answer _ _ _) | .fail _ _ => false
  | .handle place _ failure => decide (∀ packet ∈ sys.rpc.requests[place]?,
      ∀ header ∈ headerOf packet.buf, failure.bytes = refusedBytes header)
  | .apply node (some buf) => sys.raft.log[(sys.machines node).lastCommittedIdx]?.all
      (answersShown (sys.machines node).state buf.bytes)
  | _ => true

theorem serializes_of_writesShown {sys : Shown} {event : ShownEvent}
    (h : writesShown sys event = true) :
    sys.Serializes shownService event := by
  cases event with
  | net event =>
      cases event with
      | call client synchronous payload buf =>
          obtain ⟨hId, rfl, hBytes⟩ := of_decide_eq_true h
          refine ⟨⟨hId, trivial, trivial⟩, ?_⟩
          rw [hBytes]
          exact Language.append_mem_mul rfl
            (Language.append_mem_mul rfl (Language.append_mem_mul rfl rfl))
      | serve | answer => cases h
      | send | act | foreign | receive | loseRequest | loseResponse => trivial
  | handle place accepted failure =>
      intro packet hPacket header hHeader
      rw [of_decide_eq_true h packet hPacket header hHeader]
      exact Language.append_mem_mul rfl rfl
  | fail ticket failure => cases h
  | apply node answer =>
      cases answer with
      | none => trivial
      | some buf =>
          intro term ticket data next result hEntry hCommit header hHeader
          have hShown := (Option.all_eq_true _ _).mp h _ hEntry
          obtain ⟨hReply, hBytes⟩ := of_decide_eq_true hShown header hHeader
          rw [StateMachine.commitEntry_bytes hCommit hHeader, hReply, hBytes]
          exact Language.append_mem_mul rfl
            (Language.append_mem_mul rfl (Language.append_mem_mul rfl rfl))
  | configure | elect | copyTo | commitNext | restart => trivial

abbrev shownStart : Shown := .initial shownService true

theorem answered_of_phase {sys : Shown} {id : Nat}
    (h : (sys.rpc.callers ()).client.phase id = .returned (some ⟨id, some shownResponse⟩)) :
    sys.Answered () id shownResponse :=
  ⟨_, Or.inr h, rfl⟩

/-- The first call is answered before the second one is made. -/
theorem exists_shown :
    ∃ sys later, Replicated.Reaches shownService shownStart (callEvents 0) sys ∧
      Replicated.Reaches shownService sys laterEvents later ∧ sys.Answered () 0 shownResponse ∧
      (sys.rpc.callers ()).requests = [shownRequest] ∧ later.Answered () 1 shownResponse := by
  have hTest : (run (Replicated.step shownService) shownStart (callEvents 0)).any (fun sys =>
      decide ((sys.rpc.callers ()).client.phase 0 = .returned (some ⟨0, some shownResponse⟩) ∧
        (sys.rpc.callers ()).requests = [shownRequest] ∧
        Guarded (Replicated.step shownService) sys (writesShown · · = true) laterEvents) &&
      (run (Replicated.step shownService) sys laterEvents).any (fun later =>
        decide ((later.rpc.callers ()).client.phase 1 =
          .returned (some ⟨1, some shownResponse⟩)))) = true := by
    decide +kernel
  have hShown : Guarded (Replicated.step shownService) shownStart (writesShown · · = true)
      (callEvents 0) := by
    decide +kernel
  obtain ⟨sys, hRun, hValues⟩ := exists_run_of_test hTest
  obtain ⟨hNow, hThen⟩ := (Bool.and_eq_true_iff ..).mp hValues
  obtain ⟨later, hLater, hLast⟩ := exists_run_of_test hThen
  obtain ⟨hFirst, hRequests, hMore⟩ := of_decide_eq_true hNow
  exact ⟨sys, later, ⟨hRun, hShown.mono fun _ _ => serializes_of_writesShown⟩,
    ⟨hLater, hMore.mono fun _ _ => serializes_of_writesShown⟩, answered_of_phase hFirst,
    hRequests, answered_of_phase (of_decide_eq_true hLast)⟩

theorem replicas_linearizable_shown :
    ∃ sys, Replicated.Reaches shownService shownStart (callEvents 0) sys ∧
      ∃ place shard next reply, sys.Executes soleOwner () 0 place ∧
        run (step Crypto.unused) shownShard (requestsOf (sys.raft.log.take place)) =
          some shard ∧
        shard.processRequest Crypto.unused shownRequest = .ok (next, reply) ∧
        respond reply = .ok shownResponse := by
  obtain ⟨sys, _, hRun, _, hAnswered, hRequests, _⟩ := exists_shown
  obtain ⟨place, request, shard, next, reply, hPlace, hRequest, hShard, hProcess, hRespond⟩ :=
    ((replicas_linearizable hRun).2 () 0).2 shownResponse hAnswered
  obtain rfl : shownRequest = request := by simpa [hRequests] using hRequest
  exact ⟨sys, hRun, place, shard, next, reply, hPlace, hShard, hProcess, hRespond⟩

theorem answered_before_made_shown :
    ∃ sys later first second, Replicated.Reaches shownService shownStart (callEvents 0) sys ∧
      Replicated.Reaches shownService sys laterEvents later ∧
      later.Executes soleOwner () 0 first ∧ later.Executes soleOwner () 1 second ∧
      first < second := by
  obtain ⟨sys, later, hRun, hLater, hAnswered, hRequests, hSecond⟩ := exists_shown
  have hBefore := ((Replicated.inv_initial true).run hRun).inv
  have hAfter := hBefore.run hLater
  obtain ⟨first, _, _, _, hFirst, _⟩ := hBefore.answered hAnswered
  obtain ⟨second, _, _, _, hPlace, _⟩ := hAfter.inv.answered hSecond
  exact ⟨sys, later, first, second, hRun, hLater, hFirst.mono hAfter, hPlace,
    answered_before_made hRun hLater hAnswered (by simp [hRequests]) (hFirst.mono hAfter) hPlace⟩

end Example

end OpenCbdc.LockingShard

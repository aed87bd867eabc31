import OpenCbdc.Library.ReplicatedLog
import OpenCbdc.Rpc.Calls

/-! Remote calls to a replicated state machine. The leader runs a raw server, replicates
the bytes of a request as a log entry and answers with the bytes that its state machine
returns for the entry. The state machine decodes the bytes again and calls its handler. -/
namespace OpenCbdc.Raft

open Decoder Serialization TransitionSystem Rpc

deriving instance DecidableEq for Buffer

/-- What an entry of the log holds. The leader remembers for which of its calls it has
replicated a request; the state machine does not see this. -/
inductive Command where
  | config
  | request (ticket : Nat) (data : Buffer)
deriving DecidableEq

structure LogEntry where
  term : Nat
  command : Command
deriving DecidableEq

def LogEntry.ticket? (entry : LogEntry) : Option Nat :=
  match entry.command with
  | .config => none
  | .request ticket _ => some ticket

/-- A state machine that handles requests with `blocking_call`. It takes no snapshots. -/
structure StateMachine (State : Type) where
  state : State
  lastCommittedIdx : Nat

/-- A handler of requests. It ends the process or returns a reply or none. -/
abbrev Callback (State Fatal : Type) (request response : MessageType) :=
  State → request.Value → Except Fatal (State × Option response.Value)

section Commit

variable {State Fatal : Type} {request response : MessageType}
  (callback : Callback State Fatal request response)

def StateMachine.commit (machine : StateMachine State) (logIdx : Nat) (data : Buffer) :
    Except (Fault ⊕ Fatal) (StateMachine State × Option (Language UInt8)) :=
  (blockingCall (some callback) machine.state data).map fun result =>
    (⟨result.1, logIdx⟩, result.2)

def StateMachine.commitConfig (machine : StateMachine State) (logIdx : Nat) :
    StateMachine State :=
  { machine with lastCommittedIdx := logIdx }

def StateMachine.commitEntry (machine : StateMachine State) (entry : LogEntry) :
    Except (Fault ⊕ Fatal) (StateMachine State × Option (Language UInt8)) :=
  match entry.command with
  | .config => .ok (machine.commitConfig (machine.lastCommittedIdx + 1), none)
  | .request _ data => machine.commit callback (machine.lastCommittedIdx + 1) data

/-- The state after an entry, unless the entry ends the process. -/
def applyEntry (state : State) (entry : LogEntry) : Option State :=
  match entry.command with
  | .config => some state
  | .request _ data =>
      match fromBuffer (.rpcRequest request) data with
      | .error _ => none
      | .ok none => some state
      | .ok (some req) =>
          match callback state req.payload with
          | .error _ => none
          | .ok result => some result.1

def RepliesFit : Prop :=
  ∀ state payload after reply, callback state payload = .ok (after, reply) →
    (Codec.optional response.codec).Fits reply

/-- The reply of the handler to the request in the bytes. -/
def replyTo (state : State) (data : Buffer) : Option response.Value :=
  match fromBuffer (.rpcRequest request) data with
  | .ok (some req) =>
      match callback state req.payload with
      | .ok result => result.2
      | .error _ => none
  | _ => none

variable {callback} {machine next : StateMachine State} {entry : LogEntry}
  {result : Option (Language UInt8)}

theorem StateMachine.commit_eq_ok {logIdx : Nat} {data : Buffer}
    (h : machine.commit callback logIdx data = .ok (next, result)) :
    blockingCall (some callback) machine.state data = .ok (next.state, result) ∧
      next.lastCommittedIdx = logIdx := by
  unfold commit at h
  cases hCall : blockingCall (some callback) machine.state data with
  | error stop =>
      rw [hCall] at h
      cases h
  | ok called =>
      rw [hCall] at h
      cases h
      exact ⟨rfl, rfl⟩

/-- The state machine goes through the states of the handler, entry by entry. -/
theorem StateMachine.commitEntry_spec
    (h : machine.commitEntry callback entry = .ok (next, result)) :
    applyEntry callback machine.state entry = some next.state ∧
      next.lastCommittedIdx = machine.lastCommittedIdx + 1 := by
  obtain ⟨term, command⟩ := entry
  cases command with
  | config =>
      cases h
      exact ⟨rfl, rfl⟩
  | request ticket data =>
      obtain ⟨hCall, hIdx⟩ := commit_eq_ok h
      refine ⟨?_, hIdx⟩
      unfold applyEntry
      rcases blockingCall_eq_ok hCall with ⟨hRead, hState, _⟩ | ⟨req, resp, hRead, hReply, _⟩
      · simp [hRead, hState]
      · simp [hRead, hReply]

/-- The bytes for the client are those of the reply, with the header of the request. Where
the state machine returns nothing there is no reply either. -/
theorem StateMachine.commitEntry_bytes {term ticket header : Nat} {data : Buffer}
    (h : machine.commitEntry callback ⟨term, .request ticket data⟩ = .ok (next, result))
    (hHeader : headerOf data = some header) :
    result.getD (failureResponse header) =
      serializeResponse response header (replyTo callback machine.state data) := by
  obtain ⟨hCall, _⟩ := commit_eq_ok h
  unfold replyTo
  rcases blockingCall_eq_ok hCall with ⟨hRead, _, rfl⟩ | ⟨req, resp, hRead, hReply, rfl⟩
  · simp only [hRead, Option.getD_none]
    rfl
  · obtain rfl : req.header = header :=
      Option.some.inj ((headerOf_of_request hRead).symm.trans hHeader)
    simp [hRead, hReply]

end Commit

/-- What the nodes of a cluster are started with: the client at the other end of each
connection of a server, the handler, whose replies can all be written, and its first state. -/
structure Service (Client Node State Fatal : Type) (request response : MessageType) where
  owner : Node × Nat → Nat → Option Client
  callback : Callback State Fatal request response
  start : State
  fits : RepliesFit callback

/-- Every server is a raw one. -/
def Service.net {Client Node State Fatal : Type} {request response : MessageType}
    (service : Service Client Node State Fatal request response) : Net Client (Node × Nat) :=
  ⟨service.owner, fun _ => .raw⟩

/-- The nodes of a cluster with their clients. A node starts a server when it becomes leader
and closes it when it becomes follower, so a server is a node in one of its terms. -/
structure Replicated (Client Node State : Type) (request response : MessageType) where
  rpc : Calls Client (Node × Nat) request response
  raft : ReplicatedLog Node LogEntry
  machines : Node → StateMachine State

namespace Replicated

inductive Event (Client Node : Type) (request response : MessageType) where
  /-- A step of the clients or of the network. -/
  | net (event : Calls.Event Client (Node × Nat) request response)
  /-- `request_handler`, with what `append_entries` says and the failure for the client. -/
  | handle (place : Nat) (accepted : Bool) (failure : Buffer)
  /-- The result of a replication is an error. -/
  | fail (ticket : Nat) (failure : Buffer)
  | configure
  | elect (node : Node)
  | copyTo (node : Node) (count : Nat)
  | commitNext
  /-- The state machine of a node commits the next entry. If the node still waits for the
  result, it answers with these bytes. -/
  | apply (node : Node) (answer : Option Buffer)
  /-- A node starts again with an empty state machine. -/
  | restart (node : Node)

variable {Client Node State Fatal : Type} {request response : MessageType}

def isOutside : Calls.Event Client (Node × Nat) request response → Bool
  | .serve _ _ | .answer _ _ _ => false
  | _ => true

def initial (service : Service Client Node State Fatal request response) (leader : Node) :
    Replicated Client Node State request response where
  rpc := Calls.start
  raft := ⟨leader, 0, [], fun _ => []⟩
  machines _ := ⟨service.start, 0⟩

def stepRpc [DecidableEq Client] (service : Service Client Node State Fatal request response)
    (sys : Replicated Client Node State request response)
    (event : Calls.Event Client (Node × Nat) request response) :
    Option (Replicated Client Node State request response) :=
  (sys.rpc.step service.net event).map fun rpc => { sys with rpc := rpc }

section Model

variable [DecidableEq Node]

def setMachine (sys : Replicated Client Node State request response) (node : Node)
    (machine : StateMachine State) : Replicated Client Node State request response :=
  { sys with machines := Function.update sys.machines node machine }

/-- Whether a call came in on a server of this node. -/
def acceptedBy (sys : Replicated Client Node State request response) (node : Node)
    (ticket : Nat) : Bool :=
  sys.rpc.served[ticket]?.any fun packet => decide (packet.server.1 = node)

variable [DecidableEq Client]

/-- The server of a leader replicates a request, every other one refuses it. -/
def handle (service : Service Client Node State Fatal request response)
    (sys : Replicated Client Node State request response) (place : Nat) (accepted : Bool)
    (failure : Buffer) : Option (Replicated Client Node State request response) :=
  match sys.rpc.requests[place]? with
  | none => none
  | some packet =>
      if accepted ∧ packet.server = (sys.raft.leader, sys.raft.term) then
        let entry := ⟨sys.raft.term, .request sys.rpc.served.length packet.buf⟩
        -- A buffer without a header is dropped before the handler is called.
        let raft := if (headerOf packet.buf).isSome then sys.raft.accept entry else sys.raft
        { sys with raft := raft }.stepRpc service (.serve place none)
      else sys.stepRpc service (.serve place (some failure))

def step (service : Service Client Node State Fatal request response)
    (sys : Replicated Client Node State request response) :
    Event Client Node request response →
      Option (Replicated Client Node State request response)
  | .net event => if isOutside event then sys.stepRpc service event else none
  | .handle place accepted failure => sys.handle service place accepted failure
  | .fail ticket failure => sys.stepRpc service (.answer ticket none failure)
  | .configure => some { sys with raft := sys.raft.accept ⟨sys.raft.term, .config⟩ }
  | .elect node => some { sys with raft := sys.raft.elect node }
  | .copyTo node count =>
      if node = sys.raft.leader then none
      else some { sys with raft := sys.raft.copyTo node count }
  | .commitNext => sys.raft.commitNext.map fun result => { sys with raft := result.2 }
  | .apply node answer =>
      let machine := sys.machines node
      match sys.raft.log[machine.lastCommittedIdx]? with
      | none => none
      | some entry =>
          match machine.commitEntry service.callback entry with
          -- The entry ends the process of the node.
          | .error _ => none
          | .ok (next, _) =>
              let applied := sys.setMachine node next
              match answer, entry.command with
              | none, _ => some applied
              | some buf, .request ticket data =>
                  if sys.acceptedBy node ticket then
                    applied.stepRpc service
                      (.answer ticket (replyTo service.callback machine.state data) buf)
                  else none
              | some _, .config => none
  | .restart node => some (sys.setMachine node ⟨service.start, 0⟩)

end Model

variable (service : Service Client Node State Fatal request response)
  (sys : Replicated Client Node State request response)

/-- Every buffer that a client or a node makes is written by the serializer, or is what the
state machine has returned. -/
def Serializes : Event Client Node request response → Prop
  | .net event => sys.rpc.Serializes service.net event
  | .handle place _ failure => ∀ packet ∈ sys.rpc.requests[place]?,
      ∀ header ∈ headerOf packet.buf, failure.bytes ∈ failureResponse header
  | .fail ticket failure => ∀ packet ∈ sys.rpc.served[ticket]?,
      ∀ header ∈ headerOf packet.buf, failure.bytes ∈ failureResponse header
  | .apply node (some buf) =>
      ∀ term ticket data next result,
        sys.raft.log[(sys.machines node).lastCommittedIdx]? = some ⟨term, .request ticket data⟩ →
        (sys.machines node).commitEntry service.callback ⟨term, .request ticket data⟩ =
          .ok (next, result) →
        ∀ header ∈ headerOf data, buf.bytes ∈ result.getD (failureResponse header)
  | _ => True

/-- A run in which every buffer is such a one. -/
structure Reaches [DecidableEq Client] [DecidableEq Node]
    (events : List (Event Client Node request response))
    (later : Replicated Client Node State request response) : Prop where
  steps : run (step service) sys events = some later
  written : Guarded (step service) sys (Serializes service) events

/-- The entry at a place of the committed log holds the request of a client with this ID. -/
def Executes [DecidableEq Client] (owner : Node × Nat → Nat → Option Client) (client : Client)
    (id place : Nat) : Prop :=
  ∃ term ticket data packet, sys.raft.log[place]? = some ⟨term, .request ticket data⟩ ∧
    sys.rpc.served[ticket]? = some packet ∧
    Calls.isFrom ⟨owner, fun _ => .raw⟩ client id packet = true

def Answered (client : Client) (id : Nat) (value : response.Value) : Prop :=
  ∃ resp, ((id, some resp) ∈ (sys.rpc.callers client).client.completions ∨
    (sys.rpc.callers client).client.phase id = .returned (some resp)) ∧ resp.payload = some value

section Invariant

/-- The state machine has committed the beginning of the log. -/
structure Follows (log : List LogEntry) (machine : StateMachine State) : Prop where
  le : machine.lastCommittedIdx ≤ log.length
  state : run (applyEntry service.callback) service.start (log.take machine.lastCommittedIdx) =
    some machine.state

/-- The reply is the one that the handler gives at the place of the request in the log. -/
def Settled (log : List LogEntry) (ticket : Nat) (value : response.Value) : Prop :=
  ∃ place term data state, log[place]? = some ⟨term, .request ticket data⟩ ∧
    run (applyEntry service.callback) service.start (log.take place) = some state ∧
    replyTo service.callback state data = some value

/-- No call has two entries, and an entry holds the bytes that came in. -/
structure Backed (bufs : List Buffer) (history : List LogEntry) : Prop where
  nodup : (history.filterMap LogEntry.ticket?).Nodup
  data : ∀ term ticket data, ⟨term, .request ticket data⟩ ∈ history → bufs[ticket]? = some data

variable {service} {log later : List LogEntry} {bufs more : List Buffer}

theorem take_of_isPrefix {place : Nat} (h : log <+: later) (hPlace : place ≤ log.length) :
    later.take place = log.take place := by
  obtain ⟨rest, rfl⟩ := h
  exact List.take_append_of_le_length hPlace

theorem Follows.mono {machine : StateMachine State} (h : Follows service log machine)
    (hLog : log <+: later) : Follows service later machine where
  le := h.le.trans hLog.length_le
  state := by rw [take_of_isPrefix hLog h.le, h.state]

theorem Settled.mono {ticket : Nat} {value : response.Value}
    (h : Settled service log ticket value) (hLog : log <+: later) :
    Settled service later ticket value := by
  obtain ⟨place, term, data, state, hEntry, hState, hValue⟩ := h
  have hPlace := (List.getElem?_eq_some_iff.mp hEntry).1
  refine ⟨place, term, data, state, Slots.of_prefix hLog hEntry, ?_, hValue⟩
  rw [take_of_isPrefix hLog hPlace.le, hState]

theorem Backed.of_append {first second : List LogEntry} (h : Backed bufs (first ++ second)) :
    Backed bufs first where
  nodup := by
    have hNodup := h.nodup
    rw [List.filterMap_append] at hNodup
    exact hNodup.of_append_left
  data term ticket data hEntry := h.data term ticket data (List.mem_append_left _ hEntry)

theorem Backed.mono {history : List LogEntry} (h : Backed bufs history) (hMore : bufs <+: more) :
    Backed more history where
  nodup := h.nodup
  data term ticket data hEntry := Slots.of_prefix hMore (h.data term ticket data hEntry)

/-- A new call gets an entry of its own. -/
theorem Backed.concat {history : List LogEntry} (h : Backed bufs history) (buf : Buffer)
    (term : Nat) :
    Backed (bufs ++ [buf]) (history ++ [⟨term, .request bufs.length buf⟩]) := by
  have hTickets : [(⟨term, .request bufs.length buf⟩ : LogEntry)].filterMap LogEntry.ticket? =
      [bufs.length] := rfl
  refine ⟨?_, ?_⟩
  · rw [List.filterMap_append, hTickets, List.nodup_append]
    refine ⟨h.nodup, List.nodup_singleton _, ?_⟩
    intro ticket hTicket other hOther hSame
    obtain ⟨⟨entryTerm, command⟩, hEntry, hKind⟩ := List.mem_filterMap.mp hTicket
    cases command with
    | config => cases hKind
    | request entryTicket data =>
        obtain rfl : entryTicket = ticket := Option.some.inj hKind
        have hLt := (List.getElem?_eq_some_iff.mp (h.data _ _ _ hEntry)).1
        have hLength : other = bufs.length := List.mem_singleton.mp hOther
        omega
  · intro entryTerm ticket data hEntry
    rcases List.mem_append.mp hEntry with hBefore | hNew
    · exact Slots.of_prefix (List.prefix_append _ _) (h.data entryTerm ticket data hBefore)
    · obtain ⟨rfl, rfl, rfl⟩ : entryTerm = term ∧ ticket = bufs.length ∧ data = buf := by
        simpa using hNew
      exact List.getElem?_concat_length

theorem Backed.configure {history : List LogEntry} (h : Backed bufs history) (term : Nat) :
    Backed bufs (history ++ [⟨term, .config⟩]) where
  nodup := by
    have hTickets : [(⟨term, .config⟩ : LogEntry)].filterMap LogEntry.ticket? = [] := rfl
    rw [List.filterMap_append, hTickets, List.append_nil]
    exact h.nodup
  data entryTerm ticket data hEntry := h.data entryTerm ticket data (by simpa using hEntry)

end Invariant

section Calls

variable [DecidableEq Client] {service} {sys next : Calls Client (Node × Nat) request response}

/-- A request that comes in is noted as served, unless its header cannot be read. -/
theorem served_of_serve {place : Nat} {refusal : Option Buffer} {packet : Packet (Node × Nat)}
    (hPacket : sys.requests[place]? = some packet)
    (hStep : sys.step service.net (.serve place refusal) = some next) :
    headerOf packet.buf = none ∧ next.served = sys.served ∧ next.replies = sys.replies ∨
      (headerOf packet.buf).isSome = true ∧ next.served = sys.served ++ [packet] ∧
        next.replies = sys.replies ++ refusal.toList.map fun _ => (sys.served.length, none) := by
  simp only [Calls.step, hPacket, takeHeader, Service.net] at hStep
  unfold headerOf
  split at hStep
  case h_1 => cases hStep
  case h_2 hHeader =>
    cases hStep
    exact Or.inl ⟨by rw [hHeader], rfl, rfl⟩
  case h_3 header hHeader =>
    cases hStep
    exact Or.inr ⟨by rw [hHeader]; rfl, rfl, rfl⟩

theorem served_of_answer {ticket : Nat} {reply : Option response.Value} {buf : Buffer}
    (hStep : sys.step service.net (.answer ticket reply buf) = some next) :
    next.served = sys.served ∧ next.replies = sys.replies ++ [(ticket, reply)] := by
  simp only [Calls.step] at hStep
  split at hStep <;> cases hStep
  exact ⟨rfl, rfl⟩

theorem served_of_stepCaller {client : Client} {event : Rpc.Event Nat (Option response.Value)}
    (hStep : sys.stepCaller client event = some next) :
    next.served = sys.served ∧ next.replies = sys.replies := by
  obtain ⟨after, _, rfl⟩ := Option.map_eq_some_iff.mp hStep
  exact ⟨rfl, rfl⟩

/-- The events of the network and of the clients serve nothing and answer nothing. -/
theorem served_of_outside {event : Calls.Event Client (Node × Nat) request response}
    (hOutside : isOutside event = true) (hStep : sys.step service.net event = some next) :
    next.served = sys.served ∧ next.replies = sys.replies := by
  cases event with
  | serve | answer => cases hOutside
  | call client synchronous payload buf =>
      obtain ⟨after, _, rfl⟩ := Option.map_eq_some_iff.mp hStep
      exact ⟨rfl, rfl⟩
  | send client id target =>
      simp only [Calls.step] at hStep
      split at hStep
      · split at hStep
        · cases hStep
          exact ⟨rfl, rfl⟩
        · obtain ⟨_, hNext⟩ := Option.ite_none_right_eq_some.mp hStep
          cases hNext
          exact ⟨rfl, rfl⟩
      · cases hStep
  | act client event =>
      exact served_of_stepCaller (Option.ite_none_right_eq_some.mp hStep).2
  | foreign packet =>
      obtain ⟨_, hNext⟩ := Option.ite_none_right_eq_some.mp hStep
      cases hNext
      exact ⟨rfl, rfl⟩
  | receive place =>
      simp only [Calls.step] at hStep
      split at hStep
      · cases hStep
      split at hStep
      · cases hStep
      split at hStep
      · cases hStep
      · cases hStep
        exact ⟨rfl, rfl⟩
      · have hServed := served_of_stepCaller hStep
        exact hServed
  | loseRequest | loseResponse =>
      cases hStep
      exact ⟨rfl, rfl⟩

end Calls

section Steps

variable [DecidableEq Client] {service : Service Client Node State Fatal request response}
  {sys middle next : Replicated Client Node State request response}
  {rpc : Calls Client (Node × Nat) request response}

structure Inv (service : Service Client Node State Fatal request response)
    (sys : Replicated Client Node State request response) : Prop where
  rpc : Calls.Inv service.net sys.rpc
  machines : ∀ node, Follows service sys.raft.log (sys.machines node)
  entries : sys.raft.Histories (Backed (sys.rpc.served.map Packet.buf))
  replies : ∀ ticket value, (ticket, some value) ∈ sys.rpc.replies →
    Settled service sys.raft.log ticket value

/-- The invariant is kept, and committed entries and calls that came in stay. -/
structure Advances (service : Service Client Node State Fatal request response)
    (sys next : Replicated Client Node State request response) : Prop where
  inv : Inv service next
  log : sys.raft.log <+: next.raft.log
  served : sys.rpc.served <+: next.rpc.served

theorem Advances.trans (h : Advances service sys middle)
    (hNext : Advances service middle next) : Advances service sys next :=
  ⟨hNext.inv, h.log.trans hNext.log, h.served.trans hNext.served⟩

/-- A step of the calls, after which every new reply is settled. -/
theorem Inv.of_rpc (h : Inv service sys) (hRpc : Calls.Inv service.net rpc)
    (hServed : sys.rpc.served <+: rpc.served)
    (hReplies : ∀ ticket value, (ticket, some value) ∈ rpc.replies →
      (ticket, some value) ∈ sys.rpc.replies ∨
        Settled service sys.raft.log ticket value) :
    Advances service sys { sys with rpc := rpc } := by
  refine ⟨⟨hRpc, h.machines, ?_, ?_⟩, List.prefix_refl _, hServed⟩
  · exact fun node => (h.entries node).mono (hServed.map _)
  · intro ticket value hValue
    exact (hReplies ticket value hValue).elim (h.replies ticket value) fun hNew => hNew

/-- A step of the replication. -/
theorem Inv.of_raft (h : Inv service sys) {raft : ReplicatedLog Node LogEntry}
    (hLog : sys.raft.log <+: raft.log)
    (hEntries : raft.Histories (Backed (sys.rpc.served.map Packet.buf))) :
    Advances service sys { sys with raft := raft } where
  inv :=
    { h with
      machines := fun node => (h.machines node).mono hLog
      entries := hEntries
      replies := fun ticket value hValue => (h.replies ticket value hValue).mono hLog }
  log := hLog
  served := List.prefix_refl _

/-- A step of one state machine. -/
theorem Inv.of_machine [DecidableEq Node] (h : Inv service sys) {node : Node}
    {machine : StateMachine State} (hMachine : Follows service sys.raft.log machine) :
    Advances service sys (sys.setMachine node machine) := by
  refine ⟨{ h with machines := fun other => ?_ }, List.prefix_refl _, List.prefix_refl _⟩
  simp only [setMachine, Function.update_apply]
  split
  · exact hMachine
  · exact h.machines other

theorem Inv.outside (h : Inv service sys)
    {event : Calls.Event Client (Node × Nat) request response} (hOutside : isOutside event = true)
    (hWritten : sys.rpc.Serializes service.net event)
    (hStep : sys.stepRpc service event = some next) : Advances service sys next := by
  obtain ⟨rpc, hRpc, rfl⟩ := Option.map_eq_some_iff.mp hStep
  obtain ⟨hServed, hReplies⟩ := served_of_outside hOutside hRpc
  exact h.of_rpc (h.rpc.step hWritten hRpc) (hServed ▸ List.prefix_refl _)
    fun ticket value hValue => Or.inl (hReplies ▸ hValue)

/-- A reply that is missing, or that is settled, is given to a client. -/
theorem Inv.answer (h : Inv service sys) {ticket : Nat}
    {reply : Option response.Value} {buf : Buffer}
    (hWritten : sys.rpc.Serializes service.net (.answer ticket reply buf))
    (hReply : ∀ value, reply = some value → Settled service sys.raft.log ticket value)
    (hStep : sys.stepRpc service (.answer ticket reply buf) = some next) :
    Advances service sys next := by
  obtain ⟨rpc, hRpc, rfl⟩ := Option.map_eq_some_iff.mp hStep
  obtain ⟨hServed, hReplies⟩ := served_of_answer hRpc
  refine h.of_rpc (h.rpc.step hWritten hRpc) (hServed ▸ List.prefix_refl _) ?_
  intro other value hValue
  rw [hReplies, List.mem_append, List.mem_singleton, Prod.mk.injEq] at hValue
  rcases hValue with hOld | ⟨rfl, hNew⟩
  · exact Or.inl hOld
  · exact Or.inr (hReply value hNew.symm)

/-- The server takes a request, and replies to it at most with a failure. -/
theorem Inv.serve (h : Inv service sys) {place : Nat} {refusal : Option Buffer}
    {packet : Packet (Node × Nat)} (hPacket : sys.rpc.requests[place]? = some packet)
    (hWritten : sys.rpc.Serializes service.net (.serve place refusal))
    (hRpc : sys.rpc.step service.net (.serve place refusal) = some rpc) :
    Advances service sys { sys with rpc := rpc } := by
  rcases served_of_serve hPacket hRpc with ⟨_, hServed, hReplies⟩ | ⟨_, hServed, hReplies⟩
  · exact h.of_rpc (h.rpc.step hWritten hRpc) (hServed ▸ List.prefix_refl _)
      fun ticket value hValue => Or.inl (hReplies ▸ hValue)
  · refine h.of_rpc (h.rpc.step hWritten hRpc) (hServed ▸ List.prefix_append _ _) ?_
    intro ticket value hValue
    rw [hReplies, List.mem_append] at hValue
    exact Or.inl (hValue.resolve_right (by simp))

/-- A state machine commits the next entry of the log. -/
theorem Inv.commitEntry [DecidableEq Node] (h : Inv service sys) {node : Node}
    {entry : LogEntry} {after : StateMachine State} {result : Option (Language UInt8)}
    (hEntry : sys.raft.log[(sys.machines node).lastCommittedIdx]? = some entry)
    (hCommit : (sys.machines node).commitEntry service.callback entry = .ok (after, result)) :
    Advances service sys (sys.setMachine node after) := by
  obtain ⟨hState, hIdx⟩ := StateMachine.commitEntry_spec hCommit
  have hLt := (List.getElem?_eq_some_iff.mp hEntry).1
  refine h.of_machine ⟨by omega, ?_⟩
  rw [hIdx, List.take_add_one, hEntry]
  exact (run_concat ..).mpr ⟨_, (h.machines node).state, hState⟩

/-- The bytes of an entry in the log came in with its call. -/
theorem Inv.data_of_log (h : Inv service sys) {place term ticket : Nat}
    {data : Buffer} (hEntry : sys.raft.log[place]? = some ⟨term, .request ticket data⟩) :
    ∃ packet, sys.rpc.served[ticket]? = some packet ∧ packet.buf = data := by
  have hData := (h.entries sys.raft.leader).data term ticket data
    (List.mem_append_left _ (List.mem_of_getElem? hEntry))
  rwa [List.getElem?_map, Option.map_eq_some_iff] at hData

theorem inv_initial (leader : Node) :
    Inv service (initial service leader) where
  rpc := Calls.inv_start
  machines _ := ⟨Nat.zero_le _, rfl⟩
  entries _ := ⟨List.nodup_nil, nofun⟩
  replies := nofun

variable [DecidableEq Node]

/-- The handler appends an entry that carries the served request, or answers with a failure.
-/
theorem Inv.handle (h : Inv service sys) {place : Nat} {accepted : Bool}
    {failure : Buffer} (hWritten : sys.Serializes service (.handle place accepted failure))
    (hStep : sys.handle service place accepted failure = some next) :
    Advances service sys next := by
  unfold Replicated.handle at hStep
  split at hStep
  case h_1 => cases hStep
  case h_2 packet hPacket =>
    split at hStep
    case isFalse =>
      obtain ⟨rpc, hRpc, rfl⟩ := Option.map_eq_some_iff.mp hStep
      refine h.serve hPacket ?_ hRpc
      intro found hFound header hHeader
      exact hWritten found hFound header hHeader
    case isTrue =>
      obtain ⟨rpc, hRpc, rfl⟩ := Option.map_eq_some_iff.mp hStep
      have hNoRefusal : sys.rpc.Serializes service.net (.serve place none) := trivial
      have hServed := h.serve hPacket hNoRefusal hRpc
      rcases served_of_serve hPacket hRpc with ⟨hHeader, _⟩ | ⟨hHeader, hNew, _⟩
      · rw [hHeader]
        exact hServed
      · rw [if_pos hHeader]
        refine hServed.trans (hServed.inv.of_raft (List.prefix_refl _) ?_)
        refine ReplicatedLog.Histories.accept hServed.inv.entries ?_
        have hConcat := (h.entries sys.raft.leader).concat packet.buf sys.raft.term
        simpa [hNew] using hConcat

/-- A node applies the next committed entry, and its answer goes to the call that the entry
was made for. -/
theorem Inv.apply (h : Inv service sys) {node : Node}
    {answer : Option Buffer} (hWritten : sys.Serializes service (.apply node answer))
    (hStep : sys.step service (.apply node answer) = some next) :
    Advances service sys next := by
  simp only [step] at hStep
  split at hStep
  case h_1 => cases hStep
  case h_2 entry hEntry =>
    split at hStep
    case h_1 => cases hStep
    case h_2 after result hCommit =>
      have hApplied := h.commitEntry hEntry hCommit
      split at hStep
      case h_1 =>
        cases hStep
        exact hApplied
      case h_3 => cases hStep
      case h_2 buf ticket data hCommand =>
        obtain ⟨term, command⟩ := entry
        obtain rfl : command = .request ticket data := hCommand
        obtain ⟨_, hAnswer⟩ := Option.ite_none_right_eq_some.mp hStep
        obtain ⟨found, hFound, hData⟩ := h.data_of_log hEntry
        refine hApplied.trans (hApplied.inv.answer ?_ ?_ hAnswer)
        · intro other hOther header hHeader
          obtain rfl : found = other := Option.some.inj (hFound.symm.trans hOther)
          rw [hData] at hHeader
          rw [responseBytes_eq, ← StateMachine.commitEntry_bytes hCommit hHeader]
          refine ⟨?_, hWritten term ticket data after result hEntry hCommit header hHeader⟩
          unfold replyTo
          split
          · split
            case h_1 called hCall => exact service.fits _ _ called.1 called.2 hCall
            case h_2 => exact nofun
          · exact nofun
        · intro value hValue
          exact ⟨_, term, data, _, hEntry, (h.machines node).state, hValue⟩

/-- Every event keeps the invariant, and neither the committed entries nor the served calls
get fewer. -/
theorem Inv.step (h : Inv service sys)
    {event : Event Client Node request response} (hWritten : sys.Serializes service event)
    (hStep : sys.step service event = some next) :
    Advances service sys next := by
  cases event with
  | net event =>
      obtain ⟨hOutside, hRpc⟩ := Option.ite_none_right_eq_some.mp hStep
      exact h.outside hOutside hWritten hRpc
  | handle place accepted failure => exact h.handle hWritten hStep
  | fail ticket failure =>
      refine h.answer ?_ ?_ hStep
      · intro found hFound header hHeader
        exact ⟨nofun, hWritten found hFound header hHeader⟩
      · rintro value ⟨⟩
  | configure =>
      cases hStep
      exact h.of_raft (List.prefix_refl _) (h.entries.accept ((h.entries _).configure _))
  | elect node =>
      cases hStep
      exact h.of_raft (List.prefix_refl _) h.entries
  | copyTo node count =>
      obtain ⟨_, hNext⟩ := Option.ite_none_left_eq_some.mp hStep
      cases hNext
      exact h.of_raft (List.prefix_refl _)
        (h.entries.copyTo (fun _ _ hHistory => hHistory.of_append) node count)
  | commitNext =>
      obtain ⟨⟨entry, raft⟩, hCommit, rfl⟩ := Option.map_eq_some_iff.mp hStep
      refine h.of_raft ?_
        (h.entries.commitNext (fun _ _ hHistory => hHistory.of_append) hCommit)
      obtain ⟨rest, _, rfl⟩ := ReplicatedLog.commitNext_eq_some hCommit
      exact List.prefix_append _ _
  | apply node answer => exact h.apply hWritten hStep
  | restart node =>
      cases hStep
      exact h.of_machine ⟨Nat.zero_le _, rfl⟩

end Steps

section Runs

variable [DecidableEq Client] {service : Service Client Node State Fatal request response}
  {sys later : Replicated Client Node State request response}
  {client other : Client} {id otherId : Nat}

/-- A request has at most one entry in the committed log. -/
theorem Inv.place_unique (h : Inv service sys) {first second : Nat}
    (hFirst : sys.Executes service.owner client id first)
    (hSecond : sys.Executes service.owner client id second) : first = second := by
  obtain ⟨_, ticket, _, packet, hEntry, hPacket, hFrom⟩ := hFirst
  obtain ⟨_, otherTicket, _, otherPacket, hOther, hOtherPacket, hOtherFrom⟩ := hSecond
  obtain rfl : ticket = otherTicket := Slots.place_eq_of_countP_le
    (h.rpc.countP_served_le client id) hPacket hFrom hOtherPacket hOtherFrom
  have hBacked := h.entries sys.raft.leader
  rw [ReplicatedLog.history] at hBacked
  exact Slots.place_eq_of_nodup hBacked.of_append.nodup hEntry rfl hOther rfl

/-- An answer is what the handler replies to the payload of the call at its place. -/
theorem Inv.answered (h : Inv service sys) {value : response.Value}
    (hAnswered : sys.Answered client id value) :
    ∃ place payload state after, sys.Executes service.owner client id place ∧
      (sys.rpc.callers client).requests[id]? = some payload ∧
      run (applyEntry service.callback) service.start (sys.raft.log.take place) = some state ∧
      service.callback state payload = .ok (after, some value) := by
  obtain ⟨resp, hAnswer, hValue⟩ := hAnswered
  obtain ⟨_, payload, ticket, packet, hPayload, hPacket, hFrom, hRead, hReply⟩ :=
    h.rpc.answered hAnswer
  obtain ⟨place, term, data, state, hEntry, hState, hSettled⟩ :=
    h.replies ticket value (hValue ▸ hReply)
  obtain ⟨found, hFound, rfl⟩ := h.data_of_log hEntry
  obtain rfl : packet = found := Option.some.inj (hPacket.symm.trans hFound)
  rw [replyTo, hRead] at hSettled
  simp only at hSettled
  split at hSettled
  case h_1 result hCall =>
    refine ⟨place, payload, state, result.1,
      ⟨term, ticket, _, packet, hEntry, hPacket, hFrom⟩, hPayload, hState, ?_⟩
    rw [hCall, ← hSettled]
  case h_2 => cases hSettled

/-- A call that was not made yet has no entry among those committed so far. -/
theorem Inv.le_place (h : Inv service sys)
    (hLater : Advances service sys later)
    (hNew : (sys.rpc.callers client).requests.length ≤ id) {place : Nat}
    (hPlace : later.Executes service.owner client id place) : sys.raft.log.length ≤ place := by
  obtain ⟨term, ticket, data, packet, hEntry, hPacket, hFrom⟩ := hPlace
  by_contra hLt
  obtain ⟨rest, hRest⟩ := hLater.log
  rw [← hRest, List.getElem?_append_left (by omega)] at hEntry
  obtain ⟨found, hFound, _⟩ := h.data_of_log hEntry
  obtain rfl : found = packet :=
    Option.some.inj ((Slots.of_prefix hLater.served hFound).symm.trans hPacket)
  have hCarried : found ∈ sys.rpc.carried :=
    List.mem_append_right _ (List.mem_of_getElem? hFound)
  obtain ⟨hOwner, hHeader⟩ := of_decide_eq_true hFrom
  obtain ⟨asked, payload, hPayload, hWrites⟩ := h.rpc.carried _ hCarried client hOwner
  obtain rfl : asked = id := Option.some.inj (hWrites.headerOf.symm.trans hHeader)
  have hMade := (List.getElem?_eq_some_iff.mp hPayload).1
  omega

theorem Executes.mono {place : Nat} (h : sys.Executes service.owner client id place)
    (hLater : Advances service sys later) :
    later.Executes service.owner client id place := by
  obtain ⟨term, ticket, data, packet, hEntry, hPacket, hFrom⟩ := h
  exact ⟨term, ticket, data, packet, Slots.of_prefix hLater.log hEntry,
    Slots.of_prefix hLater.served hPacket, hFrom⟩

/-- A call that was answered before another one was made comes before it in the log. -/
theorem Inv.place_lt (h : Inv service sys)
    (hLater : Advances service sys later) {value : response.Value}
    (hAnswered : sys.Answered client id value)
    (hNew : (sys.rpc.callers other).requests.length ≤ otherId) {first second : Nat}
    (hFirst : later.Executes service.owner client id first)
    (hSecond : later.Executes service.owner other otherId second) : first < second := by
  obtain ⟨place, _, _, _, hPlace, _⟩ := h.answered hAnswered
  obtain rfl := hLater.inv.place_unique hFirst (hPlace.mono hLater)
  obtain ⟨_, _, _, _, hEntry, _⟩ := hPlace
  exact (List.getElem?_eq_some_iff.mp hEntry).1.trans_le (h.le_place hLater hNew hSecond)

variable [DecidableEq Node] {events : List (Event Client Node request response)}

theorem Inv.run (h : Inv service sys) (hRun : Reaches service sys events later) :
    Advances service sys later :=
  guarded_invariant ⟨h, List.prefix_refl _, List.prefix_refl _⟩
    (fun _ _ _ hPast hWritten hStep => hPast.trans (hPast.inv.step hWritten hStep))
    hRun.steps hRun.written

end Runs

end Replicated

end OpenCbdc.Raft

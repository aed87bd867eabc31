import Mathlib.Data.List.Perm.Basic
import OpenCbdc.Library.Slots
import OpenCbdc.Rpc.Server
import OpenCbdc.Rpc.TcpClient

/-! Remote calls from end to end: clients, servers and the connections between them. A
connection may lose packets and may carry those of a peer that is none of the clients. A
packet is delivered at most once. -/
namespace OpenCbdc.Rpc

open Decoder Serialization TransitionSystem

/-- A client with the payloads of its calls, which `m_current_request_id` counts, and the
buffers that are still in `send_request`. -/
structure Caller (request response : MessageType) where
  requests : List request.Value
  client : TcpClient Nat (Option response.Value)
  outgoing : Finmap fun _ : Nat => Buffer

/-- A buffer on a connection, which the server knows by its peer ID. -/
structure Packet (Server : Type) where
  server : Server
  peer : Nat
  buf : Buffer

/-- Who has made the connection with a peer ID. `m_next_peer_id` only counts up, so an ID
is never given to a second connection; a server that starts again is another one. -/
structure Net (Client Server : Type) where
  owner : Server → Nat → Option Client
  handling : Server → Handling

structure Calls (Client Server : Type) (request response : MessageType) where
  callers : Client → Caller request response
  requests : List (Packet Server)
  /-- The requests that handlers were called with. -/
  served : List (Packet Server)
  /-- What response callbacks were called with, with the place of the request. -/
  replies : List (Nat × Option response.Value)
  responses : List (Packet Server)

namespace Calls

inductive Event (Client Server : Type) (request response : MessageType) where
  | call (client : Client) (synchronous : Bool) (payload : request.Value) (buf : Buffer)
  /-- `send_to_one` has found a connection or none. -/
  | send (client : Client) (id : Nat) (target : Option (Server × Nat))
  | act (client : Client) (event : Rpc.Event Nat (Option response.Value))
  /-- A peer that is no client sends any bytes. -/
  | foreign (packet : Packet Server)
  /-- The handler is called. It may refuse the request, with this failure. -/
  | serve (place : Nat) (refusal : Option Buffer)
  | answer (place : Nat) (reply : Option response.Value) (buf : Buffer)
  | receive (place : Nat)
  | loseRequest (place : Nat)
  | loseResponse (place : Nat)

/-- The steps of a client in which the network takes no part. -/
def isLocal {Id Payload : Type} : Rpc.Event Id Payload → Bool
  | .call _ | .sent _ _ | .respond _ => false
  | _ => true

variable {Client Server : Type} {request response : MessageType}

def start : Calls Client Server request response :=
  { callers := fun _ => ⟨[], .start, ∅⟩, requests := [], served := [], replies := [],
    responses := [] }

section Model

variable [DecidableEq Client] (net : Net Client Server)
  (sys : Calls Client Server request response)

def setCaller (client : Client) (caller : Caller request response) :
    Calls Client Server request response :=
  { sys with callers := Function.update sys.callers client caller }

def stepCaller (client : Client) (event : Rpc.Event Nat (Option response.Value)) :
    Option (Calls Client Server request response) :=
  ((sys.callers client).client.step event).map fun next =>
    sys.setCaller client { sys.callers client with client := next }

def step : Event Client Server request response → Option (Calls Client Server request response)
  | .call client synchronous payload buf =>
      let caller := sys.callers client
      let id := caller.requests.length
      (caller.client.step (.call (if synchronous then .promise id else .callback id))).map
        fun next => sys.setCaller client
          { requests := caller.requests ++ [payload], client := next,
            outgoing := caller.outgoing.insert id buf }
  | .send client id target =>
      let caller := sys.callers client
      match caller.outgoing.lookup id, caller.client.step (.sent id target.isSome) with
      | some buf, some next =>
          let sent := sys.setCaller client
            { caller with client := next, outgoing := caller.outgoing.erase id }
          match target with
          | none => some sent
          | some (server, peer) =>
              if net.owner server peer = some client then
                some { sent with requests := sent.requests ++ [⟨server, peer, buf⟩] }
              else none
      | _, _ => none
  | .act client event => if isLocal event then sys.stepCaller client event else none
  | .foreign packet =>
      if net.owner packet.server packet.peer = none then
        some { sys with requests := sys.requests ++ [packet] }
      else none
  | .serve place refusal =>
      match sys.requests[place]? with
      | none => none
      | some packet =>
          match takeHeader request (net.handling packet.server) packet.buf with
          -- The decoder ends the process of the server.
          | .error _ => none
          | .ok none => some { sys with requests := sys.requests.eraseIdx place }
          | .ok (some _) =>
              some { sys with
                requests := sys.requests.eraseIdx place
                served := sys.served ++ [packet]
                replies := sys.replies ++ refusal.toList.map fun _ => (sys.served.length, none)
                responses := sys.responses ++
                  refusal.toList.map fun buf => { packet with buf := buf } }
  | .answer place reply buf =>
      match sys.served[place]? with
      | none => none
      | some packet =>
          some { sys with
            replies := sys.replies ++ [(place, reply)]
            responses := sys.responses ++ [{ packet with buf := buf }] }
  | .receive place =>
      match sys.responses[place]? with
      | none => none
      | some packet =>
          match net.owner packet.server packet.peer with
          | none => none
          | some client =>
              let rest := { sys with responses := sys.responses.eraseIdx place }
              match fromBuffer (.rpcResponse response) packet.buf with
              | .error _ => none
              | .ok none => some rest
              | .ok (some resp) => rest.stepCaller client (.respond ⟨resp.header, resp.payload⟩)
  | .loseRequest place => some { sys with requests := sys.requests.eraseIdx place }
  | .loseResponse place => some { sys with responses := sys.responses.eraseIdx place }

/-- Whether a packet holds the request of a client with this ID. -/
def isFrom (client : Client) (id : Nat) (packet : Packet Server) : Bool :=
  decide (net.owner packet.server packet.peer = some client ∧ headerOf packet.buf = some id)

/-- The times that handlers were called with the request. -/
def servedFor (client : Client) (id : Nat) : List (Packet Server) :=
  sys.served.filter (isFrom net client id)

end Model

variable (net : Net Client Server) (sys : Calls Client Server request response)

/-- Every buffer that a client or a server makes is written by the serializer. -/
def Serializes : Event Client Server request response → Prop
  | .call client _ payload buf =>
      Writes (.rpcRequest request) ⟨(sys.callers client).requests.length, payload⟩ buf
  | .serve place (some buf) => ∀ packet ∈ sys.requests[place]?, ∀ header ∈ headerOf packet.buf,
      buf.bytes ∈ responseBytes response (net.handling packet.server) header none
  | .answer place reply buf => ∀ packet ∈ sys.served[place]?, ∀ header ∈ headerOf packet.buf,
      (Codec.optional response.codec).Fits reply ∧
        buf.bytes ∈ responseBytes response (net.handling packet.server) header reply
  | _ => True

/-- The request packets that are on their way or have been handled. -/
def carried : List (Packet Server) :=
  sys.requests ++ sys.served

/-- In how many places the request is. -/
def places [DecidableEq Client] (client : Client) (id : Nat) : Nat :=
  (if id ∈ (sys.callers client).outgoing then 1 else 0) +
    sys.carried.countP (isFrom net client id)

section Sourced

variable {Id Payload : Type} {client next : TcpClient Id Payload} {event : Rpc.Event Id Payload}
  {property : Response Id Payload → Prop}

/-- Every response that came in has the property, and a call returns one that came in. -/
structure Sourced (property : Response Id Payload → Prop) (client : TcpClient Id Payload) :
    Prop where
  handler : ∀ action resp, client.handler = some (action, resp) → property resp
  completed : ∀ id resp, (id, some resp) ∈ client.completions → property resp
  returned : ∀ id resp, client.phase id = .returned (some resp) →
    (id, some resp) ∈ client.completions

namespace Sourced

theorem of_same (h : Sourced property client) (responses : Finmap fun _ : Id => Action Id)
    (destructor : Destructor Id) :
    Sourced property { client with responses := responses, destructor := destructor } :=
  ⟨h.handler, h.completed, h.returned⟩

theorem setPhase [DecidableEq Id] (h : Sourced property client) {id : Id}
    {phase : Phase Id Payload}
    (hPhase : ∀ resp, phase = .returned (some resp) → (id, some resp) ∈ client.completions) :
    Sourced property (client.setPhase id phase) where
  handler := h.handler
  completed := h.completed
  returned other resp hReturned := by
    rw [TcpClient.phase_setPhase] at hReturned
    split at hReturned
    case isTrue hSame => exact hSame ▸ hPhase resp hReturned
    case isFalse => exact h.returned other resp hReturned

theorem setResponseValue (h : Sourced property client) (action : Action Id)
    (value : Option (Response Id Payload)) (hValue : ∀ resp, value = some resp → property resp) :
    Sourced property (client.setResponseValue action value) where
  handler := h.handler
  completed id resp hMem := by
    rcases List.mem_append.mp hMem with hOld | hNew
    · exact h.completed id resp hOld
    · exact hValue resp (Prod.mk.inj (List.mem_singleton.mp hNew)).2.symm
  returned id resp hPhase := List.mem_append_left _ (h.returned id resp hPhase)

/-- Responses come in through the response handler only. -/
theorem step [DecidableEq Id] (h : Sourced property client)
    (hResp : ∀ resp, event = .respond resp → property resp)
    (hStep : client.step event = some next) : Sourced property next := by
  cases event <;> simp only [TcpClient.step] at hStep
  case call action =>
    split at hStep <;> cases hStep
    exact (h.of_same _ _).setPhase (by simp)
  case sent id success =>
    split at hStep <;> cases hStep
    all_goals exact h.setPhase (by split <;> simp)
  case timeout id =>
    split at hStep <;> cases hStep
    exact h.setPhase (by simp)
  case extract id =>
    split at hStep
    · split at hStep <;> cases hStep
      · exact (h.of_same _ _).setPhase (by simp)
      · exact h.setPhase (by simp)
    · cases hStep
  case complete id =>
    split at hStep <;> cases hStep
    exact (h.setResponseValue _ none (by simp)).setPhase (by simp)
  case get id =>
    split at hStep <;> cases hStep
    case _ value _ hLookup =>
      refine h.setPhase ?_
      rintro resp ⟨⟩
      obtain ⟨before, after, hCompletions, _⟩ := List.lookup_eq_some_iff.mp hLookup
      simp [hCompletions]
  case erase id =>
    split at hStep <;> cases hStep
    exact (h.of_same _ _).setPhase (by simp)
  case respond resp =>
    split at hStep
    · split at hStep <;> cases hStep
      · refine ⟨?_, h.completed, h.returned⟩
        rintro _ _ ⟨⟩
        exact hResp resp rfl
      · exact h
    · cases hStep
  case handle =>
    split at hStep <;> cases hStep
    case _ action resp hHandler =>
      have hTaken : Sourced property { client with handler := none } :=
        ⟨by simp, h.completed, h.returned⟩
      refine hTaken.setResponseValue action (some resp) ?_
      rintro _ ⟨⟩
      exact h.handler action resp hHandler
  case join =>
    split at hStep <;> cases hStep
    exact h.of_same _ _
  case lock =>
    split at hStep <;> cases hStep
    exact h.of_same _ _
  case abandon id =>
    split at hStep
    · obtain ⟨action, _, rfl⟩ := Option.map_eq_some_iff.mp hStep
      exact (h.of_same _ _).setResponseValue action none (by simp)
    · cases hStep
  case clear =>
    split at hStep
    · obtain ⟨_, hNext⟩ := Option.ite_none_right_eq_some.mp hStep
      cases hNext
      exact h.of_same _ _
    · cases hStep

end Sourced

end Sourced

section Invariant

/-- The buffer was written for the call with this ID. -/
def Asked (payloads : List request.Value) (id : Nat) (buf : Buffer) : Prop :=
  ∃ payload, payloads[id]? = some payload ∧ Writes (.rpcRequest request) ⟨id, payload⟩ buf

/-- A handler has given this reply to the request of the client with this ID. -/
def Replied (client : Client) (id : Nat) (reply : Option response.Value) : Prop :=
  ∃ place packet, sys.served[place]? = some packet ∧
    net.owner packet.server packet.peer = some client ∧ headerOf packet.buf = some id ∧
      (place, reply) ∈ sys.replies

/-- A request from a connection of a client was written for one of its calls. -/
def Honest (callers : Client → Caller request response) (packet : Packet Server) : Prop :=
  ∀ client, net.owner packet.server packet.peer = some client →
    ∃ id, Asked (callers client).requests id packet.buf

/-- A response to a client holds a reply to one of its requests. -/
def Answering (packet : Packet Server) : Prop :=
  ∀ client, net.owner packet.server packet.peer = some client →
    ∃ id reply, Replied net sys client id reply ∧
      Writes (.rpcResponse response) ⟨id, reply⟩ packet.buf

/-- Whatever a client has got as an answer is a reply to its own request. -/
structure CallerInv (client : Client) (caller : Caller request response) : Prop where
  owned : caller.client.Owned
  outgoing : ∀ id buf, caller.outgoing.lookup id = some buf → Asked caller.requests id buf
  sourced : Sourced (fun resp => Replied net sys client resp.requestId resp.payload)
    caller.client

/-- A request is in one place at most, and in none before the call is made. -/
structure Inv [DecidableEq Client] (net : Net Client Server)
    (sys : Calls Client Server request response) : Prop where
  callers : ∀ client, CallerInv net sys client (sys.callers client)
  carried : ∀ packet ∈ sys.carried, Honest net sys.callers packet
  responses : ∀ packet ∈ sys.responses, Answering net sys packet
  once : ∀ client id, sys.places net client id ≤ 1
  fresh : ∀ client id, (sys.callers client).requests.length ≤ id → sys.places net client id = 0

variable {net sys} {next : Calls Client Server request response} {client : Client} {id : Nat}
  {buf : Buffer} {packet : Packet Server} {caller : Caller request response}
  {reply : Option response.Value}

theorem Replied.mono (h : Replied net sys client id reply) (hServed : sys.served <+: next.served)
    (hReplies : sys.replies <+: next.replies) : Replied net next client id reply := by
  obtain ⟨place, packet, hPacket, hOwner, hHeader, hReply⟩ := h
  exact ⟨place, packet, Slots.of_prefix hServed hPacket, hOwner, hHeader, hReplies.subset hReply⟩

theorem Asked.mono {payloads more : List request.Value} (h : Asked payloads id buf)
    (hPrefix : payloads <+: more) : Asked more id buf := by
  obtain ⟨payload, hPayload, hWrites⟩ := h
  exact ⟨payload, Slots.of_prefix hPrefix hPayload, hWrites⟩

theorem CallerInv.mono (h : CallerInv net sys client caller) (hServed : sys.served <+: next.served)
    (hReplies : sys.replies <+: next.replies) : CallerInv net next client caller where
  owned := h.owned
  outgoing := h.outgoing
  sourced :=
    { h.sourced with
      handler := fun action resp hHandler =>
        (h.sourced.handler action resp hHandler).mono hServed hReplies
      completed := fun id resp hMem =>
        (h.sourced.completed id resp hMem).mono hServed hReplies }

/-- A step of the client keeps it, if a response that comes in is a reply to it. -/
theorem CallerInv.step (h : CallerInv net sys client caller)
    {event : Rpc.Event Nat (Option response.Value)} {after : TcpClient Nat (Option response.Value)}
    (hStep : caller.client.step event = some after)
    (hResp : ∀ resp, event = .respond resp →
      Replied net sys client resp.requestId resp.payload) :
    CallerInv net sys client { caller with client := after } :=
  ⟨h.owned.step hStep, h.outgoing, h.sourced.step hResp hStep⟩

/-- What a server writes for a reply is read by the client as a response to its request. -/
theorem Answering.of_bytes {place : Nat} (hPacket : next.served[place]? = some packet)
    (hReply : (place, reply) ∈ next.replies) (hHonest : Honest net sys.callers packet)
    (hBytes : ∀ header ∈ headerOf packet.buf, (Codec.optional response.codec).Fits reply ∧
      buf.bytes ∈ responseBytes response (net.handling packet.server) header reply) :
    Answering net next { packet with buf := buf } := by
  intro client hOwner
  obtain ⟨id, payload, _, hWrites⟩ := hHonest client hOwner
  have hHeader := hWrites.headerOf
  obtain ⟨hFits, hWritten⟩ := hBytes id hHeader
  rw [responseBytes_eq] at hWritten
  exact ⟨id, reply, ⟨place, packet, hPacket, hOwner, hHeader, hReply⟩, ⟨hWrites.1.1, hFits⟩,
    hWritten⟩

variable [DecidableEq Client]

/-- A step of the servers or of the network. -/
theorem Inv.of_callers (h : Inv net sys) (hCallers : next.callers = sys.callers)
    (hCarried : ∀ packet ∈ next.carried,
      packet ∈ sys.carried ∨ net.owner packet.server packet.peer = none)
    (hCount : ∀ client id, next.carried.countP (isFrom net client id) ≤
      sys.carried.countP (isFrom net client id))
    (hResponses : ∀ packet ∈ next.responses,
      packet ∈ sys.responses ∨ Answering net next packet)
    (hServed : sys.served <+: next.served) (hReplies : sys.replies <+: next.replies) :
    Inv net next := by
  have hPlaces : ∀ client id, next.places net client id ≤ sys.places net client id := by
    intro client id
    rw [places, places, hCallers]
    exact Nat.add_le_add_left (hCount client id) _
  constructor
  case callers => exact fun client => hCallers ▸ (h.callers client).mono hServed hReplies
  case carried =>
    intro packet hPacket client hOwner
    rcases hCarried packet hPacket with hOld | hNone
    · exact hCallers ▸ h.carried packet hOld client hOwner
    · rw [hNone] at hOwner
      cases hOwner
  case responses =>
    intro packet hPacket
    rcases hResponses packet hPacket with hOld | hNew
    · intro client hOwner
      obtain ⟨id, reply, hReplied, hWrites⟩ := h.responses packet hOld client hOwner
      exact ⟨id, reply, hReplied.mono hServed hReplies, hWrites⟩
    · exact hNew
  case once => exact fun client id => (hPlaces client id).trans (h.once client id)
  case fresh =>
    intro client id hId
    rw [hCallers] at hId
    exact Nat.eq_zero_of_le_zero ((hPlaces client id).trans_eq (h.fresh client id hId))

/-- A step of one client. -/
theorem Inv.of_caller (h : Inv net sys)
    (hCallers : next.callers = Function.update sys.callers client caller)
    (hServed : next.served = sys.served) (hReplies : next.replies = sys.replies)
    (hResponses : next.responses = sys.responses) (hCaller : CallerInv net sys client caller)
    (hPrefix : (sys.callers client).requests <+: caller.requests)
    (hCarried : ∀ packet ∈ next.carried, packet ∈ sys.carried ∨ Honest net next.callers packet)
    (hOther : ∀ other id, other ≠ client → next.carried.countP (isFrom net other id) ≤
      sys.carried.countP (isFrom net other id))
    (hPlaces : ∀ id, next.places net client id ≤ sys.places net client id ∨
      id < caller.requests.length ∧ next.places net client id ≤ 1) : Inv net next := by
  have hServedPrefix : sys.served <+: next.served := hServed ▸ List.prefix_refl _
  have hRepliesPrefix : sys.replies <+: next.replies := hReplies ▸ List.prefix_refl _
  have hPrefixes : ∀ other, (sys.callers other).requests <+: (next.callers other).requests := by
    intro other
    rw [hCallers, Function.update_apply]
    split
    case isTrue hSame => exact hSame ▸ hPrefix
    case isFalse => exact List.prefix_refl _
  have hAll : ∀ other id, next.places net other id ≤ sys.places net other id ∨
      id < (next.callers other).requests.length ∧ next.places net other id ≤ 1 := by
    intro other id
    by_cases hSame : other = client
    · subst hSame
      rw [hCallers, Function.update_self]
      exact hPlaces id
    · rw [places, places, hCallers, Function.update_of_ne hSame]
      exact Or.inl (Nat.add_le_add_left (hOther other id hSame) _)
  constructor
  case callers =>
    intro other
    rw [hCallers, Function.update_apply]
    split
    case isTrue hSame => exact (hSame ▸ hCaller).mono hServedPrefix hRepliesPrefix
    case isFalse => exact (h.callers other).mono hServedPrefix hRepliesPrefix
  case carried =>
    intro packet hPacket
    rcases hCarried packet hPacket with hOld | hNew
    · intro other hOwner
      obtain ⟨id, hAsked⟩ := h.carried packet hOld other hOwner
      exact ⟨id, hAsked.mono (hPrefixes other)⟩
    · exact hNew
  case responses =>
    intro packet hPacket other hOwner
    obtain ⟨id, reply, hReplied, hWrites⟩ := h.responses packet (hResponses ▸ hPacket) other hOwner
    exact ⟨id, reply, hReplied.mono hServedPrefix hRepliesPrefix, hWrites⟩
  case once =>
    intro other id
    rcases hAll other id with hLess | hNew
    · exact hLess.trans (h.once other id)
    · exact hNew.2
  case fresh =>
    intro other id hId
    rcases hAll other id with hLess | hNew
    · have hBefore := h.fresh other id ((hPrefixes other).length_le.trans hId)
      omega
    · omega

theorem Inv.stepCaller (h : Inv net sys) {event : Rpc.Event Nat (Option response.Value)}
    (hStep : sys.stepCaller client event = some next)
    (hResp : ∀ resp, event = .respond resp →
      Replied net sys client resp.requestId resp.payload) : Inv net next := by
  obtain ⟨after, hAfter, rfl⟩ := Option.map_eq_some_iff.mp hStep
  refine h.of_caller rfl rfl rfl rfl ((h.callers client).step hAfter hResp) (List.prefix_refl _)
    (fun _ hPacket => Or.inl hPacket) (fun _ _ _ => le_rfl) fun id => Or.inl (le_of_eq ?_)
  simp [places, setCaller, Calls.carried]

/-- The new request is in `send_request` and nowhere else. -/
theorem Inv.call (h : Inv net sys) {synchronous : Bool} {payload : request.Value}
    (hWrites : Writes (.rpcRequest request) ⟨(sys.callers client).requests.length, payload⟩ buf)
    (hStep : sys.step net (.call client synchronous payload buf) = some next) : Inv net next := by
  obtain ⟨after, hAfter, rfl⟩ := Option.map_eq_some_iff.mp hStep
  have hClient := (h.callers client).step hAfter (by split <;> exact nofun)
  have hPrefix := List.prefix_append (sys.callers client).requests [payload]
  refine h.of_caller rfl rfl rfl rfl ⟨hClient.owned, ?_, hClient.sourced⟩ hPrefix
    (fun _ hPacket => Or.inl hPacket) (fun _ _ _ => le_rfl) fun id => ?_
  · intro id found hLookup
    rcases Table.of_lookup_insert hLookup with ⟨rfl, rfl⟩ | ⟨_, hOld⟩
    · exact ⟨payload, List.getElem?_concat_length, hWrites⟩
    · exact ((h.callers client).outgoing id found hOld).mono hPrefix
  · have hFresh := h.fresh client (sys.callers client).requests.length le_rfl
    simp only [places, setCaller, Calls.carried, Function.update_self, Finmap.mem_insert]
      at hFresh ⊢
    by_cases hSame : id = (sys.callers client).requests.length
    · subst hSame
      simp only [true_or, if_true, List.length_append, List.length_singleton]
      omega
    · simp [hSame]

/-- The packet leaves `send_request` for a connection of the client. -/
theorem Inv.send (h : Inv net sys) {target : Option (Server × Nat)}
    (hStep : sys.step net (.send client id target) = some next) : Inv net next := by
  simp only [Calls.step] at hStep
  split at hStep
  case h_2 => cases hStep
  case h_1 buf after hLookup hAfter =>
    have hClient := (h.callers client).step hAfter nofun
    have hErased : CallerInv net sys client
        { sys.callers client with
          client := after, outgoing := (sys.callers client).outgoing.erase id } :=
      { hClient with
        outgoing := fun other found hFound =>
          (h.callers client).outgoing other found (Table.of_lookup_erase hFound).2 }
    have hMem : id ∈ (sys.callers client).outgoing := Finmap.mem_iff.mpr ⟨buf, hLookup⟩
    have hAsked := (h.callers client).outgoing id buf hLookup
    split at hStep
    case h_1 =>
      cases hStep
      refine h.of_caller rfl rfl rfl rfl hErased (List.prefix_refl _)
        (fun _ hPacket => Or.inl hPacket) (fun _ _ _ => le_rfl) fun other => Or.inl ?_
      simp only [places, setCaller, Calls.carried, Function.update_self, Finmap.mem_erase]
      split <;> simp_all
    case h_2 server peer =>
      obtain ⟨hOwner, hNext⟩ := Option.ite_none_right_eq_some.mp hStep
      cases hNext
      have hHeader : headerOf buf = some id := hAsked.choose_spec.2.headerOf
      refine h.of_caller rfl rfl rfl rfl hErased (List.prefix_refl _) ?_ ?_ ?_
      · intro packet hPacket
        simp only [Calls.carried, setCaller, List.mem_append, List.mem_singleton] at hPacket ⊢
        rcases hPacket with (hOld | rfl) | hOld
        · exact Or.inl (Or.inl hOld)
        · refine Or.inr fun other hOther => ⟨id, ?_⟩
          obtain rfl : client = other := Option.some.inj (hOwner.symm.trans hOther)
          simpa using hAsked
        · exact Or.inl (Or.inr hOld)
      · intro other otherId hNe
        simp [Calls.carried, setCaller, isFrom, hOwner, hNe.symm]
      · intro other
        refine Or.inl ?_
        simp only [places, setCaller, Calls.carried, Function.update_self, Finmap.mem_erase,
          List.countP_append, List.countP_singleton, isFrom, hOwner, hHeader]
        by_cases hSame : other = id
        · subst hSame
          simp [hMem]
          omega
        · simp [hSame, Ne.symm hSame]

/-- Packets are lost or dropped. -/
theorem Inv.of_erase (h : Inv net sys) {requests responses : List (Packet Server)}
    (hRequests : requests.Sublist sys.requests) (hResponses : responses ⊆ sys.responses) :
    Inv net { sys with requests := requests, responses := responses } := by
  have hSublist : (Calls.carried { sys with
      requests := requests, responses := responses }).Sublist sys.carried :=
    hRequests.append (List.Sublist.refl _)
  exact h.of_callers rfl (fun _ hPacket => Or.inl (hSublist.subset hPacket))
    (fun _ _ => hSublist.countP_le) (fun _ hPacket => Or.inl (hResponses hPacket))
    (List.prefix_refl _) (List.prefix_refl _)

theorem Inv.foreign (h : Inv net sys) (hOwner : net.owner packet.server packet.peer = none) :
    Inv net { sys with requests := sys.requests ++ [packet] } := by
  refine h.of_callers rfl ?_ ?_ (fun _ hPacket => Or.inl hPacket) (List.prefix_refl _)
    (List.prefix_refl _)
  · intro other hOther
    simp only [Calls.carried, List.mem_append, List.mem_singleton] at hOther ⊢
    rcases hOther with (hOld | rfl) | hOld
    · exact Or.inl (Or.inl hOld)
    · exact Or.inr hOwner
    · exact Or.inl (Or.inr hOld)
  · intro client id
    simp [Calls.carried, isFrom, hOwner]

/-- The packet leaves the connection for the handler. -/
theorem Inv.serve (h : Inv net sys) {place : Nat} {refusal : Option Buffer}
    (hWritten : sys.Serializes net (.serve place refusal))
    (hStep : sys.step net (.serve place refusal) = some next) : Inv net next := by
  simp only [Calls.step] at hStep
  split at hStep
  case h_1 => cases hStep
  case h_2 packet hPacket =>
    split at hStep <;> cases hStep
    case h_2 => exact h.of_erase (List.eraseIdx_sublist ..) (List.Subset.refl _)
    case h_3 header hHeader =>
      have hMem : packet ∈ sys.carried := List.mem_append_left _ (List.mem_of_getElem? hPacket)
      obtain ⟨hPlace, hGet⟩ := List.getElem?_eq_some_iff.mp hPacket
      have hPerm : (sys.requests.eraseIdx place ++ (sys.served ++ [packet])).Perm
          sys.carried := by
        have hErase := List.getElem_cons_eraseIdx_perm hPlace
        rw [hGet] at hErase
        rw [← List.append_assoc]
        exact List.perm_append_comm.trans (hErase.append_right _)
      refine h.of_callers rfl (fun other hOther => Or.inl (hPerm.mem_iff.mp hOther))
        (fun client id => (hPerm.countP_eq _).le) ?_ (List.prefix_append _ _)
        (List.prefix_append _ _)
      intro other hOther
      rcases List.mem_append.mp hOther with hOld | hNew
      · exact Or.inl hOld
      · obtain ⟨buf, hBuf, rfl⟩ := List.mem_map.mp hNew
        obtain rfl := Option.mem_toList.mp hBuf
        have hReply : (sys.served.length, (none : Option response.Value)) ∈
            sys.replies ++ (some buf).toList.map fun _ => (sys.served.length, none) := by simp
        refine Or.inr (.of_bytes List.getElem?_concat_length hReply (h.carried packet hMem) ?_)
        exact fun header hHeader => ⟨nofun, hWritten packet hPacket header hHeader⟩

/-- The response callback of a request is called. -/
theorem Inv.answer (h : Inv net sys) {place : Nat} {reply : Option response.Value}
    (hWritten : sys.Serializes net (.answer place reply buf))
    (hStep : sys.step net (.answer place reply buf) = some next) : Inv net next := by
  simp only [Calls.step] at hStep
  split at hStep <;> cases hStep
  case h_2 packet hPacket =>
    have hMem : packet ∈ sys.carried :=
      List.mem_append_right _ (List.mem_of_getElem? hPacket)
    refine h.of_callers rfl (fun _ hOther => Or.inl hOther) (fun _ _ => le_rfl) ?_
      (List.prefix_refl _) (List.prefix_append _ _)
    intro other hOther
    rcases List.mem_append.mp hOther with hOld | hNew
    · exact Or.inl hOld
    · obtain rfl := List.mem_singleton.mp hNew
      exact Or.inr (.of_bytes hPacket (by simp) (h.carried _ hMem) (hWritten packet hPacket))

/-- The response handler of a client takes a packet from one of its connections. -/
theorem Inv.receive (h : Inv net sys) {place : Nat}
    (hStep : sys.step net (.receive place) = some next) : Inv net next := by
  simp only [Calls.step] at hStep
  split at hStep
  case h_1 => cases hStep
  case h_2 packet hPacket =>
    split at hStep
    case h_1 => cases hStep
    case h_2 client hOwner =>
      have hRest := h.of_erase (List.Sublist.refl _) (sys.responses.eraseIdx_sublist place).subset
      obtain ⟨id, reply, hReplied, hWrites⟩ :=
        h.responses packet (List.mem_of_getElem? hPacket) client hOwner
      rw [hWrites.fromBuffer] at hStep
      refine hRest.stepCaller hStep ?_
      rintro resp ⟨⟩
      exact hReplied

/-- Every event keeps each request in one place: with its client, on the way or at the
server. -/
theorem Inv.step (h : Inv net sys) {event : Event Client Server request response}
    (hWritten : sys.Serializes net event) (hStep : sys.step net event = some next) :
    Inv net next := by
  cases event with
  | call client synchronous payload buf => exact h.call hWritten hStep
  | send client id target => exact h.send hStep
  | act client event =>
      obtain ⟨hLocal, hAct⟩ := Option.ite_none_right_eq_some.mp hStep
      refine h.stepCaller hAct ?_
      rintro resp rfl
      cases hLocal
  | foreign packet =>
      obtain ⟨hOwner, hNext⟩ := Option.ite_none_right_eq_some.mp hStep
      cases hNext
      exact h.foreign hOwner
  | serve place refusal => exact h.serve hWritten hStep
  | answer place reply buf => exact h.answer hWritten hStep
  | receive place => exact h.receive hStep
  | loseRequest place =>
      cases hStep
      exact h.of_erase (List.eraseIdx_sublist ..) (List.Subset.refl _)
  | loseResponse place =>
      cases hStep
      exact h.of_erase (List.Sublist.refl _) (List.eraseIdx_sublist ..).subset

theorem inv_start : Inv net (start : Calls Client Server request response) where
  callers _ := ⟨TcpClient.owned_start, nofun, nofun, nofun, nofun⟩
  carried := nofun
  responses := nofun
  once _ _ := by simp [places, start, Calls.carried, Finmap.notMem_empty]
  fresh _ _ _ := by simp [places, start, Calls.carried, Finmap.notMem_empty]

/-- A request reaches a handler at most once. -/
theorem Inv.countP_served_le (h : Inv net sys) (client : Client) (id : Nat) :
    sys.served.countP (isFrom net client id) ≤ 1 := by
  have hOnce := h.once client id
  rw [places, Calls.carried, List.countP_append] at hOnce
  omega

/-- An answer is a reply to the request that the call has made. -/
theorem Inv.answered (h : Inv net sys) {resp : Response Nat (Option response.Value)}
    (hAnswer : (id, some resp) ∈ (sys.callers client).client.completions ∨
      (sys.callers client).client.phase id = .returned (some resp)) :
    resp.requestId = id ∧
      ∃ payload place packet, (sys.callers client).requests[id]? = some payload ∧
        sys.served[place]? = some packet ∧ isFrom net client id packet = true ∧
        fromBuffer (.rpcRequest request) packet.buf = .ok (some ⟨id, payload⟩) ∧
        (place, resp.payload) ∈ sys.replies := by
  have hCaller := h.callers client
  have hCompleted : (id, some resp) ∈ (sys.callers client).client.completions :=
    hAnswer.elim (fun h => h) (hCaller.sourced.returned id resp)
  obtain rfl := hCaller.owned.answered id resp hCompleted
  obtain ⟨place, packet, hPacket, hOwner, hHeader, hReply⟩ :=
    hCaller.sourced.completed _ resp hCompleted
  have hCarried : packet ∈ sys.carried :=
    List.mem_append_right _ (List.mem_of_getElem? hPacket)
  obtain ⟨other, payload, hPayload, hWrites⟩ := h.carried _ hCarried client hOwner
  obtain rfl : other = resp.requestId := Option.some.inj (hWrites.headerOf.symm.trans hHeader)
  exact ⟨rfl, payload, place, packet, hPayload, hPacket, decide_eq_true ⟨hOwner, hHeader⟩,
    hWrites.fromBuffer, hReply⟩

end Invariant

section Runs

variable {net sys} [DecidableEq Client] {events : List (Event Client Server request response)}

/-- However the calls of all clients are interleaved, lost and answered, a request reaches
a handler at most once. An answer that a call gets, whether it waits or has a callback, is a
reply of that handler to the payload the call was made with. -/
theorem answers_own_request (hRun : run (step net) start events = some sys)
    (hGuard : Guarded (step net) start (Serializes net) events) (client : Client) (id : Nat) :
    (sys.servedFor net client id).length ≤ 1 ∧
      ∀ resp, (id, some resp) ∈ (sys.callers client).client.completions ∨
          (sys.callers client).client.phase id = .returned (some resp) →
        resp.requestId = id ∧
          ∃ payload place packet, (sys.callers client).requests[id]? = some payload ∧
            sys.served[place]? = some packet ∧ sys.servedFor net client id = [packet] ∧
            fromBuffer (.rpcRequest request) packet.buf = .ok (some ⟨id, payload⟩) ∧
            (place, resp.payload) ∈ sys.replies := by
  have hInv : Inv net sys := guarded_invariant inv_start
    (fun _ _ _ h hWritten hStep => h.step hWritten hStep) hRun hGuard
  have hOnce : (sys.servedFor net client id).length ≤ 1 := by
    rw [servedFor, ← List.countP_eq_length_filter]
    exact hInv.countP_served_le client id
  refine ⟨hOnce, fun resp hAnswer => ?_⟩
  obtain ⟨hId, payload, place, packet, hPayload, hPacket, hFrom, hRead, hReply⟩ :=
    hInv.answered hAnswer
  have hServed : packet ∈ sys.servedFor net client id :=
    List.mem_filter.mpr ⟨List.mem_of_getElem? hPacket, hFrom⟩
  obtain ⟨only, hOnly⟩ := List.length_eq_one_iff.mp
    (le_antisymm hOnce (List.length_pos_of_mem hServed))
  obtain rfl : packet = only := List.mem_singleton.mp (hOnly ▸ hServed)
  exact ⟨hId, payload, place, packet, hPayload, hPacket, hOnly, hRead, hReply⟩

end Runs

def pairNet : Net Bool Unit where
  owner _ peer := match peer with
    | 0 => some true
    | 1 => some false
    | _ => none
  handling _ := .async

def numberBytes (id payload : Nat) : List UInt8 := putInteger 8 id ++ putInteger 8 payload

def flagBytes (id : Nat) : Option Bool → List UInt8
  | none => putInteger 8 id ++ putInteger 1 0
  | some flag => putInteger 8 id ++ (putInteger 1 1 ++ putInteger 1 flag.toNat)

def shownBuffer (bytes : List UInt8) : Buffer :=
  if h : bytes.length < 2 ^ 63 then ⟨bytes, h⟩ else ⟨[], Buffer.size_nil_lt⟩

/-- Both clients make a call with ID 0, and the third peer sends the request of one of them
as well. The later request is answered first. -/
def crossedEvents : List (Event Bool Unit .integer .flag) :=
  [.call true true (5 : Nat) (shownBuffer (numberBytes 0 5)),
    .call false false (6 : Nat) (shownBuffer (numberBytes 0 6)),
    .send true 0 (some ((), 0)), .send false 0 (some ((), 1)),
    .foreign ⟨(), 2, shownBuffer (numberBytes 0 5)⟩, .serve 0 none, .serve 0 none, .serve 0 none,
    .answer 1 (some false) (shownBuffer (flagBytes 0 (some false))),
    .answer 0 (some true) (shownBuffer (flagBytes 0 (some true))),
    .answer 2 (some false) (shownBuffer (flagBytes 0 (some false))),
    .receive 0, .act false .handle, .receive 0, .act true .handle, .act true (.get 0)]

/-- The buffers of the events are those of the two functions. -/
def Shown (sys : Calls Bool Unit .integer .flag) : Event Bool Unit .integer .flag → Prop
  | .call client _ payload buf =>
      (sys.callers client).requests.length < 256 ^ 8 ∧ (show Nat from payload) < 256 ^ 8 ∧
        buf.bytes = numberBytes (sys.callers client).requests.length payload
  | .serve _ refusal => refusal.isNone = true
  | .answer place reply buf => ∀ packet ∈ sys.served[place]?, ∀ header ∈ headerOf packet.buf,
      buf.bytes = flagBytes header reply
  | _ => True

instance decidableShown (sys : Calls Bool Unit .integer .flag)
    (event : Event Bool Unit .integer .flag) : Decidable (Shown sys event) := by
  unfold Shown
  cases event <;> infer_instance

theorem serializes_of_shown {sys : Calls Bool Unit .integer .flag}
    {event : Event Bool Unit .integer .flag} (h : Shown sys event) :
    sys.Serializes pairNet event := by
  cases event with
  | call client synchronous payload buf =>
      refine ⟨⟨h.1, h.2.1⟩, ?_⟩
      rw [h.2.2]
      exact Language.append_mem_mul rfl rfl
  | serve place refusal =>
      cases refusal with
      | none => trivial
      | some buf => cases h
  | answer place reply buf =>
      intro packet hPacket header hHeader
      refine ⟨fun _ _ => trivial, ?_⟩
      rw [responseBytes_eq, h packet hPacket header hHeader]
      cases reply with
      | none => exact Language.append_mem_mul rfl rfl
      | some flag => exact Language.append_mem_mul rfl (Language.append_mem_mul rfl rfl)
  | send | act | foreign | receive | loseRequest | loseResponse => trivial

instance decidableEqFlag : DecidableEq (MessageType.Value .flag) :=
  inferInstanceAs (DecidableEq Bool)

theorem answers_own_request_crossed :
    ∃ sys, run (step pairNet) start crossedEvents = some sys ∧
      (sys.callers true).client.phase 0 = .returned (some ⟨0, some true⟩) ∧
      (sys.callers false).client.completions = [(0, some ⟨0, some false⟩)] ∧
      (sys.servedFor pairNet true 0).length = 1 ∧ (sys.servedFor pairNet false 0).length = 1 := by
  have hTest : (run (step pairNet) start crossedEvents).any (fun sys =>
      decide ((sys.callers true).client.phase 0 = .returned (some ⟨0, some true⟩) ∧
        (sys.callers false).client.completions = [(0, some ⟨0, some false⟩)])) = true := by
    decide +kernel
  have hShown : Guarded (step pairNet) start Shown crossedEvents := by decide +kernel
  obtain ⟨sys, hRun, hValues⟩ := exists_run_of_test hTest
  obtain ⟨hPhase, hCompletions⟩ := of_decide_eq_true hValues
  have hOwn := answers_own_request hRun (hShown.mono fun _ _ => serializes_of_shown)
  obtain ⟨_, _, _, _, _, _, hFirst, _⟩ := (hOwn true 0).2 _ (Or.inr hPhase)
  obtain ⟨_, _, _, _, _, _, hSecond, _⟩ :=
    (hOwn false 0).2 ⟨0, some false⟩ (Or.inl (by simp [hCompletions]))
  exact ⟨sys, hRun, hPhase, hCompletions, by rw [hFirst]; rfl, by rw [hSecond]; rfl⟩

end Calls

end OpenCbdc.Rpc

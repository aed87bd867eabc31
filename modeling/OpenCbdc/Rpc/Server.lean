import OpenCbdc.Serialization.MessageTypes

/-! The servers of remote calls, over the bytes of requests and responses. A response
carries the header of its request. The raw server reads nothing but the header, hands
the whole buffer on and sends back the bytes it is given. -/
namespace OpenCbdc.Rpc

open Decoder Serialization

/-- The buffer holds bytes that `operator<<` may have written for the value. -/
def Writes (type : MessageType) (value : type.Value) (buf : Buffer) : Prop :=
  type.codec.Fits value ∧ buf.bytes ∈ type.codec.put value

theorem Writes.fromBuffer {type : MessageType} {value : type.Value} {buf : Buffer}
    (h : Writes type value buf) : fromBuffer type buf = .ok (some value) :=
  (fromBuffer_of_mem h.1 h.2 (List.append_nil _).symm).1

/-- `handler_type` of a server, and whether it passes buffers through. -/
inductive Handling where
  | blocking
  | async
  | raw
deriving DecidableEq

/-- The request ID of the header that stands at the beginning of a buffer. -/
def headerOf (buf : Buffer) : Option Nat :=
  match fromBuffer .integer buf with
  | .ok header => header
  | .error _ => none

/-- What the server takes a request under: `deserialize_request`, or for the raw server
the header that `make_failure_response` reads. A request that cannot be read has no
answer. -/
def takeHeader (request : MessageType) (handling : Handling) (buf : Buffer) :
    Except Fault (Option Nat) :=
  match handling with
  | .raw => fromBuffer .integer buf
  | .blocking | .async =>
      (fromBuffer (.rpcRequest request) buf).map (Option.map Wire.RpcRequest.header)

def serializeResponse (response : MessageType) (header : Nat) (payload : Option response.Value) :
    Language UInt8 :=
  (MessageType.rpcResponse response).codec.put ⟨header, payload⟩

/-- The bytes of `make_failure_response`, whose payload has the type
`null_response_type`. -/
def failureResponse (header : Nat) : Language UInt8 :=
  (Codec.rpcResponse Codec.empty).put ⟨header, none⟩

/-- What the response callback of `async_call` passes on, and what a blocking server
returns. The raw server answers a missing result with the failure it has prepared. -/
def responseBytes (response : MessageType) (handling : Handling) (header : Nat)
    (payload : Option response.Value) : Language UInt8 :=
  match handling, payload with
  | .raw, none => failureResponse header
  | _, payload => serializeResponse response header payload

/-- `blocking_call` with a handler that works on a state, if one is registered. The
handler may end the process. -/
def blockingCall {State Fatal : Type} {request response : MessageType}
    (callback : Option (State → request.Value → Except Fatal (State × Option response.Value)))
    (state : State) (buf : Buffer) :
    Except (Fault ⊕ Fatal) (State × Option (Language UInt8)) :=
  match fromBuffer (.rpcRequest request) buf with
  | .error fault => .error (.inl fault)
  | .ok none => .ok (state, none)
  | .ok (some req) =>
      match callback with
      | none => .ok (state, some (serializeResponse response req.header none))
      | some callback =>
          match callback state req.payload with
          | .error fatal => .error (.inr fatal)
          | .ok (next, resp) => .ok (next, some (serializeResponse response req.header resp))

/-- What a call with a registered handler has done when it returns. -/
theorem blockingCall_eq_ok {State Fatal : Type} {request response : MessageType}
    {callback : State → request.Value → Except Fatal (State × Option response.Value)}
    {state next : State} {buf : Buffer} {result : Option (Language UInt8)}
    (h : blockingCall (some callback) state buf = .ok (next, result)) :
    fromBuffer (.rpcRequest request) buf = .ok none ∧ next = state ∧ result = none ∨
      ∃ req resp, fromBuffer (.rpcRequest request) buf = .ok (some req) ∧
        callback state req.payload = .ok (next, resp) ∧
        result = some (serializeResponse response req.header resp) := by
  unfold blockingCall at h
  split at h
  case h_1 => cases h
  case h_2 hRead =>
    cases h
    exact Or.inl ⟨hRead, rfl, rfl⟩
  case h_3 req hRead =>
    simp only at h
    split at h <;> cases h
    case h_2 resp hCall => exact Or.inr ⟨req, resp, hRead, hCall, rfl⟩

section Headers

variable {request response : MessageType} {buf : Buffer}

/-- No type is written for a missing payload, so a client reads the failure of a raw
server as a response of its own type. -/
theorem responseBytes_eq (handling : Handling) (header : Nat) (payload : Option response.Value) :
    responseBytes response handling header payload =
      serializeResponse response header payload := by
  cases handling <;> cases payload <;> rfl

/-- A request that can be read begins with its header. -/
theorem headerOf_of_request {req : Wire.RpcRequest request.Value}
    (h : fromBuffer (.rpcRequest request) buf = .ok (some req)) :
    headerOf buf = some req.header := by
  have hGet : (MessageType.rpcRequest request).codec.get (Reader.ofBuffer buf) =
      ((fun header => Wire.RpcRequest.mk header) <$> Codec.uint64.get >>= fun make =>
        make <$> request.codec.get) (Reader.ofBuffer buf) := rfl
  rw [fromBuffer, hGet, bind_apply, map_apply] at h
  rw [headerOf, fromBuffer]
  cases hHeader : Codec.uint64.get (Reader.ofBuffer buf) with
  | error fault after => simp [hHeader] at h
  | ok header middle =>
      rw [hHeader] at h
      simp only [map_apply] at h
      have hOutcome := request.codec.checked.outcome middle
      cases hPayload : request.codec.get middle with
      | error fault after => simp [hPayload] at h
      | ok payload after =>
          rw [hPayload] at h hOutcome
          obtain ⟨hValid, hSome⟩ := Option.ite_none_right_eq_some.mp (Except.ok.inj h)
          obtain rfl := Option.some.inj hSome
          cases hOutcome with
          | returned _ _ _ _ hBefore =>
              have hStill := (hBefore hValid).1
              have hInteger : (MessageType.codec .integer).get (Reader.ofBuffer buf) =
                  .ok header middle := hHeader
              simp only [hInteger, hStill, if_true]
              rfl

theorem Writes.headerOf {id : Nat} {payload : request.Value}
    (h : Writes (.rpcRequest request) ⟨id, payload⟩ buf) : headerOf buf = some id :=
  headerOf_of_request h.fromBuffer

end Headers

end OpenCbdc.Rpc

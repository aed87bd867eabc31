import OpenCbdc.Library.Run
import OpenCbdc.Library.Table

/-! The requests of an RPC client. The calling threads, the thread that handles responses
and the destructor take turns; what one of them does while it holds `m_responses_mut` is
one step, except that the destructor keeps the lock while it completes the requests that are
left. -/
namespace OpenCbdc.Rpc

open TransitionSystem

/-- `response_action_type`, of one request: the promise of a synchronous call or the
callback of an asynchronous one. -/
inductive Action (Id : Type) where
  | promise (request : Id)
  | callback (request : Id)
  deriving DecidableEq

def Action.request {Id : Type} : Action Id → Id
  | promise request => request
  | callback request => request

structure Response (Id Payload : Type) where
  requestId : Id
  payload : Payload
  deriving DecidableEq

/-- Where the thread that makes a call stands. -/
inductive Phase (Id Payload : Type) where
  | unused
  /-- In `send_to_one`, after the action was stored. -/
  | sending (action : Action Id)
  /-- A synchronous call waits for its future. -/
  | waiting
  /-- A synchronous call has failed or timed out and calls `set_response`. -/
  | aborting
  /-- It has found its own action there. -/
  | extracted (action : Action Id)
  | returned (value : Option (Response Id Payload))
  /-- An asynchronous call has failed. -/
  | failed
  | finished (sent : Bool)
  deriving DecidableEq

inductive Destructor (Id : Type) where
  | notCalled
  /-- The network is closed and the handler thread has ended. -/
  | joined
  /-- In the loop, with the actions that are not completed yet. -/
  | locked (rest : Finmap fun _ : Id => Action Id)
  | done

/-- A client with the calls that are made on it and what their actions were completed
with. -/
structure TcpClient (Id Payload : Type) where
  responses : Finmap fun _ : Id => Action Id
  phase : Id → Phase Id Payload
  /-- The action that the handler thread has extracted, and its response. -/
  handler : Option (Action Id × Response Id Payload)
  destructor : Destructor Id
  completions : List (Id × Option (Response Id Payload))

inductive Event (Id Payload : Type) where
  | call (action : Action Id)
  | sent (id : Id) (success : Bool)
  | timeout (id : Id)
  | extract (id : Id)
  | complete (id : Id)
  | get (id : Id)
  | erase (id : Id)
  | respond (resp : Response Id Payload)
  | handle
  | join
  | lock
  | abandon (id : Id)
  | clear

namespace TcpClient

variable {Id Payload : Type} [DecidableEq Id]

def start : TcpClient Id Payload :=
  { responses := ∅, phase := fun _ => .unused, handler := none, destructor := .notCalled,
    completions := [] }

/-- Whether `m_responses_mut` is free. -/
def unlocked (client : TcpClient Id Payload) : Bool :=
  match client.destructor with
  | .locked _ => false
  | _ => true

def setPhase (client : TcpClient Id Payload) (id : Id) (phase : Phase Id Payload) :
    TcpClient Id Payload :=
  { client with phase := Function.update client.phase id phase }

def setResponseValue (client : TcpClient Id Payload) (action : Action Id)
    (value : Option (Response Id Payload)) : TcpClient Id Payload :=
  { client with completions := client.completions ++ [(action.request, value)] }

/-- What one of the threads does next. The request IDs of the calls differ. -/
def step (client : TcpClient Id Payload) : Event Id Payload → Option (TcpClient Id Payload)
  | .call action =>
      match client.phase action.request, client.unlocked with
      | .unused, true =>
          some ({ client with
            responses := client.responses.insert action.request action }.setPhase
              action.request (.sending action))
      | _, _ => none
  | .sent id success =>
      match client.phase id with
      | .sending (.promise _) =>
          some (client.setPhase id (if success then .waiting else .aborting))
      | .sending (.callback _) =>
          some (client.setPhase id (if success then .finished true else .failed))
      | _ => none
  -- `wait_for` may give up while another thread completes the promise.
  | .timeout id =>
      match client.phase id with
      | .waiting => some (client.setPhase id .aborting)
      | _ => none
  | .extract id =>
      match client.phase id, client.unlocked with
      | .aborting, true =>
          match client.responses.lookup id with
          | some action =>
              some ({ client with responses := client.responses.erase id }.setPhase id
                (.extracted action))
          | none => some (client.setPhase id (.returned none))
      | _, _ => none
  | .complete id =>
      match client.phase id with
      | .extracted action =>
          some ((client.setResponseValue action none).setPhase id (.returned none))
      | _ => none
  -- `get` waits until the promise has a value.
  | .get id =>
      match client.phase id, client.completions.lookup id with
      | .waiting, some value => some (client.setPhase id (.returned value))
      | _, _ => none
  | .erase id =>
      match client.phase id, client.unlocked with
      | .failed, true =>
          some ({ client with responses := client.responses.erase id }.setPhase id
            (.finished false))
      | _, _ => none
  | .respond resp =>
      match client.handler, client.destructor with
      | none, .notCalled =>
          match client.responses.lookup resp.requestId with
          | some action =>
              some { client with
                responses := client.responses.erase resp.requestId
                handler := some (action, resp) }
          | none => some client
      | _, _ => none
  | .handle =>
      match client.handler with
      | some (action, resp) =>
          some (setResponseValue { client with handler := none } action (some resp))
      | none => none
  | .join =>
      match client.handler, client.destructor with
      | none, .notCalled => some { client with destructor := .joined }
      | _, _ => none
  | .lock =>
      match client.destructor with
      | .joined => some { client with destructor := .locked client.responses }
      | _ => none
  | .abandon id =>
      match client.destructor with
      | .locked rest =>
          (rest.lookup id).map fun action =>
            setResponseValue { client with destructor := .locked (rest.erase id) } action none
      | _ => none
  | .clear =>
      match client.destructor with
      | .locked rest =>
          if rest = ∅ then some { client with responses := ∅, destructor := .done } else none
      | _ => none

section Ownership

variable {client next : TcpClient Id Payload} {event : Event Id Payload} {id : Id}

/-- The actions in the map that are not completed. -/
def pending (client : TcpClient Id Payload) : Finmap fun _ : Id => Action Id :=
  match client.destructor with
  | .locked rest => rest
  | _ => client.responses

omit [DecidableEq Id] in
theorem pending_of_unlocked (client : TcpClient Id Payload) (h : client.unlocked = true) :
    client.pending = client.responses := by
  unfold pending
  cases hDestructor : client.destructor with
  | locked rest =>
      rw [unlocked, hDestructor] at h
      cases h
  | notCalled | joined | done => rfl

/-- The action that a calling thread has extracted. -/
def Phase.nodes : Phase Id Payload → Nat
  | .extracted _ => 1
  | _ => 0

/-- The request whose action the handler thread has extracted. -/
def handled (client : TcpClient Id Payload) : Option Id :=
  client.handler.map fun found => found.1.request

/-- How many threads can complete the action of a request, and how often it was completed. -/
def owners (client : TcpClient Id Payload) (id : Id) : Nat :=
  (if id ∈ client.pending then 1 else 0) + (if client.handled = some id then 1 else 0) +
    Phase.nodes (client.phase id) + (client.completions.map Prod.fst).count id

section Counting

variable (client) (other : Id)

theorem phase_setPhase (id : Id) (phase : Phase Id Payload) :
    (client.setPhase id phase).phase other = if other = id then phase else client.phase other :=
  Function.update_apply _ _ _ _

theorem owners_setPhase (id : Id) (phase : Phase Id Payload) :
    (client.setPhase id phase).owners other +
        (if other = id then Phase.nodes (client.phase id) else 0) =
      client.owners other + (if other = id then Phase.nodes phase else 0) := by
  have hPending : (client.setPhase id phase).pending = client.pending := rfl
  have hHandled : (client.setPhase id phase).handled = client.handled := rfl
  have hCompletions : (client.setPhase id phase).completions = client.completions := rfl
  rw [owners, owners, phase_setPhase, hPending, hHandled, hCompletions]
  by_cases hSame : other = id
  · subst hSame
    simp only [if_true]
    omega
  · simp only [if_neg hSame]

theorem owners_setResponseValue (action : Action Id) (value : Option (Response Id Payload)) :
    (client.setResponseValue action value).owners other =
      client.owners other + if other = action.request then 1 else 0 := by
  have hPending : (client.setResponseValue action value).pending = client.pending := rfl
  have hHandled : (client.setResponseValue action value).handled = client.handled := rfl
  rw [owners, owners, hPending, hHandled]
  simp only [setResponseValue, List.map_append, List.map_cons, List.map_nil, List.count_append,
    List.count_singleton, beq_iff_eq, @eq_comm _ action.request]
  omega

end Counting

theorem owners_of_pending (hHandled : next.handled = client.handled)
    (hPhase : next.phase = client.phase) (hCompletions : next.completions = client.completions)
    (other : Id) :
    next.owners other + (if other ∈ client.pending then 1 else 0) =
      client.owners other + (if other ∈ next.pending then 1 else 0) := by
  rw [owners, owners, hHandled, hPhase, hCompletions]
  omega

theorem owners_of_handled (client next : TcpClient Id Payload)
    (hPending : next.pending = client.pending) (hPhase : next.phase = client.phase)
    (hCompletions : next.completions = client.completions) (other : Id) :
    next.owners other + (if client.handled = some other then 1 else 0) =
      client.owners other + (if next.handled = some other then 1 else 0) := by
  rw [owners, owners, hPending, hPhase, hCompletions]
  omega

/-- An action is in one place, or it has been completed once. -/
structure Owned (client : TcpClient Id Payload) : Prop where
  once : ∀ id, client.owners id ≤ 1
  unused : ∀ id, client.phase id = .unused → client.owners id = 0
  returned : ∀ id value, client.phase id = .returned value → id ∉ client.pending
  pending : ∀ id action, client.pending.lookup id = some action → action.request = id
  extracted : ∀ id action, client.phase id = .extracted action → action.request = id
  handled : ∀ action resp, client.handler = some (action, resp) →
    resp.requestId = action.request
  answered : ∀ id resp, (id, some resp) ∈ client.completions → resp.requestId = id

/-- A step that gives the action of no request to a second thread. -/
theorem Owned.of_moves (h : Owned client)
    (hOwners : ∀ id, next.owners id ≤ client.owners id)
    (hUnused : ∀ id, next.phase id = .unused → client.phase id = .unused)
    (hPending : ∀ id action, next.pending.lookup id = some action →
      client.pending.lookup id = some action)
    (hReturned : ∀ id value, next.phase id = .returned value →
      client.phase id = .returned value ∨ id ∉ client.pending)
    (hExtracted : ∀ id action, next.phase id = .extracted action → action.request = id)
    (hHandled : ∀ action resp, next.handler = some (action, resp) →
      resp.requestId = action.request)
    (hAnswered : ∀ id resp, (id, some resp) ∈ next.completions → resp.requestId = id) :
    Owned next where
  once id := (hOwners id).trans (h.once id)
  unused id hPhase :=
    Nat.eq_zero_of_le_zero ((hOwners id).trans_eq (h.unused id (hUnused id hPhase)))
  returned id value hPhase hMem := by
    obtain ⟨action, hAction⟩ := Finmap.mem_iff.mp hMem
    have hBefore : id ∈ client.pending := Finmap.mem_iff.mpr ⟨action, hPending id action hAction⟩
    rcases hReturned id value hPhase with hOld | hNew
    · exact h.returned id value hOld hBefore
    · exact hNew hBefore
  pending id action hLookup := h.pending id action (hPending id action hLookup)
  extracted := hExtracted
  handled := hHandled
  answered := hAnswered

theorem Owned.setPhase (h : Owned client) (id : Id) {phase : Phase Id Payload}
    (hNodes : Phase.nodes phase = Phase.nodes (client.phase id)) (hUnused : phase ≠ .unused)
    (hReturned : ∀ value, phase = .returned value → id ∉ client.pending)
    (hExtracted : ∀ action, phase ≠ .extracted action) : Owned (client.setPhase id phase) := by
  refine h.of_moves ?_ ?_ (fun _ _ hLookup => hLookup) ?_ ?_ h.handled h.answered
  · intro other
    have hOwners := owners_setPhase client other id phase
    rw [hNodes] at hOwners
    omega
  all_goals
    simp only [phase_setPhase]
    grind [Owned]

/-- A call enters its action in the map under an ID that was not used before. -/
theorem Owned.call (h : Owned client) {action : Action Id} {entered : TcpClient Id Payload}
    (hEntered : entered.pending = client.pending.insert action.request action)
    (hHandler : entered.handler = client.handler) (hPhase : entered.phase = client.phase)
    (hCompletions : entered.completions = client.completions)
    (hUnused : client.phase action.request = .unused) :
    Owned (entered.setPhase action.request (.sending action)) := by
  have hNone : client.owners action.request = 0 := h.unused _ hUnused
  have hHandled : entered.handled = client.handled := by
    rw [TcpClient.handled, hHandler, TcpClient.handled]
  have hPhaseAfter : ∀ id, (entered.setPhase action.request (.sending action)).phase id =
      if id = action.request then .sending action else client.phase id := by
    intro id
    rw [phase_setPhase, hPhase]
  have hOwners : ∀ id, (entered.setPhase action.request (.sending action)).owners id ≤
      client.owners id + if id = action.request then 1 else 0 := by
    intro id
    have hInserted := owners_of_pending hHandled hPhase hCompletions id
    have hSet := owners_setPhase entered id action.request (.sending action)
    simp only [hEntered, Finmap.mem_insert, Phase.nodes] at hInserted hSet
    grind
  refine ⟨?_, ?_, ?_, ?_, ?_, ?_, ?_⟩
  · intro id
    have hLe := hOwners id
    have hOnce := h.once id
    grind
  · intro id hPhaseId
    rw [hPhaseAfter] at hPhaseId
    have hLe := hOwners id
    have hZero := h.unused id
    grind
  · intro id value hPhaseId hMem
    rw [hPhaseAfter] at hPhaseId
    have hInsert : id ∈ client.pending.insert action.request action := hEntered ▸ hMem
    grind [Finmap.mem_insert, h.returned id value]
  · intro id found hLookup
    have hInsert : (client.pending.insert action.request action).lookup id = some found :=
      hEntered ▸ hLookup
    rcases Table.of_lookup_insert hInsert with ⟨rfl, rfl⟩ | ⟨_, hOld⟩
    · rfl
    · exact h.pending id found hOld
  · intro id found hPhaseId
    rw [hPhaseAfter] at hPhaseId
    grind [h.extracted id found]
  · intro found resp hFound
    exact h.handled found resp (hHandler ▸ hFound)
  · intro id resp hFound
    exact h.answered id resp (hCompletions ▸ hFound)

/-- The action of a request is taken out of the map. -/
structure Takes (client next : TcpClient Id Payload) (id : Id) : Prop where
  pending : next.pending = client.pending.erase id
  phase : next.phase = client.phase
  completions : next.completions = client.completions

theorem Takes.lookup (h : Takes client next id) {other : Id} {action : Action Id}
    (hLookup : next.pending.lookup other = some action) :
    client.pending.lookup other = some action := by
  rw [h.pending] at hLookup
  exact (Table.of_lookup_erase hLookup).2

theorem Takes.owners (h : Takes client next id) (hHandler : next.handler = client.handler)
    (other : Id) :
    next.owners other + (if other = id ∧ id ∈ client.pending then 1 else 0) =
      client.owners other := by
  have hHandled : next.handled = client.handled := by rw [handled, hHandler, handled]
  have hOwners := owners_of_pending hHandled h.phase h.completions other
  simp only [h.pending, Finmap.mem_erase] at hOwners
  grind

theorem takes_of_unlocked (hUnlocked : client.unlocked = true) (id : Id) :
    Takes client { client with responses := client.responses.erase id } id where
  pending := by
    rw [pending_of_unlocked client hUnlocked]
    exact pending_of_unlocked _ hUnlocked
  phase := rfl
  completions := rfl

theorem Owned.erase (h : Owned client) (hTakes : Takes client next id)
    (hHandler : next.handler = client.handler) : Owned next := by
  refine h.of_moves (fun other => Nat.le.intro (hTakes.owners hHandler other)) ?_
    (fun _ _ => hTakes.lookup) ?_ ?_ ?_ ?_
  · exact fun other hPhase => hTakes.phase ▸ hPhase
  · exact fun other value hPhase => Or.inl (hTakes.phase ▸ hPhase)
  · exact hTakes.phase ▸ h.extracted
  · exact hHandler ▸ h.handled
  · exact hTakes.completions ▸ h.answered

/-- An action that is taken out of the map belongs to the thread that took it. -/
theorem Owned.extract (h : Owned client) {action : Action Id} (hTakes : Takes client next id)
    (hHandler : next.handler = client.handler) (hLookup : client.pending.lookup id = some action) :
    Owned (next.setPhase id (.extracted action)) := by
  have hRequest : action.request = id := h.pending id action hLookup
  have hMem : id ∈ client.pending := Finmap.mem_iff.mpr ⟨action, hLookup⟩
  have hErased : Owned next := h.erase hTakes hHandler
  refine h.of_moves ?_ ?_ (fun _ _ => hTakes.lookup) ?_ ?_ hErased.handled hErased.answered
  · intro other
    have hTaken := hTakes.owners hHandler other
    have hSet := owners_setPhase next other id (.extracted action)
    have hNode : Phase.nodes (.extracted action : Phase Id Payload) = 1 := rfl
    grind
  all_goals
    simp only [phase_setPhase, hTakes.phase]
    grind [Owned]

/-- An action that was taken is completed. -/
theorem Owned.complete (h : Owned client) {action : Action Id}
    {value : Option (Response Id Payload)}
    (hOwners : ∀ other, next.owners other + (if other = action.request then 1 else 0) ≤
      client.owners other)
    (hPhase : next.phase = client.phase) (hPending : ∀ other found,
      next.pending.lookup other = some found → client.pending.lookup other = some found)
    (hHandled : ∀ found resp, next.handler = some (found, resp) → resp.requestId = found.request)
    (hCompletions : next.completions = client.completions)
    (hValue : ∀ resp, value = some resp → resp.requestId = action.request) :
    Owned (next.setResponseValue action value) := by
  refine h.of_moves ?_ ?_ hPending ?_ ?_ hHandled ?_
  · intro other
    rw [owners_setResponseValue]
    exact hOwners other
  · exact fun other hUnused => hPhase ▸ hUnused
  · exact fun other value hReturned => Or.inl (hPhase ▸ hReturned)
  · exact hPhase ▸ h.extracted
  · intro other resp hMem
    simp only [setResponseValue, hCompletions, List.mem_append, List.mem_singleton,
      Prod.mk.injEq] at hMem
    rcases hMem with hOld | ⟨rfl, hNew⟩
    · exact h.answered other resp hOld
    · exact hValue resp hNew.symm

/-- The destructor moves on without completing an action. -/
theorem Owned.of_same (h : Owned client) (hPending : next.pending = client.pending)
    (hHandler : next.handler = client.handler) (hPhase : next.phase = client.phase)
    (hCompletions : next.completions = client.completions) : Owned next := by
  have hHandled : next.handled = client.handled := by
    rw [TcpClient.handled, hHandler, TcpClient.handled]
  refine h.of_moves ?_ (fun other hUnused => hPhase ▸ hUnused) ?_
    (fun other value hReturned => Or.inl (hPhase ▸ hReturned)) (hPhase ▸ h.extracted)
    (hHandler ▸ h.handled) (hCompletions ▸ h.answered)
  · intro other
    rw [owners, owners, hPending, hHandled, hPhase, hCompletions]
  · exact fun other action hLookup => hPending ▸ hLookup

/-- An action that is owned by a calling thread or was completed is not in the map. -/
theorem Owned.notMem_pending (h : Owned client)
    (hElse : 0 < Phase.nodes (client.phase id) + (client.completions.map Prod.fst).count id) :
    id ∉ client.pending := by
  intro hMem
  have hOnce := h.once id
  rw [owners, if_pos hMem] at hOnce
  omega

theorem Owned.notMem_of_completed (h : Owned client) {value : Option (Response Id Payload)}
    (hLookup : client.completions.lookup id = some value) : id ∉ client.pending := by
  obtain ⟨before, after, hCompletions, _⟩ := List.lookup_eq_some_iff.mp hLookup
  refine h.notMem_pending (Nat.add_pos_right _ (List.count_pos_iff.mpr ?_))
  simp [hCompletions]

/-- A call that completes its own action returns and owns nothing any longer. -/
theorem Owned.completeOwn (h : Owned client) {action : Action Id}
    (hPhase : client.phase id = .extracted action) :
    Owned ((client.setResponseValue action none).setPhase id (.returned none)) := by
  have hRequest : action.request = id := h.extracted id action hPhase
  have hNode : Phase.nodes (client.phase id) = 1 := by rw [hPhase]; rfl
  have hNone : id ∉ client.pending := h.notMem_pending (by omega)
  have hSame : (client.setResponseValue action none).phase = client.phase := rfl
  refine h.of_moves ?_ ?_ (fun _ _ hLookup => hLookup) ?_ ?_ h.handled ?_
  · intro other
    have hSet := owners_setPhase (client.setResponseValue action none) other id (.returned none)
    rw [owners_setResponseValue, hRequest, hSame, hNode] at hSet
    have hNoNode : Phase.nodes (.returned none : Phase Id Payload) = 0 := rfl
    grind
  case refine_5 =>
      intro other resp hMem
      have hOld : (other, some resp) ∈ client.completions := by
        simpa [TcpClient.setPhase, setResponseValue] using hMem
      exact h.answered other resp hOld
  all_goals
    simp only [phase_setPhase, hSame]
    grind [Owned]

/-- The handler thread takes the action of the request that a response names. -/
theorem Owned.handle (h : Owned client) {resp : Response Id Payload} {action : Action Id}
    {taken : TcpClient Id Payload} (hTakes : Takes client taken resp.requestId)
    (hHandler : taken.handler = client.handler) (hNone : client.handler = none)
    (hLookup : client.pending.lookup resp.requestId = some action) :
    Owned { taken with handler := some (action, resp) } := by
  have hRequest : action.request = resp.requestId := h.pending _ action hLookup
  have hMem : resp.requestId ∈ client.pending := Finmap.mem_iff.mpr ⟨action, hLookup⟩
  have hErased : Owned taken := h.erase hTakes hHandler
  refine h.of_moves ?_ (fun other hUnused => hTakes.phase ▸ hUnused) (fun _ _ => hTakes.lookup)
    (fun other value hReturned => Or.inl (hTakes.phase ▸ hReturned)) hErased.extracted ?_
    hErased.answered
  · intro other
    have hTaken := hTakes.owners hHandler other
    have hHanded := owners_of_handled taken { taken with handler := some (action, resp) }
      rfl rfl rfl other
    simp only [TcpClient.handled, hHandler, hNone, Option.map_none, Option.map_some, hRequest,
      Option.some.injEq] at hHanded
    grind
  · rintro _ _ ⟨⟩
    exact hRequest.symm

/-- The handler thread completes the action with the response. -/
theorem Owned.answer (h : Owned client) {resp : Response Id Payload} {action : Action Id}
    (hHandler : client.handler = some (action, resp)) :
    Owned (setResponseValue { client with handler := none } action (some resp)) := by
  refine h.complete ?_ rfl (fun _ _ hLookup => hLookup) (by simp) rfl ?_
  · intro other
    have hHanded := owners_of_handled client { client with handler := none } rfl rfl rfl other
    simp only [TcpClient.handled, hHandler, Option.map_none, Option.map_some,
      Option.some.injEq] at hHanded
    grind
  · rintro _ ⟨⟩
    exact h.handled action resp hHandler

/-- The destructor completes an action that is left. -/
theorem Owned.abandon (h : Owned client) {action : Action Id} (hTakes : Takes client next id)
    (hHandler : next.handler = client.handler) (hLookup : client.pending.lookup id = some action) :
    Owned (next.setResponseValue action none) := by
  have hRequest : action.request = id := h.pending id action hLookup
  have hMem : id ∈ client.pending := Finmap.mem_iff.mpr ⟨action, hLookup⟩
  refine h.complete ?_ hTakes.phase (fun _ _ => hTakes.lookup) (hHandler ▸ h.handled)
    hTakes.completions (by simp)
  intro other
  have hTaken := hTakes.owners hHandler other
  rw [hRequest]
  grind

/-- An action is handed on in every step, and never to two places. Whoever takes it out of
the map completes it. -/
theorem Owned.step (h : Owned client) (hStep : client.step event = some next) : Owned next := by
  cases event with
  | call action =>
      simp only [TcpClient.step] at hStep
      split at hStep <;> cases hStep
      case _ hPhase hUnlocked =>
          refine h.call ?_ rfl rfl rfl hPhase
          rw [pending_of_unlocked client hUnlocked]
          exact pending_of_unlocked _ hUnlocked
  | sent id success =>
      simp only [TcpClient.step] at hStep
      split at hStep <;> cases hStep
      case _ request hPhase =>
          cases success <;> exact h.setPhase id (by rw [hPhase]; rfl) (by simp) (by simp) (by simp)
      case _ request hPhase =>
          cases success <;> exact h.setPhase id (by rw [hPhase]; rfl) (by simp) (by simp) (by simp)
  | timeout id =>
      simp only [TcpClient.step] at hStep
      split at hStep <;> cases hStep
      case _ hPhase => exact h.setPhase id (by rw [hPhase]; rfl) (by simp) (by simp) (by simp)
  | extract id =>
      simp only [TcpClient.step] at hStep
      split at hStep
      case _ hPhase hUnlocked =>
          have hSame := pending_of_unlocked client hUnlocked
          split at hStep <;> cases hStep
          case _ action hLookup =>
              exact h.extract (takes_of_unlocked hUnlocked id) rfl (hSame ▸ hLookup)
          case _ hLookup =>
              have hNone : id ∉ client.pending := hSame ▸ Finmap.lookup_eq_none.mp hLookup
              exact h.setPhase id (by rw [hPhase]; rfl) (by simp) (fun _ _ => hNone) (by simp)
      · cases hStep
  | complete id =>
      simp only [TcpClient.step] at hStep
      split at hStep <;> cases hStep
      case _ action hPhase =>
          exact h.completeOwn hPhase
  | get id =>
      simp only [TcpClient.step] at hStep
      split at hStep <;> cases hStep
      case _ value hPhase hLookup =>
          have hNone : id ∉ client.pending := h.notMem_of_completed hLookup
          exact h.setPhase id (by rw [hPhase]; rfl) (by simp) (fun _ _ => hNone) (by simp)
  | erase id =>
      simp only [TcpClient.step] at hStep
      split at hStep <;> cases hStep
      case _ hPhase hUnlocked =>
          exact (h.erase (takes_of_unlocked hUnlocked id) rfl).setPhase id
            (by rw [hPhase]; rfl) (by simp) (by simp) (by simp)
  | respond resp =>
      simp only [TcpClient.step] at hStep
      split at hStep
      case _ hHandler hDestructor =>
          have hUnlocked : client.unlocked = true := by rw [unlocked, hDestructor]
          split at hStep <;> cases hStep
          case _ action hLookup =>
              refine h.handle (takes_of_unlocked hUnlocked resp.requestId) rfl hHandler ?_
              exact (pending_of_unlocked client hUnlocked).symm ▸ hLookup
          case _ => exact h
      · cases hStep
  | handle =>
      simp only [TcpClient.step] at hStep
      split at hStep <;> cases hStep
      case _ action resp hHandler =>
          exact h.answer hHandler
  | join =>
      simp only [TcpClient.step] at hStep
      split at hStep <;> cases hStep
      case _ hDestructor =>
          refine h.of_same ?_ rfl rfl rfl
          simp [TcpClient.pending, hDestructor]
  | lock =>
      simp only [TcpClient.step] at hStep
      split at hStep <;> cases hStep
      case _ hDestructor =>
          refine h.of_same ?_ rfl rfl rfl
          simp [TcpClient.pending, hDestructor]
  | abandon id =>
      simp only [TcpClient.step] at hStep
      split at hStep
      case _ rest hDestructor =>
          obtain ⟨action, hLookup, rfl⟩ := Option.map_eq_some_iff.mp hStep
          have hPending : client.pending = rest := by rw [TcpClient.pending, hDestructor]
          refine h.abandon ⟨?_, rfl, rfl⟩ rfl (hPending ▸ hLookup)
          rw [hPending]
          rfl
      · cases hStep
  | clear =>
      simp only [TcpClient.step] at hStep
      split at hStep
      case _ rest hDestructor =>
          obtain ⟨rfl, hNext⟩ := Option.ite_none_right_eq_some.mp hStep
          cases hNext
          refine h.of_same ?_ rfl rfl rfl
          simp [TcpClient.pending, hDestructor]
      · cases hStep

theorem owned_start : Owned (start : TcpClient Id Payload) where
  once _ := Nat.zero_le 1
  unused _ _ := rfl
  returned _ _ h := nomatch h
  pending _ _ h := nomatch h
  extracted _ _ h := nomatch h
  handled _ _ h := nomatch h
  answered _ _ h := nomatch h

theorem owned_run {events : List (Event Id Payload)}
    (hRun : run step start events = some client) : Owned client :=
  run_invariant owned_start (fun _ _ _ h hStep => h.step hStep) hRun

/-- However the threads take turns, no action is completed twice, and none with the response
to another request. Once a synchronous call has returned, there is no entry for it whenever
the lock is free: whoever takes the lock finds none. -/
theorem completes_at_most_once {events : List (Event Id Payload)}
    {client : TcpClient Id Payload}
    (hRun : run step start events = some client) :
    (client.completions.map Prod.fst).Nodup ∧
      (∀ id resp, (id, some resp) ∈ client.completions → resp.requestId = id) ∧
      ∀ id value, client.phase id = .returned value → client.unlocked = true →
        client.responses.lookup id = none := by
  have hOwned := owned_run hRun
  refine ⟨?_, hOwned.answered, ?_⟩
  · rw [List.nodup_iff_count_le_one]
    intro id
    have hOnce := hOwned.once id
    rw [owners] at hOnce
    omega
  · intro id value hPhase hUnlocked
    rw [Finmap.lookup_eq_none, ← pending_of_unlocked client hUnlocked]
    exact hOwned.returned id value hPhase

/-- A request that is left when the client is destroyed. -/
def abandonedEvents : List (Event Nat Nat) :=
  [.call (.promise 0), .sent 0 true, .join, .lock, .abandon 0, .get 0]

/-- The destructor completes the promise and only then clears the map. In between the
waiting call returns while its entry is still there. -/
theorem entry_left_while_destroyed :
    ∃ client, run step start abandonedEvents = some client ∧
      client.phase 0 = .returned none ∧ client.responses.lookup 0 = some (.promise 0) := by
  have hTest : (run step (start : TcpClient Nat Nat) abandonedEvents).any
      (fun client => decide (client.phase 0 = .returned none ∧
        client.responses.lookup 0 = some (.promise 0))) = true := by
    decide +kernel
  obtain ⟨client, hRun, hValues⟩ := exists_run_of_test hTest
  exact ⟨client, hRun, of_decide_eq_true hValues⟩

/-- A timeout that races with the response, a response that comes twice and one to no
request, a request that is not sent, and one that is left to the destructor. -/
def racingEvents : List (Event Nat Nat) :=
  [.call (.promise 0), .call (.callback 1), .sent 0 true, .sent 1 true, .respond ⟨0, 7⟩,
    .timeout 0, .extract 0, .handle, .respond ⟨0, 7⟩, .respond ⟨9, 7⟩, .call (.promise 2),
    .sent 2 false, .extract 2, .complete 2, .join, .lock, .abandon 1, .clear]

theorem completes_at_most_once_racingEvents :
    ∃ client, run step start racingEvents = some client ∧
      client.completions.map Prod.fst = [0, 2, 1] ∧ (client.completions.map Prod.fst).Nodup ∧
      client.responses.lookup 2 = none := by
  have hTest : (run step (start : TcpClient Nat Nat) racingEvents).any
      (fun client => decide (client.completions.map Prod.fst = [0, 2, 1] ∧
        client.phase 2 = .returned none ∧ client.unlocked = true)) = true := by
    decide +kernel
  obtain ⟨client, hRun, hValues⟩ := exists_run_of_test hTest
  obtain ⟨hCompletions, hPhase, hUnlocked⟩ := of_decide_eq_true hValues
  obtain ⟨hOnce, _, hEntry⟩ := completes_at_most_once hRun
  exact ⟨client, hRun, hCompletions, hOnce, hEntry 2 none hPhase hUnlocked⟩

end Ownership

end TcpClient

end OpenCbdc.Rpc

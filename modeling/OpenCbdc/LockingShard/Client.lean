import OpenCbdc.Library.Run

/-! Stopping the client of a locking shard while requests are sent through it. Every load and
store of the two members that `send_request` and `stop` share is a step of its own. -/
namespace OpenCbdc

open TransitionSystem

/-- Where a call of `send_request` stands. -/
inductive Request where
  | unused
  /-- Before the condition of the loop. -/
  | entered
  /-- The condition has held, and `m_client` is used next. -/
  | checked
  /-- In `m_client->call`. -/
  | calling
  /-- The call has not been answered. -/
  | failed
  | returned
  /-- The call went through `m_client` after it was reset. -/
  | crashed
  deriving DecidableEq

/-- `m_running`, whether `m_client` points to an RPC client, and the calls of
`lock_outputs`, `apply_outputs` and `discard_dtx`. -/
structure ShardClient (Id : Type) where
  running : Bool
  client : Bool
  requests : Id → Request

namespace ShardClient

variable {Id : Type} [DecidableEq Id]

inductive Event (Id : Type) where
  | enter (id : Id)
  | check (id : Id)
  | use (id : Id)
  | result (id : Id) (answered : Bool)
  | retry (id : Id)
  | stop
  | reset

def start : ShardClient Id := { running := true, client := true, requests := fun _ => .unused }

def set (shard : ShardClient Id) (id : Id) (request : Request) : ShardClient Id :=
  { shard with requests := Function.update shard.requests id request }

/-- `stop` stores to `m_running` before it resets `m_client`. -/
def step (shard : ShardClient Id) : Event Id → Option (ShardClient Id)
  | .enter id =>
      if shard.requests id = .unused then some (shard.set id .entered) else none
  | .check id =>
      if shard.requests id = .entered then
        some (shard.set id (if shard.running then .checked else .returned))
      else none
  | .use id =>
      if shard.requests id = .checked then
        some (shard.set id (if shard.client then .calling else .crashed))
      else none
  | .result id answered =>
      if shard.requests id = .calling then
        some (shard.set id (if answered then .returned else .failed))
      else none
  -- The delay before the next attempt is left out.
  | .retry id =>
      if shard.requests id = .failed then some (shard.set id .entered) else none
  | .stop => some { shard with running := false }
  | .reset => if shard.running then none else some { shard with client := false }

section Stopping

variable {shard next : ShardClient Id} {event : Event Id}

theorem requests_set (shard : ShardClient Id) (id other : Id) (request : Request) :
    (shard.set id request).requests other =
      if other = id then request else shard.requests other :=
  Function.update_apply _ _ _ _

/-- What a step does to the members and to the calls. -/
structure Effect (shard next : ShardClient Id) : Prop where
  running : shard.running = false → next.running = false
  client : next.client = true → shard.client = true
  checked : ∀ id, next.requests id = .checked →
    shard.requests id = .checked ∨ shard.running = true
  crashed : ∀ id, next.requests id = .crashed →
    shard.requests id = .crashed ∨ shard.requests id = .checked ∧ shard.client = false

theorem effect_set {id : Id} {request : Request}
    (hChecked : request = .checked → shard.running = true)
    (hCrashed : request = .crashed → shard.requests id = .checked ∧ shard.client = false) :
    Effect shard (shard.set id request) where
  running h := h
  client h := h
  checked other h := by
    rw [requests_set] at h
    split at h
    · exact Or.inr (hChecked h)
    · exact Or.inl h
  crashed other h := by
    rw [requests_set] at h
    split at h
    case isTrue hSame => exact hSame ▸ Or.inr (hCrashed h)
    case isFalse => exact Or.inl h

/-- A controller that has stopped running stays stopped, and a call crashes only if it was
let in before and the client is gone. -/
theorem step_effect (hStep : shard.step event = some next) : Effect shard next := by
  cases event with
  | enter id | retry id =>
      obtain ⟨_, hNext⟩ := Option.ite_none_right_eq_some.mp hStep
      cases hNext
      exact effect_set nofun nofun
  | check id =>
      obtain ⟨_, hNext⟩ := Option.ite_none_right_eq_some.mp hStep
      cases hNext
      refine effect_set ?_ ?_ <;> cases shard.running <;> simp
  | use id =>
      obtain ⟨hRequest, hNext⟩ := Option.ite_none_right_eq_some.mp hStep
      cases hNext
      refine effect_set ?_ ?_ <;> cases shard.client <;> simp [hRequest]
  | result id answered =>
      obtain ⟨_, hNext⟩ := Option.ite_none_right_eq_some.mp hStep
      cases hNext
      refine effect_set ?_ ?_ <;> cases answered <;> simp
  | stop =>
      cases hStep
      exact ⟨fun _ => rfl, fun h => h, fun _ => Or.inl, fun _ => Or.inl⟩
  | reset =>
      obtain ⟨hRunning, hNext⟩ := Option.ite_none_left_eq_some.mp hStep
      cases hNext
      exact ⟨fun h => h, nofun, fun _ => Or.inl, fun _ => Or.inl⟩

/-- No call crashes before the reset. -/
theorem not_crashed_run {events : List (Event Id)}
    (hRun : run step start events = some shard) (hClient : shard.client = true)
    (id : Id) : shard.requests id ≠ .crashed := by
  refine run_invariant
    (motive := fun shard : ShardClient Id =>
      shard.client = true → ∀ id, shard.requests id ≠ .crashed) ?_ ?_ hRun hClient id
  · intro _ id hCrashed
    cases hCrashed
  · intro shard event next ih hStep hClient id hCrashed
    have hEffect := step_effect hStep
    rcases hEffect.crashed id hCrashed with hBefore | ⟨_, hReset⟩
    · exact ih (hEffect.client hClient) id hBefore
    · exact Bool.noConfusion (hReset.symm.trans (hEffect.client hClient))

/-- No call is behind the check, and none gets there. -/
structure Stopped (shard : ShardClient Id) : Prop where
  running : shard.running = false
  notChecked : ∀ id, shard.requests id ≠ .checked
  notCrashed : ∀ id, shard.requests id ≠ .crashed

theorem Stopped.step (h : Stopped shard) (hStep : shard.step event = some next) :
    Stopped next := by
  have hEffect := step_effect hStep
  refine ⟨hEffect.running h.running, fun id hChecked => ?_, fun id hCrashed => ?_⟩
  · rcases hEffect.checked id hChecked with hBefore | hRunning
    · exact h.notChecked id hBefore
    · exact Bool.noConfusion (h.running.symm.trans hRunning)
  · rcases hEffect.crashed id hCrashed with hBefore | ⟨hBefore, _⟩
    · exact h.notCrashed id hBefore
    · exact h.notChecked id hBefore

/-- Stopping is safe, whatever the calls do afterwards, exactly when no call is between its
check of `m_running` and its use of `m_client` when `stop` resets `m_client`. -/
theorem stop_safe_iff {events : List (Event Id)} {shard : ShardClient Id}
    (hRun : run step start events = some shard)
    (hRunning : shard.running = false) (hClient : shard.client = true) :
    (∀ later last,
        run step start (events ++ .reset :: later) = some last →
        ∀ id, last.requests id ≠ .crashed) ↔
      ∀ id, shard.requests id ≠ .checked := by
  have hReset : shard.step .reset = some { shard with client := false } := by
    simp [step, hRunning]
  have hLater : ∀ later, run step start (events ++ .reset :: later) =
      run step { shard with client := false } later := by
    intro later
    rw [run_append, hRun, Option.bind_some, run, hReset,
      Option.bind_some]
  constructor
  · intro hSafe id hChecked
    have hUse : run step start (events ++ .reset :: [.use id]) =
        some (set { shard with client := false } id .crashed) := by
      rw [hLater]
      simp [run, step, hChecked]
    refine hSafe _ _ hUse id ?_
    rw [requests_set, if_pos rfl]
  · intro hNone later last hLast
    rw [hLater] at hLast
    have hCrashed : ∀ id, shard.requests id ≠ .crashed := not_crashed_run hRun hClient
    have hStopped : Stopped { shard with client := false } := ⟨hRunning, hNone, hCrashed⟩
    exact (run_invariant hStopped (fun _ _ _ h hStep => h.step hStep)
      hLast).notCrashed

def waitingEvents : List (Event Nat) := [.enter 0, .check 0, .use 0, .stop]

theorem stop_safe_waiting :
    ∃ shard, run step start waitingEvents = some shard ∧
      ∀ later last,
        run step start (waitingEvents ++ .reset :: later) = some last →
        ∀ id, last.requests id ≠ .crashed := by
  have hRun : run step start waitingEvents =
      some ⟨false, true, Function.update (Function.update (Function.update (fun _ => .unused)
        0 .entered) 0 .checked) 0 .calling⟩ := rfl
  refine ⟨_, hRun, (stop_safe_iff hRun rfl rfl).mpr ?_⟩
  intro id hChecked
  by_cases hId : id = 0
  · subst hId
    cases hChecked
  · simp [Function.update_of_ne hId] at hChecked

/-- The client is stopped between the check and the use. -/
theorem stop_between_check_and_use :
    ∃ last, run step (start : ShardClient Nat)
        [.enter 0, .check 0, .stop, .reset, .use 0] = some last ∧
      last.client = false ∧ last.requests 0 = .crashed :=
  ⟨_, rfl, rfl, rfl⟩

end Stopping

end ShardClient

end OpenCbdc

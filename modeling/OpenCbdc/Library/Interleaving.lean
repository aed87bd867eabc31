import Mathlib.Data.List.Basic

/-! Machines that answer requests, each of which has an owner. What an owner
can observe of the state is an agreement between states. If a request reads
and writes only what its owner observes, then an owner sees the same replies
and the same final state in every schedule that keeps the order of its own
requests. -/
namespace Interleaving

variable {State Request Reply Key : Type}

/-- Answer the requests from left to right and record every reply. -/
def serve (step : State → Request → Option (State × Reply)) :
    State → List Request → Option (State × List (Request × Reply))
  | start, [] => some (start, [])
  | start, request :: rest =>
      (step start request).bind fun answer =>
        (serve step answer.1 rest).map fun last => (last.1, (request, answer.2) :: last.2)

variable {step : State → Request → Option (State × Reply)}

@[simp] theorem serve_nil (start : State) : serve step start [] = some (start, []) := rfl

/-- Serving a list serves the first request, and the rest from the state that it leaves. -/
theorem serve_cons {start finish : State} {request : Request} {rest : List Request}
    {log : List (Request × Reply)} :
    serve step start (request :: rest) = some (finish, log) ↔
      ∃ next reply later, step start request = some (next, reply) ∧
        serve step next rest = some (finish, later) ∧ log = (request, reply) :: later := by
  constructor
  · intro h
    obtain ⟨⟨next, reply⟩, hStep, hRest⟩ := Option.bind_eq_some_iff.mp h
    obtain ⟨⟨last, later⟩, hLater, hLast⟩ := Option.map_eq_some_iff.mp hRest
    cases hLast
    exact ⟨next, reply, later, hStep, hLater, rfl⟩
  · rintro ⟨next, reply, later, hStep, hLater, rfl⟩
    simp [serve, hStep, hLater]

/-- The requests touch what their owners observe and nothing else, in the
states that satisfy the invariant. -/
structure Separated (step : State → Request → Option (State × Reply)) (owner : Request → Key)
    (Allowed : Request → Prop) (Inv : State → Prop) (Agree : Key → State → State → Prop) :
    Prop where
  keeps : ∀ {state request next reply}, Inv state → Allowed request →
    step state request = some (next, reply) → Inv next
  own : ∀ {state alone request next reply}, Inv state → Inv alone → Allowed request →
    Agree (owner request) state alone → step alone request = some (next, reply) →
    ∃ last, step state request = some (last, reply) ∧ Agree (owner request) last next
  other : ∀ {key state alone request next reply}, Inv state → Allowed request →
    owner request ≠ key → Agree key state alone → step state request = some (next, reply) →
    Agree key next alone

variable [DecidableEq Key] {owner : Request → Key} {Allowed : Request → Prop}
  {Inv : State → Prop} {Agree : Key → State → State → Prop}

/-- If every owner's own requests succeed on their own, the schedule succeeds,
and each owner observes what it observes alone. -/
theorem Separated.serve_eq_alone (h : Separated step owner Allowed Inv Agree)
    {schedule : List Request} (hAllowed : ∀ request ∈ schedule, Allowed request) {start : State}
    (hStart : Inv start) {alone : Key → State} {logs : Key → List (Request × Reply)}
    (hAlone : ∀ key, ∃ state, Inv state ∧ Agree key start state ∧
      serve step state (schedule.filter fun request => owner request = key) =
        some (alone key, logs key)) :
    ∃ finish log, serve step start schedule = some (finish, log) ∧
      ∀ key, Agree key finish (alone key) ∧
        log.filter (fun entry => owner entry.1 = key) = logs key := by
  induction schedule generalizing start logs with
  | nil =>
      refine ⟨start, [], rfl, fun key => ?_⟩
      obtain ⟨state, _, hAgree, hServe⟩ := hAlone key
      obtain ⟨rfl, hLog⟩ := Prod.mk.inj (Option.some.inj hServe)
      exact ⟨hAgree, hLog⟩
  | cons request rest ih =>
      have hNow := hAllowed request List.mem_cons_self
      -- The owner's run alone begins with this request.
      obtain ⟨state, hState, hAgree, hServe⟩ := hAlone (owner request)
      rw [List.filter_cons_of_pos (by simp), serve_cons] at hServe
      obtain ⟨afterAlone, reply, later, hStepAlone, hLater, hLog⟩ := hServe
      obtain ⟨next, hStep, hNext⟩ := h.own hStart hState hNow hAgree hStepAlone
      have hRest : ∀ key, ∃ other, Inv other ∧ Agree key next other ∧
          serve step other (rest.filter fun request => owner request = key) =
            some (alone key, if owner request = key then later else logs key) := by
        intro key
        by_cases hKey : owner request = key
        · subst hKey
          exact ⟨afterAlone, h.keeps hState hNow hStepAlone, hNext, by simpa using hLater⟩
        · obtain ⟨other, hOther, hSame, hServeOther⟩ := hAlone key
          rw [List.filter_cons_of_neg (by simpa using hKey)] at hServeOther
          exact ⟨other, hOther, h.other hStart hNow hKey hSame hStep,
            by simpa [hKey] using hServeOther⟩
      obtain ⟨finish, log, hFinish, hKeys⟩ := ih
        (fun later hMem => hAllowed later (List.mem_cons_of_mem _ hMem))
        (h.keeps hStart hNow hStep) hRest
      refine ⟨finish, (request, reply) :: log, ?_, fun key => ?_⟩
      · exact serve_cons.mpr ⟨next, reply, log, hStep, hFinish, rfl⟩
      · obtain ⟨hLast, hFilter⟩ := hKeys key
        refine ⟨hLast, ?_⟩
        by_cases hKey : owner request = key
        · subst hKey
          rw [List.filter_cons_of_pos (by simp), hFilter, if_pos rfl, hLog]
        · rw [List.filter_cons_of_neg (by simpa using hKey), hFilter, if_neg hKey]

end Interleaving

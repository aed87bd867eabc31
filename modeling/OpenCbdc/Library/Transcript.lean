import OpenCbdc.Library.Run

/-! What a deterministic machine answers to a log. A fault ends the machine, and
the rest of the log is not applied. -/
namespace Transcript

variable {State Entry Reply Fault Observed : Type}
  {step : State → Entry → Except Fault (State × Reply)}

/-- Apply the entries in their order. The replies are those before a fault. -/
def replay (step : State → Entry → Except Fault (State × Reply)) :
    State → List Entry → List Reply × Except Fault State
  | state, [] => ([], .ok state)
  | state, entry :: rest =>
      match step state entry with
      | .error fault => ([], .error fault)
      | .ok (next, reply) =>
          let (replies, finish) := replay step next rest
          (reply :: replies, finish)

theorem replay_cons_ok {start next : State} {entry : Entry} {reply : Reply}
    (h : step start entry = .ok (next, reply)) (rest : List Entry) :
    replay step start (entry :: rest) =
      (reply :: (replay step next rest).1, (replay step next rest).2) := by
  rw [replay, h]

theorem replay_cons_error {start : State} {entry : Entry} {fault : Fault}
    (h : step start entry = .error fault) (rest : List Entry) :
    replay step start (entry :: rest) = ([], .error fault) := by
  rw [replay, h]

/-- The first step of a machine that does not fault. -/
theorem of_replay_cons {start finish : State} {entry : Entry} {rest : List Entry}
    {replies : List Reply} (h : replay step start (entry :: rest) = (replies, .ok finish)) :
    ∃ next reply later, step start entry = .ok (next, reply) ∧ replies = reply :: later ∧
      replay step next rest = (later, .ok finish) := by
  cases hStep : step start entry with
  | error fault =>
      rw [replay_cons_error hStep] at h
      cases h
  | ok result =>
      obtain ⟨next, reply⟩ := result
      rw [replay_cons_ok hStep] at h
      obtain ⟨hReplies, hFinish⟩ := Prod.mk.inj h
      exact ⟨next, reply, _, rfl, hReplies.symm, Prod.ext rfl hFinish⟩

/-- A log may be cut anywhere before the fault. -/
theorem replay_append {start middle : State} {first second : List Entry} {replies : List Reply}
    (h : replay step start first = (replies, .ok middle)) :
    replay step start (first ++ second) =
      (replies ++ (replay step middle second).1, (replay step middle second).2) := by
  induction first generalizing start replies with
  | nil =>
      cases h
      rfl
  | cons entry rest ih =>
      obtain ⟨next, reply, later, hStep, rfl, hRest⟩ := of_replay_cons h
      rw [List.cons_append, replay_cons_ok hStep, ih hRest]
      rfl

/-- The state of a machine that has not faulted is reached by its accepted steps. -/
theorem run_of_replay {start finish : State} {entries : List Entry} {replies : List Reply}
    (h : replay step start entries = (replies, .ok finish)) :
    TransitionSystem.run (fun state entry => ((step state entry).toOption).map Prod.fst) start
      entries = some finish := by
  induction entries generalizing start replies with
  | nil =>
      cases h
      rfl
  | cons entry rest ih =>
      obtain ⟨next, reply, later, hStep, _, hRest⟩ := of_replay_cons h
      simp only [TransitionSystem.run, hStep]
      exact ih hRest

/-- States that agree on everything a step looks at give the same answers for
ever. -/
theorem replay_eq_of_observe {observe : State → Observed}
    (h : ∀ first second entry, observe first = observe second →
      (step first entry).map (Prod.map observe id) = (step second entry).map (Prod.map observe id))
    {first second : State} (hStart : observe first = observe second) (entries : List Entry) :
    (replay step first entries).1 = (replay step second entries).1 ∧
      (replay step first entries).2.map observe = (replay step second entries).2.map observe := by
  induction entries generalizing first second with
  | nil => exact ⟨rfl, congrArg Except.ok hStart⟩
  | cons entry rest ih =>
      have hStep := h first second entry hStart
      cases hFirst : step first entry with
      | error fault =>
          cases hSecond : step second entry with
          | error other =>
              rw [hFirst, hSecond] at hStep
              cases hStep
              rw [replay_cons_error hFirst, replay_cons_error hSecond]
              exact ⟨rfl, rfl⟩
          | ok result =>
              rw [hFirst, hSecond] at hStep
              cases hStep
      | ok result =>
          cases hSecond : step second entry with
          | error fault =>
              rw [hFirst, hSecond] at hStep
              cases hStep
          | ok other =>
              rw [hFirst, hSecond] at hStep
              obtain ⟨hNext, hReply⟩ := Prod.mk.inj (Except.ok.inj hStep)
              obtain ⟨hReplies, hFinish⟩ := ih hNext
              rw [replay_cons_ok hFirst, replay_cons_ok hSecond]
              exact ⟨congrArg₂ List.cons hReply hReplies, hFinish⟩

end Transcript

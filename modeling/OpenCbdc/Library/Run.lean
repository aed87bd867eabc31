import Mathlib.Data.List.Induction

/-! Finite executions of a partial step function. An event that the step
function refuses ends the execution, so a returned state was reached through
accepted events only. Histories are read from the event list itself; no ghost
field is added to the states. -/
namespace TransitionSystem

variable {State Event : Type} {step : State → Event → Option State} {start finish : State}
  {events : List Event} {guard : State → Event → Prop} {event : Event}

/-- Process the events from left to right. -/
def run (step : State → Event → Option State) : State → List Event → Option State
  | start, [] => some start
  | start, event :: rest => (step start event).bind fun next => run step next rest

@[simp] theorem run_nil (step : State → Event → Option State) (start : State) :
    run step start [] = some start := rfl

theorem run_append (step : State → Event → Option State) (start : State)
    (first second : List Event) :
    run step start (first ++ second) =
      (run step start first).bind fun middle => run step middle second := by
  induction first generalizing start with
  | nil => rfl
  | cons event rest ih =>
      simp only [List.cons_append, run, Option.bind_assoc]
      congr 1
      funext next
      exact ih next

/-- The last event of an accepted run was accepted in the state reached by
the events before it. -/
theorem run_concat (step : State → Event → Option State) (start finish : State)
    (events : List Event) (event : Event) :
    run step start (events ++ [event]) = some finish ↔
      ∃ middle, run step start events = some middle ∧ step middle event = some finish := by
  rw [run_append, Option.bind_eq_some_iff]
  simp [run]

/-- Every prefix of an accepted run is accepted. -/
theorem run_prefix {first second : List Event}
    (h : run step start (first ++ second) = some finish) :
    ∃ middle, run step start first = some middle ∧ run step middle second = some finish := by
  rwa [run_append, Option.bind_eq_some_iff] at h

/-- Evaluate a fixed run and a test of the state it ends in. -/
theorem exists_run_of_test {test : State → Bool} (h : (run step start events).any test = true) :
    ∃ finish, run step start events = some finish ∧ test finish = true := by
  cases hRun : run step start events with
  | none => simp [hRun] at h
  | some finish => exact ⟨finish, rfl, by simpa [hRun] using h⟩

/-- A property of the events so far and of the state they lead to holds along
every run, once one step preserves it. -/
theorem run_induction {motive : List Event → State → Prop} (initial : motive [] start)
    (hStep : ∀ events state event next, run step start events = some state →
      motive events state → step state event = some next → motive (events ++ [event]) next)
    (h : run step start events = some finish) : motive events finish := by
  induction events using List.reverseRecOn generalizing finish with
  | nil =>
      cases h
      exact initial
  | append_singleton before event ih =>
      obtain ⟨middle, hBefore, hLast⟩ := (run_concat step start finish before event).mp h
      exact hStep before middle event finish hBefore (ih hBefore) hLast

/-- A step function that follows another one step by step follows its runs. -/
theorem run_simulation {Other : Type} {other : Other → Event → Option Other}
    {R : State → Other → Prop} {first : Other} (initial : R start first)
    (hStep : ∀ state event next middle, R state middle → step state event = some next →
      ∃ after, other middle event = some after ∧ R next after)
    (h : run step start events = some finish) :
    ∃ last, run other first events = some last ∧ R finish last := by
  refine run_induction
    (motive := fun events state => ∃ last, run other first events = some last ∧ R state last)
    ⟨first, rfl, initial⟩ ?_ h
  rintro events state event next _ ⟨middle, hRun, hMiddle⟩ hNext
  obtain ⟨after, hAfter, hRelated⟩ := hStep state event next middle hMiddle hNext
  exact ⟨after, (run_concat _ _ _ _ _).mpr ⟨middle, hRun, hAfter⟩, hRelated⟩

/-- Each event of the run meets the guard in the state in which it is taken. -/
def Guarded (step : State → Event → Option State) (start : State)
    (guard : State → Event → Prop) (events : List Event) : Prop :=
  ∀ before event after state, events = before ++ event :: after →
    run step start before = some state → guard state event

theorem Guarded.of_append {first second : List Event}
    (h : Guarded step start guard (first ++ second)) : Guarded step start guard first := by
  intro before event after state hEvents hRun
  exact h before event (after ++ second) state (by simp [hEvents]) hRun

theorem Guarded.concat (h : Guarded step start guard (events ++ [event])) :
    Guarded step start guard events ∧
      ∀ state, run step start events = some state → guard state event :=
  ⟨h.of_append, fun state hRun => h events event [] state rfl hRun⟩

/-- A longer run meets the guard if its last event does. -/
theorem Guarded.snoc (h : Guarded step start guard events)
    (hLast : ∀ state, run step start events = some state → guard state event) :
    Guarded step start guard (events ++ [event]) := by
  intro before other after state hEvents hRun
  rcases List.eq_nil_or_concat after with rfl | ⟨rest, last, rfl⟩
  · obtain ⟨rfl, hOther⟩ := List.append_inj' hEvents rfl
    rw [← List.singleton_inj.mp hOther]
    exact hLast state hRun
  · rw [List.concat_eq_append, ← List.cons_append, ← List.append_assoc] at hEvents
    exact h before other rest state (List.append_inj' hEvents rfl).1 hRun

theorem guarded_nil (start : State) (guard : State → Event → Prop) :
    Guarded step start guard [] := by
  intro before event after state hEvents
  simp at hEvents

/-- A run meets the guard if its first event does and the rest does from there. -/
theorem Guarded.cons {next : State} {rest : List Event} (hFirst : guard start event)
    (hStep : step start event = some next) (h : Guarded step next guard rest) :
    Guarded step start guard (event :: rest) := by
  intro before other after state hEvents hRun
  cases before with
  | nil =>
      obtain ⟨rfl, _⟩ := List.cons.inj hEvents
      cases hRun
      exact hFirst
  | cons first before =>
      obtain ⟨rfl, hRest⟩ := List.cons.inj hEvents
      rw [run, hStep] at hRun
      exact h before other after state hRest hRun

theorem guarded_cons_iff {next : State} {rest : List Event} (hStep : step start event = some next) :
    Guarded step start guard (event :: rest) ↔
      guard start event ∧ Guarded step next guard rest := by
  refine ⟨fun h => ⟨h [] event rest start rfl rfl, ?_⟩, fun h => .cons h.1 hStep h.2⟩
  intro before other after state hRest hRun
  refine h (event :: before) other after state (congrArg _ hRest) ?_
  rw [run, hStep]
  exact hRun

theorem Guarded.mono {weaker : State → Event → Prop} (h : Guarded step start guard events)
    (hWeaker : ∀ state event, guard state event → weaker state event) :
    Guarded step start weaker events :=
  fun before event after state hEvents hRun =>
    hWeaker state event (h before event after state hEvents hRun)

/-- Induction along the runs whose steps all meet a guard. -/
theorem guarded_induction {motive : List Event → State → Prop} (initial : motive [] start)
    (hStep : ∀ events state event next, run step start events = some state →
      Guarded step start guard events → motive events state → guard state event →
        step state event = some next → motive (events ++ [event]) next)
    (h : run step start events = some finish) (hGuard : Guarded step start guard events) :
    motive events finish := by
  refine run_induction (motive := fun events state =>
    Guarded step start guard events → motive events state) (fun _ => initial) ?_ h hGuard
  intro events state event next hRun ih hNext hAll
  obtain ⟨hBefore, hLast⟩ := hAll.concat
  exact hStep events state event next hRun hBefore (ih hBefore) (hLast state hRun) hNext

/-- Invariant rule for the runs whose steps all meet a guard. -/
theorem guarded_invariant {motive : State → Prop} (initial : motive start)
    (hStep : ∀ state event next, motive state → guard state event →
      step state event = some next → motive next) (h : run step start events = some finish)
    (hGuard : Guarded step start guard events) : motive finish :=
  guarded_induction (motive := fun _ state => motive state) initial
    (fun _ state event next _ _ hInv hNow hNext => hStep state event next hInv hNow hNext) h hGuard

/-- A guard that is needed for a property of the next state is met along a run whose
states all have the property. -/
theorem guarded_of_property {motive property : State → Prop}
    (hRun : run step start events = some finish)
    (hAll : ∀ before after state, events = before ++ after → run step start before = some state →
      property state) (initial : motive start)
    (hStep : ∀ state event next, motive state → guard state event →
      step state event = some next → motive next)
    (hNeeded : ∀ state event next, motive state → step state event = some next →
      property next → guard state event) : Guarded step start guard events := by
  induction events using List.reverseRecOn generalizing finish with
  | nil => exact guarded_nil start guard
  | append_singleton events event ih =>
      obtain ⟨middle, hBefore, hLast⟩ := (run_concat ..).mp hRun
      have hGuard : Guarded step start guard events :=
        ih hBefore fun before after state hEvents => hAll before (after ++ [event]) state
          (by rw [hEvents, List.append_assoc])
      refine hGuard.snoc ?_
      intro state hState
      obtain rfl : middle = state := Option.some.inj (hBefore.symm.trans hState)
      have hMotive : motive middle := guarded_invariant initial hStep hBefore hGuard
      exact hNeeded middle event finish hMotive hLast
        (hAll (events ++ [event]) [] finish (List.append_nil _).symm hRun)

/-- Invariant rule for all runs. -/
theorem run_invariant {motive : State → Prop} (initial : motive start)
    (hStep : ∀ state event next, motive state → step state event = some next →
      motive next) (h : run step start events = some finish) : motive finish :=
  run_induction (motive := fun _ state => motive state) initial
    (fun _ state event next _ hInv hNext => hStep state event next hInv hNext) h

/-- Some state passed by the run, its two ends included, has the property. -/
def Passed (step : State → Event → Option State) (start : State)
    (events : List Event) (property : State → Prop) : Prop :=
  ∃ before after state, events = before ++ after ∧
    run step start before = some state ∧ property state

theorem Passed.here {property : State → Prop} (h : run step start events = some finish)
    (hFinish : property finish) : Passed step start events property :=
  ⟨events, [], finish, by simp, h, hFinish⟩

/-- The last state of a longer run is the only one it adds. -/
theorem Passed.of_concat {property : State → Prop}
    (h : Passed step start (events ++ [event]) property)
    (hRun : run step start (events ++ [event]) = some finish) :
    Passed step start events property ∨ property finish := by
  obtain ⟨before, after, state, hEvents, hState, hProperty⟩ := h
  rcases List.eq_nil_or_concat after with rfl | ⟨rest, last, rfl⟩
  · rw [hEvents, List.append_nil] at hRun
    obtain rfl : state = finish := Option.some.inj (hState.symm.trans hRun)
    exact Or.inr hProperty
  · rw [List.concat_eq_append, ← List.append_assoc] at hEvents
    exact Or.inl ⟨before, rest, state, (List.append_inj' hEvents rfl).1, hState, hProperty⟩

theorem Passed.later {property : State → Prop} (h : Passed step start events property)
    (more : List Event) : Passed step start (events ++ more) property := by
  obtain ⟨before, after, state, hEvents, hRun, hState⟩ := h
  exact ⟨before, after ++ more, state, by simp [hEvents], hRun, hState⟩

/-- Some event of the run, taken in the state it found, has the property. -/
def Happened (step : State → Event → Option State) (start : State)
    (events : List Event) (property : State → Event → Prop) : Prop :=
  ∃ before event after state, events = before ++ event :: after ∧
    run step start before = some state ∧ property state event

theorem Happened.last {state : State} {property : State → Event → Prop}
    (h : run step start events = some state) (hEvent : property state event) :
    Happened step start (events ++ [event]) property :=
  ⟨events, event, [], state, rfl, h, hEvent⟩

theorem happened_nil (step : State → Event → Option State) (start : State)
    (property : State → Event → Prop) : ¬Happened step start [] property := by
  rintro ⟨before, event, after, state, hEvents, _⟩
  simp at hEvents

theorem happened_cons (step : State → Event → Option State) (start : State) (event : Event)
    (rest : List Event) (property : State → Event → Prop) :
    Happened step start (event :: rest) property ↔
      property start event ∨
        ∃ next, step start event = some next ∧ Happened step next rest property := by
  constructor
  · rintro ⟨before, other, after, state, hEvents, hRun, hState⟩
    cases before with
    | nil =>
        obtain ⟨rfl, rfl⟩ := List.cons.inj hEvents
        cases hRun
        exact Or.inl hState
    | cons first before =>
        obtain ⟨rfl, rfl⟩ := List.cons.inj hEvents
        obtain ⟨next, hNext, hRun⟩ := Option.bind_eq_some_iff.mp hRun
        exact Or.inr ⟨next, hNext, before, other, after, state, rfl, hRun, hState⟩
  · rintro (hHere | ⟨next, hNext, before, other, after, state, rfl, hRun, hState⟩)
    · exact ⟨[], event, rest, start, rfl, rfl, hHere⟩
    · exact ⟨event :: before, other, after, state, rfl, by simp [run, hNext, hRun], hState⟩

/-- A history can be searched by running it. -/
instance Happened.decidable (step : State → Event → Option State)
    (property : State → Event → Prop) [∀ state event, Decidable (property state event)] :
    ∀ (start : State) (events : List Event), Decidable (Happened step start events property)
  | start, [] => isFalse (happened_nil step start property)
  | start, event :: rest =>
      match hNext : step start event with
      | none => decidable_of_iff (property start event) (by simp [happened_cons, hNext])
      | some next =>
          have := Happened.decidable step property next rest
          decidable_of_iff (property start event ∨ Happened step next rest property)
            (by simp [happened_cons, hNext])

theorem guarded_iff_not_happened (step : State → Event → Option State) (start : State)
    (guard : State → Event → Prop) (events : List Event) :
    Guarded step start guard events ↔
      ¬Happened step start events (fun state event => ¬guard state event) := by
  constructor
  · rintro h ⟨before, event, after, state, hEvents, hRun, hNot⟩
    exact hNot (h before event after state hEvents hRun)
  · intro h before event after state hEvents hRun
    by_contra hNot
    exact h ⟨before, event, after, state, hEvents, hRun, hNot⟩

instance Guarded.decidable (step : State → Event → Option State)
    (guard : State → Event → Prop) [∀ state event, Decidable (guard state event)]
    (start : State) (events : List Event) : Decidable (Guarded step start guard events) :=
  decidable_of_iff _ (guarded_iff_not_happened step start guard events).symm

theorem Happened.later {property : State → Event → Prop} (h : Happened step start events property)
    (more : List Event) : Happened step start (events ++ more) property := by
  obtain ⟨before, event, after, state, hEvents, hRun, hState⟩ := h
  exact ⟨before, event, after ++ more, state, by simp [hEvents], hRun, hState⟩

/-- What the last event of a run adds to what has happened. -/
theorem happened_concat {state : State} {property : State → Event → Prop}
    (hRun : run step start events = some state) :
    Happened step start (events ++ [event]) property ↔
      Happened step start events property ∨ property state event := by
  constructor
  · rintro ⟨before, other, after, middle, hEvents, hMiddle, hOther⟩
    rcases List.eq_nil_or_concat after with rfl | ⟨rest, last, rfl⟩
    · obtain ⟨rfl, hLast⟩ := List.append_inj' hEvents rfl
      obtain rfl := List.singleton_inj.mp hLast
      obtain rfl : state = middle := Option.some.inj (hRun.symm.trans hMiddle)
      exact Or.inr hOther
    · rw [List.concat_eq_append, ← List.cons_append, ← List.append_assoc] at hEvents
      exact Or.inl ⟨before, other, rest, middle, (List.append_inj' hEvents rfl).1, hMiddle, hOther⟩
  · rintro (hBefore | hLast)
    · exact hBefore.later [event]
    · exact Happened.last hRun hLast

/-- Some event of the run has the property, and every event from that one on,
itself included, is of the kind that keeps its effect. -/
def Since (step : State → Event → Option State) (start : State) (events : List Event)
    (property kept : State → Event → Prop) : Prop :=
  ∃ before event after state, events = before ++ event :: after ∧
    run step start before = some state ∧ property state event ∧
    Guarded step state kept (event :: after)

theorem since_nil (step : State → Event → Option State) (start : State)
    (property kept : State → Event → Prop) : ¬Since step start [] property kept := by
  rintro ⟨before, event, after, state, hEvents, _⟩
  simp at hEvents

/-- What the last event of a run adds to its history. -/
theorem since_concat {state : State} {property kept : State → Event → Prop}
    (hRun : run step start events = some state) :
    Since step start (events ++ [event]) property kept ↔
      kept state event ∧ (property state event ∨ Since step start events property kept) := by
  constructor
  · rintro ⟨before, first, after, middle, hEvents, hMiddle, hFirst, hKept⟩
    rcases List.eq_nil_or_concat after with rfl | ⟨rest, last, rfl⟩
    · obtain ⟨rfl, hLast⟩ := List.append_inj' hEvents rfl
      obtain rfl := List.singleton_inj.mp hLast
      obtain rfl : state = middle := Option.some.inj (hRun.symm.trans hMiddle)
      exact ⟨hKept [] event [] state rfl rfl, Or.inl hFirst⟩
    · rw [List.concat_eq_append, ← List.cons_append] at hKept
      rw [List.concat_eq_append, ← List.cons_append, ← List.append_assoc] at hEvents
      obtain ⟨rfl, hLast⟩ := List.append_inj' hEvents rfl
      obtain rfl := List.singleton_inj.mp hLast
      obtain ⟨hBefore, hNow⟩ := hKept.concat
      have hRest : run step middle (first :: rest) = some state := by
        rwa [run_append, hMiddle] at hRun
      exact ⟨hNow state hRest, Or.inr ⟨before, first, rest, middle, rfl, hMiddle, hFirst, hBefore⟩⟩
  · rintro ⟨hNow, hHere | ⟨before, first, rest, middle, rfl, hMiddle, hFirst, hKept⟩⟩
    · refine ⟨events, event, [], state, rfl, hRun, hHere, ?_⟩
      exact (guarded_nil state kept).snoc fun same hSame => Option.some.inj hSame ▸ hNow
    · refine ⟨before, first, rest ++ [event], middle, by simp, hMiddle, hFirst, ?_⟩
      have hRest : run step middle (first :: rest) = some state := by
        rwa [run_append, hMiddle] at hRun
      exact hKept.snoc fun same hSame => Option.some.inj (hRest.symm.trans hSame) ▸ hNow

/-- An event that undoes the effect came before the event that has it last. -/
theorem Since.exists_after {property kept undone : State → Event → Prop}
    (h : Since step start events property kept) (hUndone : Happened step start events undone)
    (hNot : ∀ state event, undone state event → ¬kept state event) :
    ∃ before event after state, events = before ++ event :: after ∧
      run step start before = some state ∧ property state event ∧
      Guarded step state kept (event :: after) ∧ Happened step start before undone := by
  obtain ⟨before, first, after, middle, hEvents, hMiddle, hFirst, hKept⟩ := h
  refine ⟨before, first, after, middle, hEvents, hMiddle, hFirst, hKept, ?_⟩
  obtain ⟨earlier, event, later, state, hSplit, hRun, hEvent⟩ := hUndone
  rw [hEvents] at hSplit
  rcases List.append_eq_append_iff.mp hSplit with ⟨rest, hRest, hTail⟩ | ⟨rest, hRest, hTail⟩
  · -- The undoing event is not before the other, so the guard covers it.
    have hState : run step middle rest = some state := by
      rw [hRest, run_append, hMiddle] at hRun
      exact hRun
    exact absurd (hKept rest event later state hTail hState) (hNot state event hEvent)
  · cases rest with
    | nil =>
        rw [List.append_nil] at hRest
        subst hRest
        obtain rfl : middle = state := Option.some.inj (hMiddle.symm.trans hRun)
        exact absurd (hKept [] event later middle (by simpa using hTail.symm) rfl)
          (hNot middle event hEvent)
    | cons other rest =>
        obtain ⟨rfl, _⟩ := List.cons.inj hTail
        exact ⟨earlier, event, rest, state, hRest, hRun, hEvent⟩

end TransitionSystem

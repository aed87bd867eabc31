import Mathlib.Data.Finset.Card
import OpenCbdc.Library.Run

/-! The queue between producers and consumers. What a thread does under the mutex is one
step. A notification is sent after the mutex is released, and a consumer that was woken has
to take the mutex again; in between any other thread may come. -/
namespace OpenCbdc

open TransitionSystem

/-- `blocking_queue` with the threads in its methods, what was pushed, what `pop` has returned
to whom, and whether `clear` was called. -/
structure BlockingQueue (Thread α : Type) where
  buffer : List α
  wake : Bool
  /-- The consumers that wait on `m_cv`. -/
  waiting : Finset Thread
  /-- The consumers that have left `m_cv` and not yet taken the mutex. -/
  woken : Finset Thread
  /-- The producers that have not called `notify_one` yet. -/
  notifyOnes : Nat
  /-- The threads in `clear` that have not called `notify_all` yet. -/
  notifyAlls : Nat
  pushed : List α
  popped : List (Thread × Option α)
  cleared : Bool

namespace BlockingQueue

inductive Event (Thread α : Type) where
  | push (item : α)
  | notifyOne (thread : Option Thread)
  | pop (thread : Thread)
  | spurious (thread : Thread)
  | resume (thread : Thread)
  | clear
  | notifyAll

variable {Thread α : Type}

def empty : BlockingQueue Thread α := ⟨[], false, ∅, ∅, 0, 0, [], [], false⟩

/-- The end of `pop`. The flag is left alone when there is nothing to pop. -/
def finish (queue : BlockingQueue Thread α) (thread : Thread) : BlockingQueue Thread α :=
  match queue.buffer with
  | [] => { queue with popped := queue.popped ++ [(thread, none)] }
  | item :: rest =>
      { queue with
        buffer := rest
        wake := !rest.isEmpty
        popped := queue.popped ++ [(thread, some item)] }

theorem waiting_finish (queue : BlockingQueue Thread α) (thread : Thread) :
    (queue.finish thread).waiting = queue.waiting := by
  unfold finish
  split <;> rfl

variable [DecidableEq Thread]

/-- A consumer leaves `m_cv`. -/
def rouse (queue : BlockingQueue Thread α) (thread : Thread) : BlockingQueue Thread α :=
  { queue with
    waiting := queue.waiting.erase thread
    woken := insert thread queue.woken }

def step (queue : BlockingQueue Thread α) : Event Thread α → Option (BlockingQueue Thread α)
  | .push item =>
      some { queue with
        buffer := queue.buffer ++ [item]
        wake := true
        notifyOnes := queue.notifyOnes + 1
        pushed := queue.pushed ++ [item] }
  | .notifyOne thread =>
      let notified := { queue with notifyOnes := queue.notifyOnes - 1 }
      if queue.notifyOnes = 0 then none
      else
        match thread with
        | none => if queue.waiting = ∅ then some notified else none
        | some thread => if thread ∈ queue.waiting then some (notified.rouse thread) else none
  | .pop thread =>
      if thread ∈ queue.waiting ∪ queue.woken then none
      else if queue.buffer.isEmpty && !queue.wake then
        some { queue with waiting := insert thread queue.waiting }
      else some (queue.finish thread)
  | .spurious thread => if thread ∈ queue.waiting then some (queue.rouse thread) else none
  | .resume thread =>
      let running := { queue with woken := queue.woken.erase thread }
      if thread ∉ queue.woken then none
      else if queue.wake then some (running.finish thread)
      else some { running with waiting := insert thread queue.waiting }
  | .clear =>
      some { queue with
        buffer := []
        wake := true
        notifyAlls := queue.notifyAlls + 1
        cleared := true }
  | .notifyAll =>
      if queue.notifyAlls = 0 then none
      else some { queue with
        waiting := ∅
        woken := queue.woken ∪ queue.waiting
        notifyAlls := queue.notifyAlls - 1 }

def taken (queue : BlockingQueue Thread α) : List α := queue.popped.filterMap Prod.snd

section Invariant

variable {queue next : BlockingQueue Thread α} {event : Event Thread α}

/-- Nothing is lost and every consumer gets an element. -/
structure Lossless (queue : BlockingQueue Thread α) : Prop where
  flag : queue.wake = !queue.buffer.isEmpty
  order : queue.taken ++ queue.buffer = queue.pushed
  served : ∀ result ∈ queue.popped, result.2.isSome

/-- While some consumer waits, there are as many others on their way as there are elements,
and an empty queue with the flag set is one that was just cleared. -/
structure Inv (queue : BlockingQueue Thread α) : Prop where
  disjoint : Disjoint queue.waiting queue.woken
  flag : queue.buffer ≠ [] → queue.wake = true
  enough : queue.waiting.Nonempty → queue.buffer.length ≤ queue.woken.card + queue.notifyOnes
  noticed : queue.waiting.Nonempty → queue.wake = true → queue.buffer = [] →
    0 < queue.notifyAlls
  order : (queue.taken ++ queue.buffer).Sublist queue.pushed
  lossless : queue.cleared = false → queue.Lossless

omit [DecidableEq Thread] in
theorem inv_empty : Inv (empty : BlockingQueue Thread α) where
  disjoint := Finset.disjoint_empty_left _
  flag := nofun
  enough h := by simp [empty] at h
  noticed h := by simp [empty] at h
  order := List.Sublist.refl _
  lossless _ := ⟨rfl, rfl, by simp [empty]⟩

omit [DecidableEq Thread] in
/-- The consumer that leaves takes an element with it, so it was one too many. -/
theorem inv_finish (hDisjoint : Disjoint queue.waiting queue.woken)
    (hReady : queue.wake = true)
    (hEnough : queue.waiting.Nonempty →
      queue.buffer.length ≤ queue.woken.card + queue.notifyOnes + 1)
    (hNoticed : queue.waiting.Nonempty → queue.wake = true → queue.buffer = [] →
      0 < queue.notifyAlls)
    (hOrder : (queue.taken ++ queue.buffer).Sublist queue.pushed)
    (hLossless : queue.cleared = false → queue.Lossless) (thread : Thread) :
    Inv (queue.finish thread) := by
  unfold finish
  split
  case h_1 hBuffer =>
    refine ⟨hDisjoint, fun _ => hReady, fun _ => by simp [hBuffer], hNoticed, ?_, ?_⟩
    · simpa [taken] using hOrder
    · -- Only `clear` sets the flag of an empty queue.
      intro hCleared
      have hFlag := (hLossless hCleared).flag
      simp [hReady, hBuffer] at hFlag
  case h_2 item rest hBuffer =>
    rw [hBuffer] at hEnough hOrder
    refine ⟨hDisjoint, ?_, ?_, ?_, ?_, ?_⟩
    · cases rest <;> simp
    · intro hWaiting
      exact Nat.succ_le_succ_iff.mp (hEnough hWaiting)
    · rintro _ hWake rfl
      cases hWake
    · simpa [taken] using hOrder
    · intro hCleared
      have hBefore := hLossless hCleared
      have hAll := hBefore.order
      rw [hBuffer] at hAll
      refine ⟨rfl, by simpa [taken] using hAll, ?_⟩
      simpa [or_imp, forall_and] using hBefore.served

/-- A consumer that is woken is on its way. -/
theorem Inv.rouse (h : Inv queue) {thread : Thread} (hThread : thread ∈ queue.waiting)
    {fewer : Nat} (hFewer : queue.notifyOnes ≤ fewer + 1) :
    Inv ({ queue with notifyOnes := fewer }.rouse thread) := by
  have hNew : thread ∉ queue.woken := Finset.disjoint_left.mp h.disjoint hThread
  have hSome : queue.waiting.Nonempty := ⟨thread, hThread⟩
  refine ⟨?_, h.flag, ?_, fun _ => h.noticed hSome, h.order, ?_⟩
  · simp only [BlockingQueue.rouse, Finset.disjoint_insert_right, Finset.notMem_erase,
      not_false_eq_true, true_and]
    exact h.disjoint.mono_left (Finset.erase_subset _ _)
  · intro _
    have hLe := h.enough hSome
    simp only [BlockingQueue.rouse, Finset.card_insert_of_notMem hNew]
    omega
  · exact fun hCleared => { h.lossless hCleared with }

/-- A consumer waits because the flag is not set. -/
theorem Inv.wait (h : Inv queue) (hWake : queue.wake = false) {thread : Thread}
    {woken : Finset Thread} (hWoken : woken ⊆ queue.woken) (hThread : thread ∉ woken) :
    Inv { queue with waiting := insert thread queue.waiting, woken := woken } := by
  have hBuffer : queue.buffer = [] := by
    by_contra hSome
    simp [h.flag hSome] at hWake
  refine ⟨?_, h.flag, fun _ => by simp [hBuffer], ?_, h.order, ?_⟩
  · rw [Finset.disjoint_insert_left]
    exact ⟨hThread, h.disjoint.mono_right hWoken⟩
  · intro _ hSet
    simp [hWake] at hSet
  · exact fun hCleared => { h.lossless hCleared with }

/-- Every event keeps the invariant. The count of those on their way is what rules out that
an element stays while all consumers sleep. -/
theorem Inv.step (h : Inv queue) (hStep : queue.step event = some next) : Inv next := by
  cases event with
  | push item =>
      cases hStep
      refine ⟨h.disjoint, fun _ => rfl, ?_, ?_, ?_, ?_⟩
      · intro hWaiting
        have hLe := h.enough hWaiting
        simp only [List.length_append, List.length_singleton]
        omega
      · intro _ _ hBuffer
        simp at hBuffer
      · have hOrder := h.order.append (List.Sublist.refl [item])
        rwa [List.append_assoc] at hOrder
      · intro hCleared
        have hBefore := h.lossless hCleared
        refine ⟨by simp, ?_, hBefore.served⟩
        rw [← hBefore.order, List.append_assoc]
        rfl
  | notifyOne thread =>
      obtain ⟨hSome, hNext⟩ := Option.ite_none_left_eq_some.mp hStep
      cases thread with
      | none =>
          obtain ⟨hNobody, hDone⟩ := Option.ite_none_right_eq_some.mp hNext
          cases hDone
          refine ⟨h.disjoint, h.flag, ?_, ?_, h.order, fun hCleared => { h.lossless hCleared with }⟩
          all_goals
            intro hWaiting
            simp [hNobody] at hWaiting
      | some thread =>
          obtain ⟨hThread, hDone⟩ := Option.ite_none_right_eq_some.mp hNext
          cases hDone
          exact h.rouse hThread (by omega)
  | pop thread =>
      obtain ⟨hFree, hNext⟩ := Option.ite_none_left_eq_some.mp hStep
      split at hNext
      case isTrue hBlocked =>
        cases hNext
        rw [Bool.and_eq_true, Bool.not_eq_true'] at hBlocked
        exact h.wait hBlocked.2 (Finset.Subset.refl _) fun hWoken =>
          hFree (Finset.mem_union_right _ hWoken)
      case isFalse hReady =>
        cases hNext
        refine inv_finish h.disjoint ?_ (fun hWaiting => (h.enough hWaiting).trans (by omega))
          h.noticed h.order h.lossless thread
        by_contra hWake
        have hBuffer : queue.buffer = [] := by
          by_contra hSome
          exact hWake (h.flag hSome)
        simp [hBuffer, hWake] at hReady
  | spurious thread =>
      obtain ⟨hThread, hDone⟩ := Option.ite_none_right_eq_some.mp hStep
      cases hDone
      exact h.rouse hThread (by omega)
  | resume thread =>
      obtain ⟨hThread, hNext⟩ := Option.ite_none_left_eq_some.mp hStep
      have hSubset := Finset.erase_subset thread queue.woken
      split at hNext
      case isTrue hWake =>
        cases hNext
        refine @inv_finish _ _ { queue with woken := queue.woken.erase thread }
          (h.disjoint.mono_right hSubset) hWake ?_ h.noticed h.order
          (fun hCleared => { h.lossless hCleared with }) thread
        intro hWaiting
        have hLe := h.enough hWaiting
        have hCard := Finset.card_erase_add_one (not_not.mp hThread)
        simp only
        omega
      case isFalse hWake =>
        cases hNext
        exact h.wait (Bool.eq_false_iff.mpr hWake) hSubset (Finset.notMem_erase _ _)
  | clear =>
      cases hStep
      refine ⟨h.disjoint, fun _ => rfl, fun _ => by simp, fun _ _ _ => Nat.succ_pos _, ?_, nofun⟩
      have hOrder := (List.sublist_append_left queue.taken queue.buffer).trans h.order
      simpa [taken] using hOrder
  | notifyAll =>
      obtain ⟨_, hDone⟩ := Option.ite_none_left_eq_some.mp hStep
      cases hDone
      refine ⟨Finset.disjoint_empty_left _, h.flag, ?_, ?_, h.order,
        fun hCleared => { h.lossless hCleared with }⟩
      all_goals
        intro hWaiting
        simp at hWaiting

end Invariant

/-- Whatever the threads do and in whatever order: while a consumer waits, every element in the
queue has a consumer or a notification on its way to it, so that once nothing is on its way
only an empty queue that was not cleared has waiting consumers. Elements are handed out in the
order in which they were pushed, each at most once. While nobody clears the queue none is lost
and no consumer leaves without one. -/
theorem no_lost_wakeup (events : List (Event Thread α)) (queue : BlockingQueue Thread α)
    (hRun : run step empty events = some queue) :
    (queue.waiting.Nonempty →
      queue.buffer.length ≤ queue.woken.card + queue.notifyOnes ∧
        (queue.woken = ∅ → queue.notifyOnes = 0 → queue.notifyAlls = 0 →
          queue.buffer = [] ∧ queue.wake = false)) ∧
      (queue.taken ++ queue.buffer).Sublist queue.pushed ∧
        (queue.cleared = false →
          queue.taken ++ queue.buffer = queue.pushed ∧
            ∀ result ∈ queue.popped, result.2.isSome) := by
  have hInv : Inv queue := run_invariant inv_empty (fun _ _ _ h hStep => h.step hStep) hRun
  refine ⟨fun hWaiting => ⟨hInv.enough hWaiting, ?_⟩, hInv.order, fun hCleared => ?_⟩
  · intro hWoken hOnes hAlls
    have hLe := hInv.enough hWaiting
    rw [hWoken, hOnes, Finset.card_empty] at hLe
    have hBuffer : queue.buffer = [] := List.length_eq_zero_iff.mp (Nat.le_zero.mp hLe)
    refine ⟨hBuffer, Bool.eq_false_iff.mpr fun hWake => ?_⟩
    have hPending := hInv.noticed hWaiting hWake hBuffer
    omega
  · exact ⟨(hInv.lossless hCleared).order, (hInv.lossless hCleared).served⟩

/-- Two consumers wait and two elements come. One consumer wakes up by itself before it is
notified, but a third one that never waited takes the first element, so it waits again. -/
def overtaken : List (Event (Fin 3) Nat) :=
  [.pop 0, .pop 1, .push 5, .spurious 0, .push 6, .notifyOne (some 1), .pop 2, .resume 1,
    .resume 0, .notifyOne (some 0), .resume 0]

theorem no_lost_wakeup_overtaken :
    ∃ queue, run step empty overtaken = some queue ∧
      queue.popped = [(2, some 5), (1, some 6)] ∧ queue.waiting = {0} ∧
        queue.wake = false ∧ queue.taken ++ queue.buffer = queue.pushed := by
  have hTest : (run step empty overtaken).any (fun queue => decide
      (queue.popped = [(2, some 5), (1, some 6)] ∧ queue.waiting = {0} ∧ queue.woken = ∅ ∧
        queue.notifyOnes = 0 ∧ queue.notifyAlls = 0 ∧ queue.cleared = false)) = true := by
    decide +kernel
  obtain ⟨queue, hRun, hQueue⟩ := exists_run_of_test hTest
  obtain ⟨hPopped, hWaiting, hWoken, hOnes, hAlls, hCleared⟩ := of_decide_eq_true hQueue
  have hAll := no_lost_wakeup overtaken queue hRun
  have hSome : queue.waiting.Nonempty := hWaiting ▸ Finset.singleton_nonempty 0
  exact ⟨queue, hRun, hPopped, hWaiting, ((hAll.1 hSome).2 hWoken hOnes hAlls).2,
    (hAll.2.2 hCleared).1⟩

end BlockingQueue

end OpenCbdc

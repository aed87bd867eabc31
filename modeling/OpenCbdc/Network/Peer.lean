import OpenCbdc.Common.BlockingQueue

/-! The sending side of a connection. A thread takes packets from a queue and sends them.
Another thread closes the connection: it stops the loop of the first one, clears the queue
and waits for the end of the thread. Packets may come in at any time. -/
namespace OpenCbdc

open TransitionSystem

/-- Where the thread of `do_send` stands: at the test of its loop, in `pop`, in
`tcp_socket::send`, or at its end. -/
inductive SendThread (Packet : Type) where
  | test
  | pop
  | send (pkt : Packet)
  | ended

/-- How many steps the thread has before it at most, once its loop is stopped. -/
def SendThread.rank {Packet : Type} : SendThread Packet → Nat
  | pop => 3
  | send _ => 2
  | test => 1
  | ended => 0

/-- Where `close` stands. It is called by the thread that reconnects, and by `shutdown` when
that thread has ended. -/
inductive Closing where
  | opened
  | stopped
  | joining
  | closed
deriving DecidableEq

/-- The part of a `peer` that the sending of packets uses. -/
structure Peer (Packet : Type) where
  sendQueue : BlockingQueue Unit Packet
  running : Bool
  thread : SendThread Packet
  closing : Closing

namespace Peer

inductive Event (Packet : Type) where
  /-- What other threads do with the queue in `send`, when `m_shut_down` is not set, or a
  wake-up of the thread. -/
  | outside (event : BlockingQueue.Event Unit Packet)
  | test
  | pop (resumed : Bool)
  /-- `tcp_socket::send` returns. -/
  | sent (success : Bool)
  | close
  | clear
  | join
  | reconnect

variable {Packet : Type}

def start : Peer Packet := ⟨.empty, true, .test, .opened⟩

def isOutside : BlockingQueue.Event Unit Packet → Bool
  | .pop _ | .resume _ | .clear => false
  | _ => true

/-- The thread goes on with what `pop` has returned, unless it waits. -/
def afterPop (queue : BlockingQueue Unit Packet) : SendThread Packet :=
  if () ∈ queue.waiting then .pop
  else
    match queue.popped.getLast? with
    | some (_, some pkt) => .send pkt
    | _ => .test

def popEvent (resumed : Bool) : BlockingQueue.Event Unit Packet :=
  if resumed then .resume () else .pop ()

def step (peer : Peer Packet) : Event Packet → Option (Peer Packet)
  | .outside event =>
      if isOutside event then
        (peer.sendQueue.step event).map fun queue => { peer with sendQueue := queue }
      else none
  | .test =>
      match peer.thread with
      | .test => some { peer with thread := if peer.running then .pop else .ended }
      | _ => none
  | .pop resumed =>
      match peer.thread with
      | .pop => (peer.sendQueue.step (popEvent resumed)).map fun queue =>
          { peer with sendQueue := queue, thread := afterPop queue }
      | _ => none
  | .sent success =>
      match peer.thread with
      | .send _ => some { peer with thread := if success then .test else .ended }
      | _ => none
  | .close =>
      if peer.closing = .opened ∨ peer.closing = .closed then
        some { peer with running := false, closing := .stopped }
      else none
  | .clear =>
      if peer.closing = .stopped then
        (peer.sendQueue.step .clear).map fun queue =>
          { peer with sendQueue := queue, closing := .joining }
      else none
  | .join =>
      match peer.closing, peer.thread with
      | .joining, .ended => some { peer with closing := .closed }
      | _, _ => none
  | .reconnect =>
      if peer.closing = .closed then
        some { peer with running := true, thread := .test, closing := .opened }
      else none

def Event.isOwn : Event Packet → Bool
  | .test | .pop _ | .sent _ => true
  | _ => false

section Invariant

variable {queue after : BlockingQueue Unit Packet} {peer next : Peer Packet}
  {event : Event Packet}

structure Inv (peer : Peer Packet) : Prop where
  queue : peer.sendQueue.Inv
  stopped : peer.closing ≠ .opened → peer.running = false
  ready : peer.closing = .joining → peer.thread = .pop → peer.sendQueue.wake = true

/-- A thread that finds the flag set comes out of `pop`. -/
theorem rank_afterPop (h : queue.Inv) (hWake : queue.wake = true) {resumed : Bool}
    (hStep : queue.step (popEvent resumed) = some after) : (afterPop after).rank < 3 := by
  have hOut : () ∉ after.waiting := by
    cases resumed with
    | false =>
        obtain ⟨hFree, hNext⟩ := Option.ite_none_left_eq_some.mp hStep
        simp only [hWake, Bool.not_true, Bool.and_false, Bool.false_eq_true, if_false,
          Option.some.injEq] at hNext
        rw [← hNext, BlockingQueue.waiting_finish]
        exact fun hIn => hFree (Finset.mem_union_left _ hIn)
    | true =>
        obtain ⟨hWoken, hNext⟩ := Option.ite_none_left_eq_some.mp hStep
        rw [if_pos hWake, Option.some.injEq] at hNext
        rw [← hNext, BlockingQueue.waiting_finish]
        exact Finset.disjoint_right.mp h.disjoint (not_not.mp hWoken)
  rw [afterPop, if_neg hOut]
  split <;> simp [SendThread.rank]

/-- Only the thread that pops, or a clear, can lower the flag. -/
theorem wake_of_outside {event : BlockingQueue.Event Unit Packet} (hOutside : isOutside event)
    (hStep : queue.step event = some after) (hWake : queue.wake = true) : after.wake = true := by
  cases event with
  | push pkt =>
      cases hStep
      rfl
  | notifyOne thread =>
      obtain ⟨_, hNext⟩ := Option.ite_none_left_eq_some.mp hStep
      cases thread with
      | none | some =>
          obtain ⟨_, hDone⟩ := Option.ite_none_right_eq_some.mp hNext
          cases hDone
          exact hWake
  | spurious thread =>
      obtain ⟨_, hDone⟩ := Option.ite_none_right_eq_some.mp hStep
      cases hDone
      exact hWake
  | notifyAll =>
      obtain ⟨_, hDone⟩ := Option.ite_none_left_eq_some.mp hStep
      cases hDone
      exact hWake
  | pop | resume | clear => cases hOutside

/-- While `close` waits for the thread, each step of the thread brings it nearer to its end
and no other step takes it away from there. -/
theorem Inv.step (h : Inv peer) (hStep : peer.step event = some next) :
    Inv next ∧ (peer.closing = .joining → event ≠ .join → next.closing = .joining ∧
      next.thread.rank + (if event.isOwn then 1 else 0) ≤ peer.thread.rank) := by
  cases event with
  | outside event =>
      obtain ⟨hOutside, hNext⟩ := Option.ite_none_right_eq_some.mp hStep
      obtain ⟨queue, hQueue, rfl⟩ := Option.map_eq_some_iff.mp hNext
      refine ⟨⟨h.queue.step hQueue, h.stopped, fun hJoining hPop => ?_⟩,
        fun hJoining _ => ⟨hJoining, le_rfl⟩⟩
      exact wake_of_outside hOutside hQueue (h.ready hJoining hPop)
  | test =>
      simp only [Peer.step] at hStep
      split at hStep <;> cases hStep
      case h_1 hThread =>
        have hEnds : peer.closing = .joining → peer.running = false :=
          fun hJoining => h.stopped (by simp [hJoining])
        refine ⟨⟨h.queue, h.stopped, fun hJoining hPop => ?_⟩, fun hJoining _ => ⟨hJoining, ?_⟩⟩
        · simp [hEnds hJoining] at hPop
        · simp [hEnds hJoining, hThread, SendThread.rank, Event.isOwn]
  | pop resumed =>
      simp only [Peer.step] at hStep
      split at hStep
      case h_2 => cases hStep
      case h_1 hThread =>
        obtain ⟨queue, hQueue, rfl⟩ := Option.map_eq_some_iff.mp hStep
        have hLeaves := fun hJoining =>
          rank_afterPop h.queue (h.ready hJoining hThread) hQueue
        refine ⟨⟨h.queue.step hQueue, h.stopped, fun hJoining hPop => ?_⟩,
          fun hJoining _ => ⟨hJoining, ?_⟩⟩
        · have hRank := hLeaves hJoining
          simp [show afterPop queue = .pop from hPop, SendThread.rank] at hRank
        · rw [hThread]
          exact hLeaves hJoining
  | sent success =>
      simp only [Peer.step] at hStep
      split at hStep <;> cases hStep
      case h_1 pkt hThread =>
        refine ⟨⟨h.queue, h.stopped, fun _ hPop => ?_⟩, fun hJoining _ => ⟨hJoining, ?_⟩⟩
        · cases success <;> cases hPop
        · cases success <;> simp [hThread, SendThread.rank, Event.isOwn]
  | close =>
      obtain ⟨hOpen, hNext⟩ := Option.ite_none_right_eq_some.mp hStep
      cases hNext
      refine ⟨⟨h.queue, fun _ => rfl, nofun⟩, fun hJoining => ?_⟩
      simp [hJoining] at hOpen
  | clear =>
      obtain ⟨hStopped, hNext⟩ := Option.ite_none_right_eq_some.mp hStep
      obtain ⟨queue, hQueue, rfl⟩ := Option.map_eq_some_iff.mp hNext
      refine ⟨⟨h.queue.step hQueue, fun _ => h.stopped (by simp [hStopped]), fun _ _ => ?_⟩,
        fun hJoining => ?_⟩
      · cases hQueue
        rfl
      · simp [hStopped] at hJoining
  | join =>
      simp only [Peer.step] at hStep
      split at hStep <;> cases hStep
      case h_1 hJoining _ =>
        exact ⟨⟨h.queue, fun _ => h.stopped (by simp [hJoining]), nofun⟩, fun _ hOther =>
          absurd rfl hOther⟩
  | reconnect =>
      obtain ⟨hClosed, hNext⟩ := Option.ite_none_right_eq_some.mp hStep
      cases hNext
      refine ⟨⟨h.queue, fun hOpened => absurd rfl hOpened, nofun⟩, fun hJoining => ?_⟩
      simp [hClosed] at hJoining

theorem inv_start : Inv (start : Peer Packet) :=
  ⟨BlockingQueue.inv_empty, fun hOpened => absurd rfl hOpened, nofun⟩

/-- A notification is on its way to a thread that waits while the flag is set. -/
theorem notified_of_waiting (h : queue.Inv) (hWake : queue.wake = true)
    (hWaiting : () ∈ queue.waiting) : 0 < queue.notifyOnes + queue.notifyAlls := by
  have hWoken : queue.woken = ∅ := by
    rw [Finset.eq_empty_iff_forall_notMem]
    exact fun _ => Finset.disjoint_left.mp h.disjoint hWaiting
  have hLe := h.enough ⟨(), hWaiting⟩
  by_cases hBuffer : queue.buffer = []
  · have hAlls := h.noticed ⟨(), hWaiting⟩ hWake hBuffer
    omega
  · have hLength := List.length_pos_of_ne_nil hBuffer
    rw [hWoken, Finset.card_empty] at hLe
    omega

end Invariant

variable {events : List (Event Packet)} {peer : Peer Packet}

/-- `close` does not wait for ever. While it waits for the thread, whatever else happens, the
thread has at most three steps left, and before its end it can take the next one or waits
for a notification that is on its way. -/
theorem close_returns (hRun : run step start events = some peer)
    (hJoining : peer.closing = .joining) :
    (∀ later next, run step peer later = some next → .join ∉ later →
      later.countP Event.isOwn + next.thread.rank ≤ 3) ∧
      (peer.thread = .ended ∨ (∃ event next, event.isOwn = true ∧ peer.step event = some next) ∨
        () ∈ peer.sendQueue.waiting ∧
          0 < peer.sendQueue.notifyOnes + peer.sendQueue.notifyAlls) := by
  have hInv : Inv peer := run_invariant inv_start (fun _ _ _ h hStep => (h.step hStep).1) hRun
  constructor
  · intro later next hLater hNoJoin
    have hMost : peer.thread.rank ≤ 3 := by cases peer.thread <;> simp [SendThread.rank]
    refine le_trans ?_ hMost
    refine ((run_induction (motive := fun taken state => Inv state ∧ (.join ∉ taken →
      state.closing = .joining ∧
        taken.countP Event.isOwn + state.thread.rank ≤ peer.thread.rank))
      ⟨hInv, fun _ => ⟨hJoining, by simp⟩⟩ ?_ hLater).2 hNoJoin).2
    rintro taken state event after _ ⟨hState, hTaken⟩ hStep
    obtain ⟨hAfter, hNearer⟩ := hState.step hStep
    refine ⟨hAfter, fun hNone => ?_⟩
    rw [List.mem_append, List.mem_singleton, not_or] at hNone
    obtain ⟨hStill, hBound⟩ := hTaken hNone.1
    obtain ⟨hClosing, hRank⟩ := hNearer hStill (Ne.symm hNone.2)
    refine ⟨hClosing, ?_⟩
    rw [List.countP_append, List.countP_singleton]
    omega
  · cases hThread : peer.thread with
    | ended => exact Or.inl rfl
    | test => exact Or.inr (Or.inl ⟨.test, by simp [step, hThread, Event.isOwn]⟩)
    | send pkt => exact Or.inr (Or.inl ⟨.sent true, by simp [step, hThread, Event.isOwn]⟩)
    | pop =>
        have hWake := hInv.ready hJoining hThread
        by_cases hWaiting : () ∈ peer.sendQueue.waiting
        · exact Or.inr (Or.inr ⟨hWaiting, notified_of_waiting hInv.queue hWake hWaiting⟩)
        refine Or.inr (Or.inl ⟨.pop (decide (() ∈ peer.sendQueue.woken)), ?_⟩)
        by_cases hWoken : () ∈ peer.sendQueue.woken
        · simp [step, hThread, popEvent, hWoken, BlockingQueue.step, hWake, Event.isOwn]
        · simp [step, hThread, popEvent, hWoken, BlockingQueue.step, hWaiting, hWake, Event.isOwn]

/-- The thread waits for a packet when the peer is closed, and a last packet comes in. -/
def lastPacket : List (Event Nat) := [.test, .pop false, .close, .clear, .outside (.push 7)]

theorem close_returns_lastPacket :
    ∃ peer : Peer Nat, run step start lastPacket = some peer ∧ () ∈ peer.sendQueue.waiting ∧
      ∀ later next, run step peer later = some next → .join ∉ later →
        later.countP Event.isOwn + next.thread.rank ≤ 3 := by
  have hTest : (run step start lastPacket).any (fun peer =>
      decide (peer.closing = .joining ∧ () ∈ peer.sendQueue.waiting)) = true := by
    decide +kernel
  obtain ⟨peer, hRun, hPeer⟩ := exists_run_of_test hTest
  obtain ⟨hJoining, hWaiting⟩ := of_decide_eq_true hPeer
  exact ⟨peer, hRun, hWaiting, (close_returns hRun hJoining).1⟩

end Peer

end OpenCbdc

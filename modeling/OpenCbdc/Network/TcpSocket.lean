import OpenCbdc.Library.Run
import OpenCbdc.Serialization.Codec

/-! Packets on a byte stream. A packet is written after its size, in as many pieces as the
operating system makes of it, and read in as many other pieces. -/
namespace OpenCbdc

open Decoder Serialization TransitionSystem

/-- What `tcp_socket::send` writes for a packet. -/
def frame (pkt : Buffer) : List UInt8 := putUInt64 pkt.bytes.length ++ pkt.bytes

/-- Where the calls of `tcp_socket::send` stand: in the loop that writes the size, in the
loop that writes the packet, after the last call, or after one that has failed. -/
inductive Sender where
  | size (totalWritten : Nat) (pkt : Buffer) (later : List Buffer)
  | data (totalWritten : Nat) (pkt : Buffer) (later : List Buffer)
  | returned
  | failed

namespace Sender

/-- The next call. -/
def next : List Buffer → Sender
  | [] => returned
  | pkt :: later => size 0 pkt later

/-- The first test of the loop that writes the packet. -/
def enterData (pkt : Buffer) (later : List Buffer) : Sender :=
  if pkt.bytes.length = 0 then next later else data 0 pkt later

/-- The operating system takes some of the bytes that `write` offers to it. No byte stands
for an error. -/
def write : Sender → Nat → Option (List UInt8 × Sender)
  | size totalWritten pkt later, n =>
      if n = 0 then some ([], failed)
      else if n ≤ 8 - totalWritten then
        some (((putUInt64 pkt.bytes.length).drop totalWritten).take n,
          if totalWritten + n = 8 then enterData pkt later
          else size (totalWritten + n) pkt later)
      else none
  | data totalWritten pkt later, n =>
      if n = 0 then some ([], failed)
      else if n ≤ pkt.bytes.length - totalWritten then
        some ((pkt.bytes.drop totalWritten).take n,
          if totalWritten + n = pkt.bytes.length then next later
          else data (totalWritten + n) pkt later)
      else none
  | returned, _ | failed, _ => none

end Sender

/-- Where `tcp_socket::receive` stands: in the loop that reads the size, in the loop that
reads the packet, or after a failure. Both loops count the bytes that they have read. -/
inductive Receiver where
  | size (szBuf : List UInt8)
  | data (pktSz : Nat) (pkt : List UInt8)
  | failed

namespace Receiver

/-- The first test of the loop that reads the packet. An empty packet is returned at
once, and the next call begins. -/
def enterData (pktSz : Nat) : Receiver × Option (List UInt8) :=
  if 0 < pktSz then (data pktSz [], none) else (size [], some [])

/-- The number of bytes that `read` asks for. -/
def requested : Receiver → Nat
  | size szBuf => 8 - szBuf.length
  | data pktSz pkt => pktSz - pkt.length
  | failed => 0

/-- The operating system gives some bytes of the stream, and a packet is returned when it
is complete. -/
def read : Receiver → List UInt8 → Receiver × Option (List UInt8)
  | size szBuf, piece =>
      if piece = [] then (failed, none)
      else if (szBuf ++ piece).length = 8 then enterData (integerOf (szBuf ++ piece))
      else (size (szBuf ++ piece), none)
  | data pktSz pkt, piece =>
      if piece = [] then (failed, none)
      else if (pkt ++ piece).length < pktSz then (data pktSz (pkt ++ piece), none)
      else (size [], some (pkt ++ piece))
  | failed, _ => (failed, none)

end Receiver

/-- A sender and a receiver, the bytes that are between them, and what `receive` has
returned. -/
structure Connection where
  sender : Sender
  stream : List UInt8
  receiver : Receiver
  received : List (List UInt8)

namespace Connection

/-- A call of the operating system returns, with this number of bytes. -/
inductive Event where
  | wrote (n : Nat)
  | read (n : Nat)

def Event.bytes : Event → Nat
  | wrote n => n
  | read n => n

/-- Nothing has been sent yet. -/
def start (packets : List Buffer) : Connection :=
  { sender := .next packets, stream := [], receiver := .size [], received := [] }

/-- `read` waits until there is a byte. -/
def step (conn : Connection) : Event → Option Connection
  | .wrote n =>
      (conn.sender.write n).map fun (piece, sender) =>
        { conn with sender := sender, stream := conn.stream ++ piece }
  | .read n =>
      if n ≤ conn.receiver.requested ∧ n ≤ conn.stream.length then
        let (receiver, pkt) := conn.receiver.read (conn.stream.take n)
        some { conn with
          stream := conn.stream.drop n
          receiver := receiver
          received := conn.received ++ pkt.toList }
      else none

end Connection

namespace Sender

variable {sender after : Sender} {piece : List UInt8} {n : Nat}

def pending : Sender → List UInt8
  | size totalWritten pkt later =>
      (putUInt64 pkt.bytes.length).drop totalWritten ++ pkt.bytes ++ later.flatMap frame
  | data totalWritten pkt later => pkt.bytes.drop totalWritten ++ later.flatMap frame
  | returned => []
  | failed => []

/-- The loops go on only while there is something to write. -/
def Busy : Sender → Prop
  | size totalWritten _ _ => totalWritten < 8
  | data totalWritten pkt _ => totalWritten < pkt.bytes.length
  | returned => True
  | failed => False

theorem busy_next (packets : List Buffer) : (next packets).Busy := by
  cases packets with
  | nil => trivial
  | cons pkt later => exact Nat.zero_lt_succ 7

theorem pending_next (packets : List Buffer) : (next packets).pending = packets.flatMap frame := by
  cases packets with
  | nil => rfl
  | cons pkt later => simp [next, pending, frame]

theorem enterData_spec (pkt : Buffer) (later : List Buffer) :
    (enterData pkt later).Busy ∧
      (enterData pkt later).pending = pkt.bytes ++ later.flatMap frame := by
  unfold enterData
  split
  case isTrue hEmpty =>
      rw [List.length_eq_zero_iff.mp hEmpty, pending_next]
      exact ⟨busy_next later, rfl⟩
  case isFalse hSome => exact ⟨Nat.pos_of_ne_zero hSome, rfl⟩

theorem take_append_drop_add {α : Type} (l : List α) (w n : Nat) :
    (l.drop w).take n ++ l.drop (w + n) = l.drop w := by
  rw [← List.drop_drop, List.take_append_drop]

/-- A piece that is taken is the first part of what is to be written. -/
theorem write_spec (hBusy : sender.Busy) (hWrite : sender.write n = some (piece, after))
    (hSome : n ≠ 0) :
    after.Busy ∧ sender.pending = piece ++ after.pending ∧ piece.length = n := by
  cases sender with
  | size totalWritten pkt later =>
      simp only [write, if_neg hSome, Option.ite_none_right_eq_some, Option.some.injEq,
        Prod.mk.injEq] at hWrite
      obtain ⟨hLe, rfl, rfl⟩ := hWrite
      have hLength : (putUInt64 pkt.bytes.length).length = 8 := length_putInteger 8 _
      have hSplit := take_append_drop_add (putUInt64 pkt.bytes.length) totalWritten n
      refine ⟨?_, ?_, ?_⟩
      · split
        · exact (enterData_spec pkt later).1
        case isFalse hMore =>
            show totalWritten + n < 8
            omega
      · split
        case isTrue hDone =>
            rw [pending, (enterData_spec pkt later).2, List.append_assoc, List.take_of_length_le]
            rw [List.length_drop, hLength]
            omega
        case isFalse =>
            rw [pending, pending, ← List.append_assoc, ← List.append_assoc, hSplit]
      · rw [List.length_take, List.length_drop, hLength]
        omega
  | data totalWritten pkt later =>
      simp only [write, if_neg hSome, Option.ite_none_right_eq_some, Option.some.injEq,
        Prod.mk.injEq] at hWrite
      obtain ⟨hLe, rfl, rfl⟩ := hWrite
      have hMoreBytes : totalWritten < pkt.bytes.length := hBusy
      have hSplit := take_append_drop_add pkt.bytes totalWritten n
      refine ⟨?_, ?_, ?_⟩
      · split
        · exact busy_next later
        case isFalse hMore =>
            show totalWritten + n < pkt.bytes.length
            omega
      · split
        case isTrue hDone =>
            rw [pending, pending_next, List.take_of_length_le]
            rw [List.length_drop]
            omega
        case isFalse => rw [pending, pending, ← List.append_assoc, hSplit]
      · rw [List.length_take, List.length_drop]
        omega
  | returned => cases hWrite
  | failed => cases hWrite

/-- As long as there is something to write, a byte of it can be taken. -/
theorem exists_write (hBusy : sender.Busy) (hPending : sender.pending ≠ []) :
    ∃ result, sender.write 1 = some result := by
  cases sender with
  | size totalWritten pkt later =>
      have hLess : totalWritten < 8 := hBusy
      simp only [write, if_neg Nat.one_ne_zero]
      rw [if_pos (by omega)]
      exact ⟨_, rfl⟩
  | data totalWritten pkt later =>
      have hLess : totalWritten < pkt.bytes.length := hBusy
      simp only [write, if_neg Nat.one_ne_zero]
      rw [if_pos (by omega)]
      exact ⟨_, rfl⟩
  | returned => exact absurd rfl hPending
  | failed => exact absurd rfl hPending

end Sender

namespace Receiver

variable {receiver : Receiver} {piece rest : List UInt8} {left : List Buffer}

/-- What has been read of the packet that is not complete yet. -/
def taken : Receiver → List UInt8
  | size szBuf => szBuf
  | data pktSz pkt => putUInt64 pktSz ++ pkt
  | failed => []

/-- The loops go on only while there is something to read. -/
def Waits : Receiver → Prop
  | size szBuf => szBuf.length < 8
  | data pktSz pkt => pkt.length < pktSz ∧ pktSz < 256 ^ 8
  | failed => False

theorem waits_requested (h : receiver.Waits) : 0 < receiver.requested := by
  cases receiver with
  | size szBuf => exact Nat.sub_pos_of_lt h
  | data pktSz pkt => exact Nat.sub_pos_of_lt h.1
  | failed => cases h

/-- The bytes from the begin of a packet to the end of the stream determine the size of
the packet. -/
theorem size_eq {szBuf : List UInt8} (hLength : szBuf.length = 8)
    (hStream : szBuf ++ rest = left.flatMap frame) :
    ∃ pkt later, left = pkt :: later ∧ szBuf = putUInt64 pkt.bytes.length ∧
      rest = pkt.bytes ++ later.flatMap frame := by
  cases left with
  | nil =>
      have hNil : szBuf = [] := (List.append_eq_nil_iff.mp hStream).1
      rw [hNil] at hLength
      cases hLength
  | cons pkt later =>
      rw [List.flatMap_cons, frame, List.append_assoc] at hStream
      have hSize : (putUInt64 pkt.bytes.length).length = 8 := length_putInteger 8 _
      obtain ⟨hHead, hTail⟩ := List.append_inj hStream (hLength.trans hSize.symm)
      exact ⟨pkt, later, rfl, hHead, hTail⟩

theorem integerOf_size (pkt : Buffer) :
    integerOf (putUInt64 pkt.bytes.length) = pkt.bytes.length :=
  integerOf_putInteger (pkt.size_lt.trans (by decide))

theorem data_eq {pktSz : Nat} {pkt : List UInt8} (hSize : pktSz < 256 ^ 8)
    (hStream : putUInt64 pktSz ++ pkt ++ rest = left.flatMap frame) :
    ∃ first later, left = first :: later ∧ pktSz = first.bytes.length ∧
      pkt ++ rest = first.bytes ++ later.flatMap frame := by
  rw [List.append_assoc] at hStream
  obtain ⟨first, later, rfl, hHead, hTail⟩ := size_eq (length_putInteger 8 _) hStream
  refine ⟨first, later, rfl, ?_, hTail⟩
  have hInteger := congrArg integerOf hHead
  rw [integerOf_size] at hInteger
  exact (integerOf_putInteger hSize).symm.trans hInteger

/-- A piece that is read completes the next packet or not; what is left begins with
what has been read of the packet after it. -/
theorem read_spec (hWaits : receiver.Waits) (hPiece : piece ≠ [])
    (hLe : piece.length ≤ receiver.requested)
    (hStream : receiver.taken ++ piece ++ rest = left.flatMap frame) :
    ∃ later : List Buffer,
      left.map Buffer.bytes = (receiver.read piece).2.toList ++ later.map Buffer.bytes ∧
      (receiver.read piece).1.Waits ∧
      (receiver.read piece).1.taken ++ rest = later.flatMap frame := by
  cases receiver with
  | size szBuf =>
      have hLess : szBuf.length < 8 := hWaits
      have hMost : piece.length ≤ 8 - szBuf.length := hLe
      by_cases hDone : (szBuf ++ piece).length = 8
      · obtain ⟨pkt, later, rfl, hSize, rfl⟩ := size_eq hDone hStream
        rw [read, if_neg hPiece, if_pos hDone, hSize, integerOf_size, enterData]
        split
        case isTrue hSome =>
            refine ⟨pkt :: later, rfl, ⟨hSome, pkt.size_lt.trans (by decide)⟩, ?_⟩
            simp [taken, frame]
        case isFalse hEmpty =>
            have hNil : pkt.bytes = [] := List.length_eq_zero_iff.mp (by omega)
            refine ⟨later, ?_, Nat.zero_lt_succ 7, ?_⟩
            · simp [hNil]
            · simp [taken, hNil]
      · rw [read, if_neg hPiece, if_neg hDone]
        rw [List.length_append] at hDone
        refine ⟨left, rfl, ?_, hStream⟩
        show (szBuf ++ piece).length < 8
        rw [List.length_append]
        omega
  | data pktSz pkt =>
      obtain ⟨hLess, hSize⟩ := hWaits
      have hMost : piece.length ≤ pktSz - pkt.length := hLe
      by_cases hMore : (pkt ++ piece).length < pktSz
      · rw [read, if_neg hPiece, if_pos hMore]
        refine ⟨left, rfl, ⟨hMore, hSize⟩, ?_⟩
        rw [← hStream]
        simp [taken]
      · rw [taken, List.append_assoc (putUInt64 pktSz)] at hStream
        obtain ⟨first, later, rfl, rfl, hTail⟩ := data_eq hSize hStream
        rw [read, if_neg hPiece, if_neg hMore]
        rw [List.length_append] at hMore
        have hLength : (pkt ++ piece).length = first.bytes.length := by
          rw [List.length_append]
          omega
        obtain ⟨hPacket, hRest⟩ := List.append_inj hTail hLength
        refine ⟨later, ?_, Nat.zero_lt_succ 7, hRest⟩
        simp [hPacket]
  | failed => cases hWaits

end Receiver

namespace Connection

variable {packets : List Buffer} {conn next : Connection} {event : Event}

/-- Nothing is lost, added or moved: what has been read of the next packet, what is
between the two ends and what is to be written are the packets that are left. -/
structure Framed (packets : List Buffer) (conn : Connection) : Prop where
  busy : conn.sender.Busy
  waits : conn.receiver.Waits
  left : ∃ left : List Buffer, packets.map Buffer.bytes = conn.received ++ left.map Buffer.bytes ∧
    conn.receiver.taken ++ conn.stream ++ conn.sender.pending = left.flatMap frame

theorem framed_start (packets : List Buffer) : Framed packets (start packets) where
  busy := Sender.busy_next packets
  waits := Nat.zero_lt_succ 7
  left := ⟨packets, rfl, Sender.pending_next packets⟩

/-- The bytes that are written and then read, and those that are only to be read. -/
def work (conn : Connection) : Nat := 2 * conn.sender.pending.length + conn.stream.length

/-- Every piece that is written or read, however short, keeps the frames and uses up work.
-/
theorem Framed.step (h : Framed packets conn) (hSome : event.bytes ≠ 0)
    (hStep : conn.step event = some next) :
    Framed packets next ∧ next.work + event.bytes = conn.work := by
  obtain ⟨left, hReceived, hStream⟩ := h.left
  cases event with
  | wrote n =>
      obtain ⟨⟨piece, sender⟩, hWrite, rfl⟩ := Option.map_eq_some_iff.mp hStep
      obtain ⟨hBusy, hPending, hLength⟩ := Sender.write_spec h.busy hWrite hSome
      refine ⟨⟨hBusy, h.waits, left, hReceived, ?_⟩, ?_⟩
      · rw [hPending] at hStream
        rw [← hStream]
        simp
      · simp only [work, Event.bytes, hPending, List.length_append, hLength]
        omega
  | read n =>
      simp only [Connection.step, Option.ite_none_right_eq_some, Option.some.injEq] at hStep
      obtain ⟨⟨hRequested, hStreamed⟩, rfl⟩ := hStep
      have hLength : (conn.stream.take n).length = n := List.length_take_of_le hStreamed
      have hPiece : conn.stream.take n ≠ [] := by
        intro hNil
        rw [hNil] at hLength
        exact hSome hLength.symm
      have hSplit : conn.receiver.taken ++ conn.stream.take n ++
          (conn.stream.drop n ++ conn.sender.pending) = left.flatMap frame := by
        rw [← hStream, List.append_assoc, ← List.append_assoc (conn.stream.take n),
          List.take_append_drop, List.append_assoc]
      obtain ⟨later, hLeft, hWaits, hLater⟩ :=
        Receiver.read_spec h.waits hPiece (hLength.trans_le hRequested) hSplit
      refine ⟨⟨h.busy, hWaits, later, ?_, ?_⟩, ?_⟩
      · rw [hReceived, hLeft, List.append_assoc]
      · rw [List.append_assoc]
        exact hLater
      · simp only [work, Event.bytes, List.length_drop]
        omega

/-- Along every run the packets stay framed, and each event has used up some of the work. -/
theorem framed_run {events : List Event}
    (hRun : run step (start packets) events = some conn)
    (hPieces : ∀ event ∈ events, event.bytes ≠ 0) :
    Framed packets conn ∧ conn.work + events.length ≤ (start packets).work := by
  have hAll := run_induction
    (motive := fun (events : List Event) state => (∀ event ∈ events, event.bytes ≠ 0) →
      Framed packets state ∧ state.work + events.length ≤ (start packets).work)
    (fun _ => ⟨framed_start packets, Nat.le_refl _⟩)
    (fun events state event next _ ih hStep hPieces => by
      obtain ⟨hBefore, hLast⟩ := List.forall_mem_append.mp hPieces
      rw [List.forall_mem_singleton] at hLast
      obtain ⟨hFramed, hWork⟩ := ih hBefore
      obtain ⟨hNext, hLess⟩ := hFramed.step hLast hStep
      refine ⟨hNext, ?_⟩
      rw [List.length_append, List.length_singleton]
      omega)
    hRun
  exact hAll hPieces

/-- As long as there is something between the two ends or to be written, a byte of it
moves. -/
theorem Framed.exists_step (h : Framed packets conn) (hWork : conn.work ≠ 0) :
    ∃ event next, event.bytes ≠ 0 ∧ conn.step event = some next := by
  by_cases hPending : conn.sender.pending = []
  · refine ⟨.read 1, ?_⟩
    have hRequested : 1 ≤ conn.receiver.requested := Receiver.waits_requested h.waits
    have hStreamed : 1 ≤ conn.stream.length := by
      simp only [work, hPending, List.length_nil] at hWork
      omega
    simp only [Connection.step, if_pos (And.intro hRequested hStreamed)]
    exact ⟨_, Nat.one_ne_zero, rfl⟩
  · obtain ⟨result, hWrite⟩ := Sender.exists_write h.busy hPending
    refine ⟨.wrote 1, ?_⟩
    simp only [Connection.step, hWrite]
    exact ⟨_, Nat.one_ne_zero, rfl⟩

/-- Once nothing is on its way, all packets have been received. -/
theorem Framed.received_eq (h : Framed packets conn) (hWork : conn.work = 0) :
    conn.received = packets.map Buffer.bytes := by
  obtain ⟨left, hReceived, hStream⟩ := h.left
  have hPending : conn.sender.pending = [] :=
    List.length_eq_zero_iff.mp (by unfold work at hWork; omega)
  have hEmpty : conn.stream = [] :=
    List.length_eq_zero_iff.mp (by unfold work at hWork; omega)
  rw [hPending, hEmpty, List.append_nil] at hStream
  cases left with
  | nil => rw [hReceived, List.map_nil, List.append_nil]
  | cons pkt later =>
      -- What has been read is less than a packet.
      have hWaits := h.waits
      rw [List.flatMap_cons] at hStream
      have hLength := congrArg List.length hStream
      cases hReceiver : conn.receiver with
      | size szBuf =>
          rw [hReceiver] at hWaits hLength
          have hLess : szBuf.length < 8 := hWaits
          simp [Receiver.taken, frame, putUInt64] at hLength
          omega
      | data pktSz found =>
          rw [hReceiver] at hWaits hStream
          have hPrefix : putUInt64 pktSz ++ found ++ [] = (pkt :: later).flatMap frame := hStream
          obtain ⟨first, rest, hLeft, rfl, hTail⟩ := Receiver.data_eq hWaits.2 hPrefix
          have hBytes := congrArg List.length hTail
          have hLess : found.length < first.bytes.length := hWaits.1
          simp only [List.append_nil, List.length_append] at hBytes
          omega
      | failed =>
          rw [hReceiver] at hWaits
          cases hWaits

/-- However the writes and reads are split, `receive` returns the packets that were sent
and nothing else, and when no byte can move any more, which happens in the end, it has
returned all of them. -/
theorem framing_lossless (packets : List Buffer) {events : List Event} {conn : Connection}
    (hRun : run step (start packets) events = some conn)
    (hPieces : ∀ event ∈ events, event.bytes ≠ 0) :
    conn.received <+: packets.map Buffer.bytes ∧
      ((∀ event, event.bytes ≠ 0 → conn.step event = none) →
        conn.received = packets.map Buffer.bytes) ∧
      events.length ≤ 2 * (packets.flatMap frame).length := by
  obtain ⟨hFramed, hLength⟩ := framed_run hRun hPieces
  refine ⟨?_, ?_, ?_⟩
  · obtain ⟨left, hReceived, _⟩ := hFramed.left
    exact ⟨left.map Buffer.bytes, hReceived.symm⟩
  · intro hStuck
    by_contra hMissing
    have hWork : conn.work ≠ 0 := fun hDone => hMissing (hFramed.received_eq hDone)
    obtain ⟨event, next, hSome, hStep⟩ := hFramed.exists_step hWork
    rw [hStuck event hSome] at hStep
    cases hStep
  · have hStart : (start packets).work = 2 * (packets.flatMap frame).length := by
      simp [work, start, Sender.pending_next]
    omega

def twoPackets : List Buffer := [⟨[], by decide⟩, ⟨[5, 6], by decide⟩]

/-- The sizes are written and read in other pieces than one. -/
def twoPacketsPieces : List Event :=
  [.wrote 3, .wrote 5, .read 2, .read 6, .wrote 8, .wrote 1, .read 8, .read 1, .wrote 1, .read 1]

theorem framing_lossless_twoPackets :
    ∃ conn, run step (start twoPackets) twoPacketsPieces = some conn ∧
      conn.received = [[], [5, 6]] := by
  have hRun : run step (start twoPackets) twoPacketsPieces =
      some ⟨.returned, [], .size [], [[], [5, 6]]⟩ := rfl
  refine ⟨_, hRun, (framing_lossless twoPackets hRun (by decide)).2.1 ?_⟩
  intro event hSome
  cases event with
  | wrote n => rfl
  | read n => exact if_neg fun hRead => hSome (Nat.le_zero.mp hRead.2)

end Connection

end OpenCbdc

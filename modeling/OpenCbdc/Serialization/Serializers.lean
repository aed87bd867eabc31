import OpenCbdc.Library.Decoder

/-! The three serializers behind `operator<<`. It hands the bytes of a value to
`write` in pieces, and the serializers count them, write them to a buffer that
grows, or write them to a buffer of a fixed size. -/
namespace OpenCbdc.Serialization

open Decoder

/-- `std::vector::resize` on the bytes of a buffer. No vector takes half of the
address space. -/
def resize (buffer : Buffer) (size : Nat) : Option Buffer :=
  if h : size < 2 ^ 63 then
    some ⟨buffer.bytes.take size ++ List.replicate (size - buffer.bytes.length) 0, by
      rw [List.length_append, List.length_take, List.length_replicate]
      omega⟩
  else none

def extend (buffer : Buffer) (len : Nat) : Option Buffer :=
  resize buffer ((buffer.bytes.length + len) % 2 ^ 64)

/-- `std::memcpy` into a buffer. -/
def overwrite (buffer : Buffer) (offset : Nat) (data : List UInt8) : Option Buffer :=
  if h : offset + data.length ≤ buffer.bytes.length then
    some ⟨buffer.bytes.take offset ++ data ++ buffer.bytes.drop (offset + data.length), by
      have hSize := buffer.size_lt
      simp only [List.length_append, List.length_take, List.length_drop]
      omega⟩
  else none

structure SizeSerializer where
  cursor : Nat

def SizeSerializer.write (ser : SizeSerializer) (data : List UInt8) : Bool × SizeSerializer :=
  (true, ⟨(ser.cursor + data.length) % 2 ^ 64⟩)

/-- `serialized_size` of an object for which `operator<<` makes these calls. -/
def serializedSize (calls : List (List UInt8)) : Nat :=
  (calls.foldl (fun ser data => (ser.write data).2) (SizeSerializer.mk 0)).cursor

/-- The buffer, the position in it and the flag, as `buffer_serializer` and
`nuraft_serializer` keep them. -/
structure BufferCursor where
  buffer : Buffer
  cursor : Nat
  valid : Bool

namespace BufferCursor

def start (buffer : Buffer) : BufferCursor := ⟨buffer, 0, true⟩

/-- Copy the data to the position and move behind it. -/
def put (ser : BufferCursor) (data : List UInt8) : Option BufferCursor :=
  (overwrite ser.buffer ser.cursor data).map fun buffer =>
    { ser with buffer := buffer, cursor := ser.cursor + data.length }

/-- Extend a buffer that ends before this position. -/
def makeRoom (buffer : Buffer) (stop : Nat) : Option Buffer :=
  if buffer.bytes.length < stop then extend buffer (stop - buffer.bytes.length) else some buffer

def bufferWrite (ser : BufferCursor) (data : List UInt8) : Option (Bool × BufferCursor) := do
  let buffer ← makeRoom ser.buffer ((ser.cursor + data.length) % 2 ^ 64)
  let next ← { ser with buffer := buffer }.put data
  pure (true, next)

/-- `nuraft_serializer::write`. The position belongs to the NuRaft buffer, whose
`put_raw` moves it. -/
def nuraftWrite (ser : BufferCursor) (data : List UInt8) : Option (Bool × BufferCursor) :=
  if ser.buffer.bytes.length < (ser.cursor + data.length) % 2 ^ 64 then
    some (false, { ser with valid := false })
  else (ser.put data).map fun next => (true, next)

def endOfBuffer (ser : BufferCursor) : Bool := ser.buffer.bytes.length ≤ ser.cursor

/-- The calls of `operator<<`, and what each of them returns. The operators do
not look at it. -/
def writeAll (write : BufferCursor → List UInt8 → Option (Bool × BufferCursor)) :
    BufferCursor → List (List UInt8) → Option (List Bool × BufferCursor)
  | ser, [] => some ([], ser)
  | ser, data :: calls => do
      let (done, next) ← write ser data
      let (results, last) ← writeAll write next calls
      pure (done :: results, last)

end BufferCursor

/-- `make_buffer` and `make_shared_buffer`. -/
def makeBuffer (calls : List (List UInt8)) : Option Buffer := do
  let packet ← extend ⟨[], Buffer.size_nil_lt⟩ (serializedSize calls)
  let (_, ser) ← BufferCursor.writeAll BufferCursor.bufferWrite (.start packet) calls
  pure ser.buffer

section Lemmas

variable (calls : List (List UInt8))

theorem cursor_foldl_write (ser : SizeSerializer) (h : ser.cursor < 2 ^ 64) :
    (calls.foldl (fun ser data => (ser.write data).2) ser).cursor =
      (ser.cursor + calls.flatten.length) % 2 ^ 64 := by
  induction calls generalizing ser with
  | nil => exact (Nat.mod_eq_of_lt h).symm
  | cons data calls ih =>
      have hNext : (ser.write data).2.cursor < 2 ^ 64 := Nat.mod_lt _ (by decide)
      rw [List.foldl_cons, ih _ hNext, List.flatten_cons, List.length_append]
      show ((ser.cursor + data.length) % 2 ^ 64 + calls.flatten.length) % 2 ^ 64 = _
      omega

theorem serializedSize_eq (h : calls.flatten.length < 2 ^ 64) :
    serializedSize calls = calls.flatten.length := by
  rw [serializedSize, cursor_foldl_write calls (SizeSerializer.mk 0) (by decide)]
  show (0 + calls.flatten.length) % 2 ^ 64 = _
  omega

end Lemmas

theorem exists_extend (buffer : Buffer) (len : Nat) (h : buffer.bytes.length + len < 2 ^ 63) :
    ∃ larger, extend buffer len = some larger ∧
      larger.bytes = buffer.bytes ++ List.replicate len 0 := by
  rw [extend, Nat.mod_eq_of_lt (by omega), resize, dif_pos h]
  refine ⟨_, rfl, ?_⟩
  show buffer.bytes.take _ ++ _ = _
  rw [List.take_of_length_le (by omega), Nat.add_sub_cancel_left]

/-- The bytes after the data was copied over those at the offset. -/
def written (bytes : List UInt8) (offset : Nat) (data : List UInt8) : List UInt8 :=
  bytes.take offset ++ data ++ bytes.drop (offset + data.length)

section Written

variable {bytes first second : List UInt8} {offset : Nat}

theorem length_written (h : offset ≤ bytes.length) :
    (written bytes offset first).length = max bytes.length (offset + first.length) := by
  simp only [written, List.length_append, List.length_take, List.length_drop]
  omega

/-- Two pieces are copied like their concatenation. -/
theorem written_append (h : offset ≤ bytes.length) :
    written (written bytes offset first) (offset + first.length) second =
      written bytes offset (first ++ second) := by
  have hHead : (bytes.take offset ++ first).length = offset + first.length := by
    rw [List.length_append, List.length_take]
    omega
  have hDrop : (written bytes offset first).drop (offset + first.length + second.length) =
      bytes.drop (offset + first.length + second.length) := by
    rw [written, ← hHead, List.drop_length_add_append, hHead, List.drop_drop]
  rw [written, hDrop, written, List.take_left' hHead, written, List.length_append, ← Nat.add_assoc,
    List.append_assoc _ first second]

end Written

namespace BufferCursor

variable {ser next last : BufferCursor} {data : List UInt8} {calls : List (List UInt8)}
  {results : List Bool}

/-- The data stands at the old position, and the new one is behind it. -/
structure Advances (ser : BufferCursor) (data : List UInt8) (next : BufferCursor) : Prop where
  bytes : next.buffer.bytes = written ser.buffer.bytes ser.cursor data
  cursor : next.cursor = ser.cursor + data.length
  valid : next.valid = ser.valid

theorem Advances.cursor_le (h : Advances ser data next)
    (hCursor : ser.cursor ≤ ser.buffer.bytes.length) :
    next.cursor ≤ next.buffer.bytes.length ∧
      ser.buffer.bytes.length ≤ next.buffer.bytes.length := by
  rw [h.bytes, length_written hCursor, h.cursor]
  omega

theorem Advances.nil (ser : BufferCursor) : Advances ser [] ser where
  bytes := by simp [written]
  cursor := rfl
  valid := rfl

theorem Advances.append {rest : List UInt8} (h : Advances ser data next)
    (hCursor : ser.cursor ≤ ser.buffer.bytes.length) (hRest : Advances next rest last) :
    Advances ser (data ++ rest) last where
  bytes := by rw [hRest.bytes, h.bytes, h.cursor, written_append hCursor]
  cursor := by
    rw [hRest.cursor, h.cursor, List.length_append]
    omega
  valid := hRest.valid.trans h.valid

/-- Data that fits is copied. -/
theorem exists_put (ser : BufferCursor) (data : List UInt8)
    (h : ser.cursor + data.length ≤ ser.buffer.bytes.length) :
    ∃ next, ser.put data = some next ∧ Advances ser data next := by
  rw [put, overwrite, dif_pos h]
  exact ⟨_, rfl, rfl, rfl, rfl⟩

theorem cursor_put (h : ser.put data = some next) :
    next.cursor = ser.cursor + data.length ∧ next.cursor ≤ next.buffer.bytes.length := by
  rw [put, overwrite] at h
  split at h
  case isTrue hFits =>
    cases h
    refine ⟨rfl, ?_⟩
    simp only [List.length_append, List.length_take, List.length_drop]
    omega
  case isFalse => cases h

/-- Room is made by zeros behind the bytes that are there. -/
theorem exists_makeRoom (buffer : Buffer) {stop : Nat} (hStop : stop < 2 ^ 63) :
    ∃ larger, makeRoom buffer stop = some larger ∧
      larger.bytes = buffer.bytes ++ List.replicate (stop - buffer.bytes.length) 0 := by
  rw [makeRoom]
  split
  case isTrue hShort => exact exists_extend buffer _ (by omega)
  case isFalse hLong =>
    refine ⟨buffer, rfl, ?_⟩
    rw [Nat.sub_eq_zero_of_le (by omega), List.replicate_zero, List.append_nil]

/-- `buffer_serializer::write` writes whatever a buffer can hold. -/
theorem exists_bufferWrite (ser : BufferCursor) (data : List UInt8)
    (hCursor : ser.cursor ≤ ser.buffer.bytes.length) (hSmall : ser.cursor + data.length < 2 ^ 63) :
    ∃ next, ser.bufferWrite data = some (true, next) ∧ Advances ser data next := by
  have hMod : (ser.cursor + data.length) % 2 ^ 64 = ser.cursor + data.length := by omega
  obtain ⟨larger, hRoom, hBytes⟩ := exists_makeRoom ser.buffer hSmall
  have hFits : ser.cursor + data.length ≤ larger.bytes.length := by
    rw [hBytes, List.length_append, List.length_replicate]
    omega
  obtain ⟨next, hNext, hAdvances⟩ := exists_put { ser with buffer := larger } data hFits
  refine ⟨next, ?_, ?_, hAdvances.cursor, hAdvances.valid⟩
  · rw [bufferWrite, hMod, hRoom]
    show ({ ser with buffer := larger }.put data >>= fun next => pure (true, next)) = _
    rw [hNext]
    rfl
  · rw [hAdvances.bytes]
    show written larger.bytes ser.cursor data = _
    rw [hBytes, written, List.take_append_of_le_length hCursor, List.drop_append,
      List.drop_replicate, Nat.sub_self, List.replicate_zero, List.append_nil]
    rfl

/-- In whatever pieces the data comes, it is written whole. -/
theorem exists_writeAll (ser : BufferCursor) (calls : List (List UInt8))
    (hCursor : ser.cursor ≤ ser.buffer.bytes.length)
    (hSmall : ser.cursor + calls.flatten.length < 2 ^ 63) :
    ∃ last, writeAll bufferWrite ser calls = some (List.replicate calls.length true, last) ∧
      Advances ser calls.flatten last := by
  induction calls generalizing ser with
  | nil => exact ⟨ser, rfl, Advances.nil ser⟩
  | cons data calls ih =>
      rw [List.flatten_cons, List.length_append] at hSmall
      obtain ⟨next, hWrite, hNext⟩ := exists_bufferWrite ser data hCursor (by omega)
      have hCount := hNext.cursor
      obtain ⟨last, hWrites, hLast⟩ := ih next (hNext.cursor_le hCursor).1 (by omega)
      refine ⟨last, ?_, hNext.append hCursor hLast⟩
      simp [writeAll, hWrite, hWrites, List.replicate_succ]

/-- The two serializers do the same as long as the buffer need not grow. -/
theorem nuraftWrite_eq_bufferWrite (ser : BufferCursor) (data : List UInt8)
    (h : ser.cursor + data.length ≤ ser.buffer.bytes.length) :
    ser.nuraftWrite data = ser.bufferWrite data := by
  have hSize := ser.buffer.size_lt
  have hRoom : makeRoom ser.buffer ((ser.cursor + data.length) % 2 ^ 64) = some ser.buffer :=
    if_neg (by omega)
  rw [nuraftWrite, if_neg (by omega), bufferWrite, hRoom]
  show _ = ser.put data >>= fun next => pure (true, next)
  cases ser.put data <;> rfl

theorem writeAll_nuraftWrite_eq (ser : BufferCursor) (calls : List (List UInt8))
    (h : ser.cursor + calls.flatten.length ≤ ser.buffer.bytes.length) :
    writeAll nuraftWrite ser calls = writeAll bufferWrite ser calls := by
  induction calls generalizing ser with
  | nil => rfl
  | cons data calls ih =>
      have hSize := ser.buffer.size_lt
      rw [List.flatten_cons, List.length_append] at h
      obtain ⟨next, hWrite, hNext⟩ := exists_bufferWrite ser data (by omega) (by omega)
      have hCount := hNext.cursor
      have hLength := (hNext.cursor_le (by omega)).2
      rw [writeAll, writeAll, nuraftWrite_eq_bufferWrite ser data (by omega), hWrite]
      show (writeAll nuraftWrite next calls >>= _) = (writeAll bufferWrite next calls >>= _)
      rw [ih next (by omega)]

/-- A buffer that is not larger than the data holds just the data in the end. -/
theorem exists_writeAll_start (packet : Buffer) (calls : List (List UInt8))
    (hShort : packet.bytes.length ≤ calls.flatten.length)
    (hSmall : calls.flatten.length < 2 ^ 63) :
    ∃ last, writeAll bufferWrite (start packet) calls =
        some (List.replicate calls.length true, last) ∧
      last.buffer.bytes = calls.flatten ∧ last.cursor = calls.flatten.length ∧
        last.valid = true := by
  obtain ⟨last, hWrites, hLast⟩ := exists_writeAll (start packet) calls (Nat.zero_le _)
    (by rwa [show (start packet).cursor = 0 from rfl, Nat.zero_add])
  refine ⟨last, hWrites, ?_, ?_, hLast.valid⟩
  · rw [hLast.bytes]
    show [] ++ calls.flatten ++ packet.bytes.drop (0 + calls.flatten.length) = _
    rw [List.drop_eq_nil_of_le (by omega), List.append_nil, List.nil_append]
  · rw [hLast.cursor]
    exact Nat.zero_add _

/-- A write to a buffer that grows ends inside of the buffer. -/
theorem cursor_bufferWrite {done : Bool} (h : ser.bufferWrite data = some (done, next)) :
    next.cursor = ser.cursor + data.length ∧ next.cursor ≤ next.buffer.bytes.length := by
  simp only [bufferWrite, Option.bind_eq_bind, Option.bind_eq_some_iff] at h
  obtain ⟨buffer, _, copied, hCopied, hSame⟩ := h
  cases hSame
  have hEnd := cursor_put hCopied
  exact hEnd

theorem cursor_writeAll (h : writeAll bufferWrite ser calls = some (results, last))
    (hCursor : ser.cursor ≤ ser.buffer.bytes.length) :
    last.cursor = ser.cursor + calls.flatten.length ∧ last.cursor ≤ last.buffer.bytes.length := by
  induction calls generalizing ser results with
  | nil =>
      cases h
      exact ⟨rfl, hCursor⟩
  | cons data calls ih =>
      simp only [writeAll, Option.bind_eq_bind, Option.bind_eq_some_iff] at h
      obtain ⟨⟨done, next⟩, hWrite, ⟨others, final⟩, hRest, hSame⟩ := h
      cases hSame
      obtain ⟨hNext, hInside⟩ := cursor_bufferWrite hWrite
      obtain ⟨hLast, hEnd⟩ := ih hRest hInside
      refine ⟨?_, hEnd⟩
      rw [hLast, hNext, List.flatten_cons, List.length_append]
      omega

end BufferCursor

/-- `make_buffer` returns the bytes of the calls, unless no buffer can hold them. -/
theorem makeBuffer_eq (calls : List (List UInt8)) :
    makeBuffer calls =
      if h : calls.flatten.length < 2 ^ 63 then some ⟨calls.flatten, h⟩ else none := by
  split
  case isTrue hSmall =>
    have hSize := serializedSize_eq calls (by omega)
    obtain ⟨packet, hPacket, hZeros⟩ := exists_extend ⟨[], by decide⟩ (serializedSize calls)
      (by simpa [hSize] using hSmall)
    have hLength : packet.bytes.length ≤ calls.flatten.length := by
      rw [hZeros, List.nil_append, List.length_replicate, hSize]
    obtain ⟨last, hWritten, hBytes, _⟩ :=
      BufferCursor.exists_writeAll_start packet calls hLength hSmall
    obtain ⟨⟨bytes, hBound⟩, cursor, valid⟩ := last
    cases hBytes
    simp [makeBuffer, hPacket, hWritten]
  case isFalse hLarge =>
    cases hMake : makeBuffer calls with
    | none => rfl
    | some packet =>
        simp only [makeBuffer, Option.bind_eq_bind, Option.bind_eq_some_iff] at hMake
        obtain ⟨room, _, ⟨results, last⟩, hWritten, _⟩ := hMake
        obtain ⟨hCursor, hInside⟩ := BufferCursor.cursor_writeAll hWritten (Nat.zero_le _)
        have hBound := last.buffer.size_lt
        have hStart : (BufferCursor.start room).cursor = 0 := rfl
        omega

end OpenCbdc.Serialization

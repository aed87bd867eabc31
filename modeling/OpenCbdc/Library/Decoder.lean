import Mathlib.Computability.Language
import OpenCbdc.Library.Collection

/-! Decoders that read a byte buffer through a cursor. A read that does not fit
clears a flag and leaves the cursor where it is; decoding goes on unless the
decoder looks at the flag. A decoder returns a value, or is stopped by a fault.
Some of the bytes are indices that select an alternative. Where they lie is said
by the format, part by part, and a fault can be traced back to one of them. -/
namespace Decoder

/-- The bytes in a buffer. No object is larger than half of the address space. -/
structure Buffer where
  bytes : List UInt8
  size_lt : bytes.length < 2 ^ 63

theorem Buffer.size_nil_lt : ([] : List UInt8).length < 2 ^ 63 := by decide

inductive Fault where
  | overread
  | badIndex
  | lengthError
  | endlessLoop
deriving DecidableEq

structure Index where
  value : Nat
  alternatives : Nat
deriving DecidableEq

def Index.InRange (index : Index) : Prop := index.value < index.alternatives

instance (index : Index) : Decidable index.InRange :=
  inferInstanceAs (Decidable (index.value < index.alternatives))

/-- The cursor, what the buffer holds from there on, and the flag. -/
structure Reader where
  cursor : Nat
  rest : List UInt8
  valid : Bool
  size_lt : cursor + rest.length < 2 ^ 63

abbrev Get := EStateM Fault Reader

abbrev Result (α : Type) := EStateM.Result Fault Reader α

namespace Reader

def ofBuffer (buffer : Buffer) : Reader :=
  ⟨0, buffer.bytes, true, by simpa using buffer.size_lt⟩

def advance (reader : Reader) (len : Nat) (h : len ≤ reader.rest.length) : Reader where
  cursor := reader.cursor + len
  rest := reader.rest.drop len
  valid := reader.valid
  size_lt := by
    have hSize := reader.size_lt
    rw [List.length_drop]
    omega

end Reader

/-- Read a number of bytes. The end of the read is computed in 64 bits. -/
def read (len : Nat) : Get (Option (List UInt8)) := fun reader =>
  if reader.cursor + reader.rest.length < (reader.cursor + len) % 2 ^ 64 then
    .ok none { reader with valid := false }
  else if h : len ≤ reader.rest.length then
    .ok (some (reader.rest.take len)) (reader.advance len h)
  else .error .overread reader

/-- Go on only if no read has failed so far. -/
def ifValid {α : Type} (fallback : α) (get : Get α) : Get α := fun reader =>
  if reader.valid then get reader else .ok fallback reader

def select {α : Type} (alternatives : List (Get α)) (index : Nat) : Get α := fun reader =>
  match alternatives[index]? with
  | some get => get reader
  | none => .error .badIndex reader

/-- Fill a container with a number of elements, for which room is made in
chunks. A round is one test of the inner or of the outer loop. -/
def fill {α γ : Type} (get : Get α) (insert : γ → α → γ) (size : γ → Nat) (chunk len : Nat) :
    Nat → Nat → γ → Get γ
  | 0, _, _ => throw .endlessLoop
  | fuel + 1, allocated, filled =>
      if size filled < allocated then do
        let value ← get
        ifValid filled (fill get insert size chunk len fuel allocated (insert filled value))
      else if allocated < len then
        fill get insert size chunk len fuel (min len ((allocated + chunk) % 2 ^ 64)) filled
      else pure filled

/-- Fill a container with a number of rounds. -/
def iterate {α γ : Type} (get : Get α) (insert : γ → α → γ) (len : Nat) :
    Nat → Nat → γ → Get γ
  | 0, _, _ => throw .endlessLoop
  | fuel + 1, round, filled =>
      if round < len then do
        let value ← get
        ifValid filled (iterate get insert len fuel (round + 1) (insert filled value))
      else pure filled

/-- Run a loop with as many rounds as the rest of the buffer allows. -/
def withFuel {α : Type} (loop : Nat → Get α) : Get α := fun reader =>
  loop (2 * reader.rest.length + 2) reader

/-- The indices that lie in a buffer from a position on. -/
abbrev Indices := Reader → List Index

namespace Indices

variable {α γ : Type}

/-- The indices of a part, then those of what stands behind it. -/
def andThen (get : Get α) (part : Indices) (behind : α → Indices) : Indices := fun reader =>
  part reader ++ match get reader with
    | .ok value after => behind value after
    | .error _ _ => []

/-- Nothing stands behind the end of the buffer. -/
def ifValid (behind : Indices) : Indices := fun reader =>
  if reader.valid then behind reader else []

/-- An index, then those of the alternative that it selects. -/
def select (alternatives : List Indices) (index : Nat) : Indices := fun reader =>
  ⟨index, alternatives.length⟩ :: (alternatives[index]?).elim [] fun chosen => chosen reader

/-- The indices of the elements, as long as the container is not full. -/
def fill (get : Get α) (element : Indices) (insert : γ → α → γ) (size : γ → Nat)
    (chunk len : Nat) : Nat → Nat → γ → Indices
  | 0, _, _ => fun _ => []
  | fuel + 1, allocated, filled =>
      if size filled < allocated then
        andThen get element fun value =>
          ifValid (fill get element insert size chunk len fuel allocated (insert filled value))
      else if allocated < len then
        fill get element insert size chunk len fuel (min len ((allocated + chunk) % 2 ^ 64)) filled
      else fun _ => []

/-- The indices of a number of elements. -/
def iterate (get : Get α) (element : Indices) (insert : γ → α → γ) (len : Nat) :
    Nat → Nat → γ → Indices
  | 0, _, _ => fun _ => []
  | fuel + 1, round, filled =>
      if round < len then
        andThen get element fun value =>
          ifValid (iterate get element insert len fuel (round + 1) (insert filled value))
      else fun _ => []

end Indices

section Rules

variable {α β γ : Type}

theorem map_apply (f : α → β) (get : Get α) (reader : Reader) :
    (f <$> get) reader = match get reader with
      | .ok value after => .ok (f value) after
      | .error fault after => .error fault after := by
  show EStateM.map f get reader = _
  rw [EStateM.map]
  cases get reader <;> rfl

theorem bind_apply (get : Get α) (next : α → Get β) (reader : Reader) :
    (get >>= next) reader = match get reader with
      | .ok value after => next value after
      | .error fault after => .error fault after := by
  show EStateM.bind get next reader = _
  rw [EStateM.bind]
  cases get reader <;> rfl

/-- A read of less than half of the address space never leaves the buffer. -/
theorem read_of_lt {len : Nat} (hLen : len < 2 ^ 63) (reader : Reader) :
    read len reader = if h : len ≤ reader.rest.length then
      .ok (some (reader.rest.take len)) (reader.advance len h)
    else .ok none { reader with valid := false } := by
  have hSize := reader.size_lt
  rw [read]
  by_cases hLe : len ≤ reader.rest.length
  · rw [if_neg (by omega), dif_pos hLe, dif_pos hLe]
  · rw [if_pos (by omega), dif_neg hLe]

/-- What a decoder has done when it ends. It returns if all of these indices are
in range, and is stopped by a fault if one is not; a flag that is still set was set
before, and at least so many bytes were taken from the buffer. -/
inductive Outcome (least : Nat) (indices : List Index) (reader : Reader) : Result α → Prop where
  | returned (value : α) (after : Reader) (hInRange : ∀ index ∈ indices, index.InRange)
      (hRest : after.rest.length ≤ reader.rest.length)
      (hValid : after.valid = true →
        reader.valid = true ∧ after.rest.length + least ≤ reader.rest.length) :
      Outcome least indices reader (.ok value after)
  | faulted (fault : Fault) (after : Reader) (hBad : ∃ index ∈ indices, ¬index.InRange) :
      Outcome least indices reader (.error fault after)

/-- Which indices the bytes of a format hold. From every position on its decoder
faults on one that is out of range and on nothing else, and takes at least so many
bytes. -/
structure Checked (least : Nat) (get : Get α) where
  indices : Indices
  outcome : ∀ reader, Outcome least (indices reader) reader (get reader)

namespace Outcome

variable {least more : Nat} {reader middle : Reader} {indices later : List Index}

theorem weaken {fewer : Nat} {result : Result α} (h : Outcome least indices reader result)
    (hFewer : fewer ≤ least) : Outcome fewer indices reader result := by
  cases h with
  | returned value after hInRange hRest hValid =>
      refine .returned value after hInRange hRest ?_
      intro hAfter
      have hBoth := hValid hAfter
      exact ⟨hBoth.1, by omega⟩
  | faulted fault after hBad => exact .faulted fault after hBad

/-- The end of the buffer was met, and nothing was read since. -/
theorem stopped {value : α} (hInvalid : ¬reader.valid = true) :
    Outcome least [] reader (.ok value reader) :=
  .returned value reader (by simp) le_rfl fun hValid => absurd hValid hInvalid

/-- What follows a return is added to what was done before it. -/
theorem extend {result : Result β} (hInRange : ∀ index ∈ indices, index.InRange)
    (hRest : middle.rest.length ≤ reader.rest.length)
    (hValid : middle.valid = true →
      reader.valid = true ∧ middle.rest.length + least ≤ reader.rest.length)
    (h : Outcome more later middle result) :
    Outcome (least + more) (indices ++ later) reader result := by
  cases h with
  | returned value after hGood hShorter hStill =>
      refine .returned value after ?_ (hShorter.trans hRest) ?_
      · intro index hIndex
        cases List.mem_append.mp hIndex with
        | inl hBefore => exact hInRange index hBefore
        | inr hAfter => exact hGood index hAfter
      · intro hAfter
        have hMiddle := hStill hAfter
        have hBefore := hValid hMiddle.1
        exact ⟨hBefore.1, by omega⟩
  | faulted fault after hBad =>
      obtain ⟨index, hIndex, hOut⟩ := hBad
      exact .faulted fault after ⟨index, List.mem_append_right _ hIndex, hOut⟩

theorem map {get : Get α} (h : Outcome least indices reader (get reader)) (f : α → β) :
    Outcome least indices reader ((f <$> get) reader) := by
  rw [map_apply]
  generalize get reader = result at h
  cases h with
  | returned value after hInRange hRest hValid =>
      exact .returned (f value) after hInRange hRest hValid
  | faulted fault after hBad => exact .faulted fault after hBad

/-- A fault of the first part stops the second one. If there was none, the second
part begins behind the bytes of the first. -/
theorem andThen {get : Get α} {next : α → Get β} {part : Indices} {behind : α → Indices}
    (h : Outcome least (part reader) reader (get reader))
    (hNext : ∀ value middle, (middle.valid = true →
        middle.rest.length + least ≤ reader.rest.length) →
      Outcome more (behind value middle) middle (next value middle)) :
    Outcome (least + more) (Indices.andThen get part behind reader) reader
      ((get >>= next) reader) := by
  rw [bind_apply, Indices.andThen]
  cases hResult : get reader with
  | ok value middle =>
      rw [hResult] at h
      cases h with
      | returned _ _ hInRange hRest hValid =>
          exact extend hInRange hRest hValid (hNext value middle fun hStill => (hValid hStill).2)
  | error fault after =>
      rw [hResult] at h
      cases h with
      | faulted _ _ hBad =>
          rw [List.append_nil]
          exact .faulted fault after hBad

end Outcome

namespace Checked

variable {least more : Nat}

def weaken {fewer : Nat} {get : Get α} (h : Checked least get) (hFewer : fewer ≤ least) :
    Checked fewer get :=
  ⟨h.indices, fun reader => (h.outcome reader).weaken hFewer⟩

def pure (value : α) : Checked 0 (pure value : Get α) where
  indices _ := []
  outcome reader := .returned value reader (by simp) le_rfl (by simp)

def bind {get : Get α} {next : α → Get β} (h : Checked least get)
    (hNext : ∀ value, Checked more (next value)) : Checked (least + more) (get >>= next) where
  indices := Indices.andThen get h.indices fun value => (hNext value).indices
  outcome reader := (h.outcome reader).andThen fun value middle _ => (hNext value).outcome middle

def map {get : Get α} (h : Checked least get) (f : α → β) : Checked least (f <$> get) where
  indices := h.indices
  outcome reader := (h.outcome reader).map f

def seq {first : Get (α → β)} {second : Get α} (h : Checked least first)
    (hSecond : Checked more second) : Checked (least + more) (first <*> second) :=
  h.bind fun f => hSecond.map f

/-- When the flag is not set there is nothing to show about the bytes. -/
def ifValid {get : Get α} (h : Checked least get) (fallback : α) :
    Checked least (ifValid fallback get) where
  indices := Indices.ifValid h.indices
  outcome reader := by
    rw [Decoder.ifValid, Indices.ifValid]
    split
    · exact h.outcome reader
    case isFalse hInvalid => exact .stopped hInvalid

def ite {condition : Prop} [Decidable condition] {get other : Get α} (h : Checked least get)
    (hOther : Checked least other) : Checked least (if condition then get else other) where
  indices := if condition then h.indices else hOther.indices
  outcome reader := by
    split
    · exact h.outcome reader
    · exact hOther.outcome reader

/-- What is done after the first bytes may take none. -/
def bindZero {get : Get α} {next : α → Get β} (h : Checked least get)
    (hNext : ∀ value, Checked 0 (next value)) : Checked least (get >>= next) :=
  h.bind hNext

/-- A value is returned once the flag was looked at. -/
def andReturn {get : Get α} (h : Checked least get) (f : α → β) (fallback : β) :
    Checked least (get >>= fun value => Decoder.ifValid fallback (Pure.pure (f value))) :=
  h.bindZero fun value => (pure (f value)).ifValid fallback

def read {len : Nat} (hLen : len < 2 ^ 63) : Checked len (read len) where
  indices _ := []
  outcome reader := by
    rw [read_of_lt hLen]
    by_cases hLe : len ≤ reader.rest.length
    · rw [dif_pos hLe]
      refine .returned _ _ (by simp) ?_ ?_
      · simp [Reader.advance]
      · intro hValid
        refine ⟨hValid, ?_⟩
        simp only [Reader.advance, List.length_drop]
        omega
    · rw [dif_neg hLe]
      exact .returned none _ (by simp) le_rfl (by simp)

end Checked

/-- An alternative of a variant, as it is read. -/
structure Alternative (α : Type) where
  get : Get α
  checked : Checked 0 get

namespace Checked

variable {least : Nat}

def select (alternatives : List (Alternative α)) (index : Nat) :
    Checked 0 (select (alternatives.map Alternative.get) index) where
  indices := Indices.select (alternatives.map fun alternative => alternative.checked.indices) index
  outcome reader := by
    rw [Decoder.select, Indices.select, List.getElem?_map, List.getElem?_map, List.length_map]
    cases hChosen : alternatives[index]? with
    | none =>
        have hOut : ¬Index.InRange ⟨index, alternatives.length⟩ := by
          simpa [Index.InRange] using hChosen
        exact .faulted _ _ ⟨_, List.mem_cons_self .., hOut⟩
    | some alternative =>
        have hIn : Index.InRange ⟨index, alternatives.length⟩ :=
          (List.getElem?_eq_some_iff.mp hChosen).1
        have hGood : ∀ other ∈ [(⟨index, alternatives.length⟩ : Index)], other.InRange := by
          simpa using hIn
        exact Outcome.extend hGood le_rfl (by simp) (alternative.checked.outcome reader)

/-- A round of a loop goes on with a shorter rest. -/
theorem round {get : Get α} {next : α → Get β} {fallback : β} {behind : α → Indices}
    {reader : Reader} (h : Checked least get)
    (hNext : ∀ value middle, middle.rest.length + least ≤ reader.rest.length →
      Outcome 0 (behind value middle) middle (next value middle)) :
    Outcome 0 (Indices.andThen get h.indices (fun value => Indices.ifValid (behind value)) reader)
      reader ((get >>= fun value => Decoder.ifValid fallback (next value)) reader) := by
  have hBehind : ∀ value middle, (middle.valid = true →
      middle.rest.length + least ≤ reader.rest.length) →
      Outcome 0 (Indices.ifValid (behind value) middle) middle
        (Decoder.ifValid fallback (next value) middle) := by
    intro value middle hShorter
    rw [Decoder.ifValid, Indices.ifValid]
    split
    case isTrue hStill => exact hNext value middle (hShorter hStill)
    case isFalse hInvalid => exact .stopped hInvalid
  exact ((h.outcome reader).andThen hBehind).weaken (Nat.zero_le _)

/-- A loop over elements that take bytes ends before the fuel does, because the
room that is made never wraps around. -/
theorem fill {get : Get α} {insert : γ → α → γ} {size : γ → Nat} {chunk : Nat} (len : Nat)
    (h : Checked least get) (hLeast : 0 < least)
    (hInsert : ∀ filled value, size (insert filled value) ≤ size filled + 1)
    (hChunk : 0 < chunk) (hSmall : chunk < 2 ^ 63) (fuel allocated : Nat) (filled : γ)
    (reader : Reader) (hSize : size filled ≤ allocated)
    (hRoom : size filled + reader.rest.length < 2 ^ 63)
    (hFuel : 2 * reader.rest.length + (if size filled < allocated then 1 else 2) ≤ fuel) :
    Outcome 0 (Indices.fill get h.indices insert size chunk len fuel allocated filled reader)
      reader (fill get insert size chunk len fuel allocated filled reader) := by
  induction fuel generalizing allocated filled reader with
  | zero =>
      split at hFuel
      · omega
      · omega
  | succ fuel ih =>
      rw [Decoder.fill, Indices.fill]
      split
      case isTrue hMore =>
        rw [if_pos hMore] at hFuel
        apply h.round
        intro value middle hTaken
        have hGrown := hInsert filled value
        apply ih
        · omega
        · omega
        · split
          · omega
          · omega
      case isFalse hFull =>
        rw [if_neg hFull] at hFuel
        split
        case isTrue hMore =>
          have hNext : size filled < min len ((allocated + chunk) % 2 ^ 64) := by omega
          apply ih _ _ _ hNext.le hRoom
          rw [if_pos hNext]
          omega
        case isFalse => exact (Checked.pure filled).outcome reader

/-- Each round takes bytes, so that there are fewer rounds than bytes. -/
theorem iterate {get : Get α} {insert : γ → α → γ} (len : Nat) (h : Checked least get)
    (hLeast : 0 < least) (fuel round : Nat) (filled : γ) (reader : Reader)
    (hFuel : reader.rest.length + 1 ≤ fuel) :
    Outcome 0 (Indices.iterate get h.indices insert len fuel round filled reader) reader
      (iterate get insert len fuel round filled reader) := by
  induction fuel generalizing round filled reader with
  | zero => omega
  | succ fuel ih =>
      rw [Decoder.iterate, Indices.iterate]
      split
      · apply h.round
        intro value middle hTaken
        apply ih
        omega
      · exact (Checked.pure filled).outcome reader

end Checked

/-- From wherever the bytes stand next in a buffer, the decoder returns the value
and has taken just these bytes. -/
def Decodes (get : Get α) (bytes : List UInt8) (value : α) : Prop :=
  ∀ reader rest, reader.valid = true → reader.rest = bytes ++ rest →
    ∃ after, get reader = .ok value after ∧ after.valid = true ∧ after.rest = rest

namespace Decodes

variable {first second : List UInt8} {x : α} {y : β} {get : Get α}

theorem pure (value : α) : Decodes (pure value : Get α) [] value := by
  intro reader rest hValid hRest
  exact ⟨reader, rfl, hValid, hRest⟩

theorem bind {next : α → Get β} (h : Decodes get first x) (hNext : Decodes (next x) second y) :
    Decodes (get >>= next) (first ++ second) y := by
  intro reader rest hValid hRest
  rw [List.append_assoc] at hRest
  obtain ⟨middle, hGet, hMiddle, hSecond⟩ := h reader (second ++ rest) hValid hRest
  rw [bind_apply, hGet]
  exact hNext middle rest hMiddle hSecond

theorem map (h : Decodes get first x) (f : α → β) : Decodes (f <$> get) first (f x) := by
  intro reader rest hValid hRest
  obtain ⟨after, hGet, hAfter⟩ := h reader rest hValid hRest
  exact ⟨after, by rw [map_apply, hGet], hAfter⟩

theorem ifValid (h : Decodes get first x) (fallback : α) :
    Decodes (ifValid fallback get) first x := by
  intro reader rest hValid hRest
  rw [Decoder.ifValid, if_pos hValid]
  exact h reader rest hValid hRest

theorem read (bytes : List UInt8) : Decodes (read bytes.length) bytes (some bytes) := by
  intro reader rest hValid hRest
  have hSize := reader.size_lt
  have hLe : bytes.length ≤ reader.rest.length := by simp [hRest]
  refine ⟨reader.advance bytes.length hLe, ?_, hValid, ?_⟩
  · rw [read_of_lt (by omega), dif_pos hLe]
    simp [hRest]
  · simp [Reader.advance, hRest]

theorem select {alternatives : List (Get α)} {index : Nat} (hGet : alternatives[index]? = some get)
    (h : Decodes get first x) : Decodes (select alternatives index) first x := by
  intro reader rest hValid hRest
  obtain ⟨after, hReturn, hAfter⟩ := h reader rest hValid hRest
  refine ⟨after, ?_, hAfter⟩
  rw [Decoder.select, hGet]
  exact hReturn

/-- No buffer holds more bytes than an object can have. -/
theorem of_small {bytes : List UInt8} (h : bytes.length < 2 ^ 63 → Decodes get bytes x) :
    Decodes get bytes x := by
  intro reader rest hValid hRest
  have hSize := reader.size_lt
  have hLength : reader.rest.length = bytes.length + rest.length := by simp [hRest]
  exact h (by omega) reader rest hValid hRest

/-- A decoder that takes bytes needs some. -/
theorem length_pos {least : Nat} {bytes : List UInt8} (hSmall : bytes.length < 2 ^ 63)
    (h : Decodes get bytes x) (hChecked : Checked least get) : least ≤ bytes.length := by
  have hStart := hChecked.outcome (Reader.ofBuffer ⟨bytes, hSmall⟩)
  obtain ⟨after, hGet, hValid, hRest⟩ := h (Reader.ofBuffer ⟨bytes, hSmall⟩) [] rfl
    (by simp [Reader.ofBuffer])
  rw [hGet] at hStart
  cases hStart with
  | returned _ _ hInRange hShorter hTaken =>
      have hLeast := (hTaken hValid).2
      simpa [hRest, Reader.ofBuffer] using hLeast

end Decodes

/-- The decoder reads the value back from each of these byte strings. -/
def Reads (get : Get α) (language : Language UInt8) (value : α) : Prop :=
  ∀ bytes ∈ language, Decodes get bytes value

namespace Reads

variable {first second : Language UInt8} {x : α} {y : β} {get : Get α}

theorem pure (value : α) : Reads (pure value : Get α) 1 value := by
  intro bytes hBytes
  rw [Language.mem_one] at hBytes
  rw [hBytes]
  exact Decodes.pure value

theorem bind {next : α → Get β} (h : Reads get first x) (hNext : Reads (next x) second y) :
    Reads (get >>= next) (first * second) y := by
  intro bytes hBytes
  obtain ⟨before, hBefore, after, hAfter, rfl⟩ := Language.mem_mul.mp hBytes
  exact (h before hBefore).bind (hNext after hAfter)

theorem map (h : Reads get first x) (f : α → β) : Reads (f <$> get) first (f x) :=
  fun bytes hBytes => (h bytes hBytes).map f

theorem seq {head : Get (α → β)} {f : α → β} (h : Reads head first f) (hGet : Reads get second x) :
    Reads (head <*> get) (first * second) (f x) :=
  h.bind (hGet.map f)

theorem ifValid (h : Reads get first x) (fallback : α) : Reads (ifValid fallback get) first x :=
  fun bytes hBytes => (h bytes hBytes).ifValid fallback

/-- A value is returned once the flag was looked at. -/
theorem andReturn (h : Reads get first x) (f : α → β) (fallback : β) :
    Reads (get >>= fun value => Decoder.ifValid fallback (Pure.pure (f value))) first (f x) := by
  have hNext : Reads (Decoder.ifValid fallback (Pure.pure (f x))) 1 (f x) :=
    (pure (f x)).ifValid fallback
  rw [← mul_one first]
  exact h.bind hNext

theorem select {alternatives : List (Get α)} {index : Nat} (hGet : alternatives[index]? = some get)
    (h : Reads get first x) : Reads (select alternatives index) first x :=
  fun bytes hBytes => (h bytes hBytes).select hGet

/-- A round of a loop takes the bytes of its value. -/
theorem round {next : α → Get β} {fallback : β} {bytes rest : List UInt8} {reader : Reader}
    (h : Reads get first x) (hValid : reader.valid = true) (hBytes : bytes ∈ first * second)
    (hRest : reader.rest = bytes ++ rest) :
    ∃ middle later,
      (get >>= fun value => Decoder.ifValid fallback (next value)) reader = next x middle ∧
        middle.valid = true ∧ later ∈ second ∧ middle.rest = later ++ rest := by
  obtain ⟨before, hBefore, later, hLater, rfl⟩ := Language.mem_mul.mp hBytes
  rw [List.append_assoc] at hRest
  obtain ⟨middle, hGet, hMiddle, hMiddleRest⟩ := h before hBefore reader _ hValid hRest
  refine ⟨middle, later, ?_, hMiddle, hLater, hMiddleRest⟩
  rw [bind_apply, hGet]
  show Decoder.ifValid _ _ middle = _
  rw [Decoder.ifValid, if_pos hMiddle]

end Reads

section Containers

variable {get : Get α} {put : α → Language UInt8} {insert : γ → α → γ} {size : γ → Nat}
  {values : List α} {bytes rest : List UInt8} {reader : Reader} {least chunk len : Nat}

/-- The values of a list cannot be more than the bytes that hold them. -/
theorem length_le_of_prod (hReads : ∀ value ∈ values, Reads get (put value) value)
    (hChecked : Checked least get) (hLeast : 0 < least) (hSmall : bytes.length < 2 ^ 63)
    (hBytes : bytes ∈ (values.map put).prod) : values.length ≤ bytes.length := by
  induction values generalizing bytes with
  | nil => simp
  | cons value values ih =>
      rw [List.map_cons, List.prod_cons] at hBytes
      obtain ⟨before, hBefore, after, hAfter, rfl⟩ := Language.mem_mul.mp hBytes
      rw [List.length_append] at hSmall ⊢
      have hFirst := (hReads value (by simp) before hBefore).length_pos (by omega) hChecked
      have hRest := ih (fun other hOther => hReads other (by simp [hOther])) (by omega) hAfter
      rw [List.length_cons]
      omega

/-- Reading elements in chunks fills the container with all of them, if each makes it larger
and the fuel covers the rounds of both loops. -/
theorem fill_eq_ok (hReads : ∀ value ∈ values, Reads get (put value) value)
    (hChunk : 0 < chunk) (hSmall : len + chunk < 2 ^ 64) (fuel allocated : Nat) (filled : γ)
    (hGrows : Collection.Grows insert size filled values) (hLen : size filled + values.length = len)
    (hSize : size filled ≤ allocated) (hAllocated : allocated ≤ len)
    (hFuel : 2 * values.length + (if size filled < allocated then 0 else 1) ≤ fuel)
    (hValid : reader.valid = true) (hBytes : bytes ∈ (values.map put).prod)
    (hRest : reader.rest = bytes ++ rest) :
    ∃ after, fill get insert size chunk len fuel allocated filled reader =
        .ok (values.foldl insert filled) after ∧ after.valid = true ∧ after.rest = rest := by
  induction fuel generalizing allocated filled values bytes reader with
  | zero =>
      split at hFuel
      · omega
      · omega
  | succ fuel ih =>
      rw [fill]
      split
      case isTrue hMore =>
        rw [if_pos hMore] at hFuel
        cases values with
        | nil =>
            rw [List.length_nil] at hLen
            omega
        | cons value values =>
            rw [List.map_cons, List.prod_cons] at hBytes
            obtain ⟨middle, later, hRound, hMiddle, hLater, hMiddleRest⟩ :=
              (hReads value (by simp)).round hValid hBytes hRest
            rw [hRound]
            rw [List.length_cons] at hLen hFuel
            have hGrown := hGrows.1
            apply ih (fun other hOther => hReads other (by simp [hOther])) allocated _ hGrows.2
              _ _ hAllocated _ hMiddle hLater hMiddleRest
            · omega
            · omega
            · split
              · omega
              · omega
      case isFalse hFull =>
        rw [if_neg hFull] at hFuel
        split
        case isTrue hMore =>
          have hNext : size filled < min len ((allocated + chunk) % 2 ^ 64) := by omega
          apply ih hReads _ filled hGrows hLen hNext.le (min_le_left _ _) _ hValid hBytes hRest
          rw [if_pos hNext]
          omega
        case isFalse hDone =>
          cases values with
          | nil =>
              simp only [List.map_nil, List.prod_nil, Language.mem_one] at hBytes
              rw [hBytes, List.nil_append] at hRest
              exact ⟨reader, rfl, hValid, hRest⟩
          | cons value values =>
              rw [List.length_cons] at hLen
              omega

/-- Reading a fixed number of rounds fills the container with the elements in their order.
-/
theorem iterate_eq_ok (hReads : ∀ value ∈ values, Reads get (put value) value)
    (fuel round : Nat) (filled : γ) (hLen : round + values.length = len)
    (hFuel : values.length + 1 ≤ fuel) (hValid : reader.valid = true)
    (hBytes : bytes ∈ (values.map put).prod) (hRest : reader.rest = bytes ++ rest) :
    ∃ after, iterate get insert len fuel round filled reader =
        .ok (values.foldl insert filled) after ∧ after.valid = true ∧ after.rest = rest := by
  induction fuel generalizing round filled values bytes reader with
  | zero => omega
  | succ fuel ih =>
      rw [iterate]
      cases values with
      | nil =>
          rw [List.length_nil] at hLen
          simp only [List.map_nil, List.prod_nil, Language.mem_one] at hBytes
          rw [hBytes, List.nil_append] at hRest
          rw [if_neg (by omega)]
          exact ⟨reader, rfl, hValid, hRest⟩
      | cons value values =>
          rw [List.length_cons] at hLen hFuel
          rw [List.map_cons, List.prod_cons] at hBytes
          obtain ⟨middle, later, hRound, hMiddle, hLater, hMiddleRest⟩ :=
            (hReads value (by simp)).round hValid hBytes hRest
          rw [if_pos (by omega), hRound]
          exact ih (fun other hOther => hReads other (by simp [hOther])) (round + 1) _ (by omega)
            (by omega) hMiddle hLater hMiddleRest

def Checked.withFuelFill {empty : γ} (len : Nat) (h : Checked least get)
    (hLeast : 0 < least) (hEmpty : size empty = 0)
    (hInsert : ∀ filled value, size (insert filled value) ≤ size filled + 1)
    (hChunk : 0 < chunk) (hSmall : chunk < 2 ^ 63) :
    Checked 0 (withFuel fun fuel => Decoder.fill get insert size chunk len fuel 0 empty) where
  indices reader := Indices.fill get h.indices insert size chunk len
    (2 * reader.rest.length + 2) 0 empty reader
  outcome reader := by
    have hSize := reader.size_lt
    apply Checked.fill len h hLeast hInsert hChunk hSmall
    · omega
    · omega
    · rw [if_neg (by omega)]

def Checked.withFuelIterate {empty : γ} (len : Nat) (h : Checked least get)
    (hLeast : 0 < least) :
    Checked 0 (withFuel fun fuel => Decoder.iterate get insert len fuel 0 empty) where
  indices reader := Indices.iterate get h.indices insert len (2 * reader.rest.length + 2) 0 empty
    reader
  outcome reader := by
    apply Checked.iterate len h hLeast
    omega

theorem Reads.withFuel_fill {empty : γ} (hReads : ∀ value ∈ values, Reads get (put value) value)
    (h : Checked least get) (hLeast : 0 < least) (hEmpty : size empty = 0)
    (hGrows : Collection.Grows insert size empty values) (hChunk : 0 < chunk)
    (hSmall : chunk < 2 ^ 63) :
    Reads (withFuel fun fuel => Decoder.fill get insert size chunk values.length fuel 0 empty)
      (values.map put).prod (values.foldl insert empty) := by
  intro bytes hBytes reader rest hValid hRest
  have hSize := reader.size_lt
  have hLength : reader.rest.length = bytes.length + rest.length := by simp [hRest]
  have hLe := length_le_of_prod hReads h hLeast (by omega) hBytes
  apply fill_eq_ok hReads hChunk (by omega) _ _ _ hGrows (by omega) (by omega) (by omega) _ hValid
    hBytes hRest
  rw [if_neg (by omega)]
  omega

theorem Reads.withFuel_iterate {empty : γ}
    (hReads : ∀ value ∈ values, Reads get (put value) value)
    (h : Checked least get) (hLeast : 0 < least) :
    Reads (withFuel fun fuel => Decoder.iterate get insert values.length fuel 0 empty)
      (values.map put).prod (values.foldl insert empty) := by
  intro bytes hBytes reader rest hValid hRest
  have hSize := reader.size_lt
  have hLength : reader.rest.length = bytes.length + rest.length := by simp [hRest]
  have hLe := length_le_of_prod hReads h hLeast (by omega) hBytes
  exact iterate_eq_ok hReads _ _ _ (by omega) (by omega) hValid hBytes hRest

end Containers

end Rules

end Decoder

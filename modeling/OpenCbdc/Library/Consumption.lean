import Mathlib.Order.CompletePartialOrder
import OpenCbdc.Library.Decoder

/-! What a decoder takes from its buffer. The rules of `Reads` say that certain
byte strings are decoded; here the decoder has returned a value with the flag
still set, and the byte string it has moved past is what is asked for. -/
namespace Decoder

/-- The bytes between two positions of a reader, none of whose reads failed. -/
structure Took (reader : Reader) (taken : List UInt8) (after : Reader) : Prop where
  valid : reader.valid = true
  rest : reader.rest = taken ++ after.rest
  cursor : after.cursor = reader.cursor + taken.length

/-- What the decoder takes before it returns a value belongs to the language of
the value. -/
def Takes {α : Type} (get : Get α) (language : α → Language UInt8) : Prop :=
  ∀ reader value after, get reader = .ok value after → after.valid = true →
    ∃ taken ∈ language value, Took reader taken after

theorem Took.refl {reader : Reader} (h : reader.valid = true) : Took reader [] reader :=
  ⟨h, rfl, rfl⟩

theorem Took.trans {reader middle after : Reader} {first second : List UInt8}
    (hFirst : Took reader first middle) (hSecond : Took middle second after) :
    Took reader (first ++ second) after where
  valid := hFirst.valid
  rest := by rw [hFirst.rest, hSecond.rest, List.append_assoc]
  cursor := by
    rw [hSecond.cursor, hFirst.cursor, List.length_append]
    omega

theorem map_seq_eq_bind {α β γ : Type} (f : α → β → γ) (get : Get α) (next : Get β) :
    f <$> get <*> next = get >>= fun value => f value <$> next := by
  funext reader
  show ((f <$> get) >>= fun g => g <$> next) reader = _
  rw [bind_apply, bind_apply, map_apply]
  cases get reader <;> rfl

/-- A record is read like the tuple of its fields. -/
theorem map_seq_eq_map {α β γ : Type} (f : α → β → γ) (get : Get α) (next : Get β) :
    f <$> get <*> next = (fun fields => f fields.1 fields.2) <$> (Prod.mk <$> get <*> next) := by
  rw [map_seq_eq_bind, map_seq_eq_bind]
  funext reader
  rw [bind_apply, map_apply, bind_apply]
  cases get reader with
  | error fault middle => rfl
  | ok value middle =>
      dsimp only
      rw [map_apply, map_apply]
      cases next middle <;> rfl

theorem map_seq_seq_eq_map {α β γ δ : Type} (f : α → β → γ → δ) (first : Get α)
    (second : Get β) (third : Get γ) :
    f <$> first <*> second <*> third = (fun fields => f fields.1.1 fields.1.2 fields.2) <$>
      (Prod.mk <$> (Prod.mk <$> first <*> second) <*> third) := by
  rw [map_seq_eq_map f, map_seq_eq_map]

theorem map_seq_seq_seq_eq_map {α β γ δ ε : Type} (f : α → β → γ → δ → ε) (first : Get α)
    (second : Get β) (third : Get γ) (fourth : Get δ) :
    f <$> first <*> second <*> third <*> fourth =
      (fun fields => f fields.1.1.1 fields.1.1.2 fields.1.2 fields.2) <$>
        (Prod.mk <$> (Prod.mk <$> (Prod.mk <$> first <*> second) <*> third) <*> fourth) := by
  rw [map_seq_seq_eq_map f, map_seq_eq_map]

/-- A round of a loop that ends with the flag set has read its value and gone on. -/
theorem round_eq_ok {α β : Type} {get : Get α} {next : α → Get β} {fallback result : β}
    {reader after : Reader}
    (h : (get >>= fun value => ifValid fallback (next value)) reader = .ok result after)
    (hValid : after.valid = true) :
    ∃ value middle, get reader = .ok value middle ∧ middle.valid = true ∧
      next value middle = .ok result after := by
  rw [bind_apply] at h
  cases hGet : get reader with
  | error fault middle =>
      rw [hGet] at h
      cases h
  | ok value middle =>
      rw [hGet] at h
      refine ⟨value, middle, rfl, ?_⟩
      by_cases hMiddle : middle.valid = true
      · refine ⟨hMiddle, ?_⟩
        simpa only [ifValid, hMiddle, if_true] using h
      · simp only [ifValid, hMiddle, if_false, Bool.false_eq_true] at h
        cases h
        exact (hMiddle hValid).elim

namespace Takes

variable {α β γ : Type} {first : α → Language UInt8} {second : β → Language UInt8}

theorem mono {get : Get α} {larger : α → Language UInt8} (h : Takes get first)
    (hLe : ∀ value, first value ≤ larger value) : Takes get larger := by
  intro reader value after hReturn hValid
  obtain ⟨taken, hTaken, hTook⟩ := h reader value after hReturn hValid
  exact ⟨taken, hLe value hTaken, hTook⟩

theorem pure {value : α} (h : [] ∈ first value) : Takes (pure value : Get α) first := by
  intro reader other after hReturn hValid
  cases hReturn
  exact ⟨[], h, Took.refl hValid⟩

/-- What two decoders take in a row is what the first takes, followed by what the second
takes. -/
theorem bind {get : Get α} {next : α → Get β} {later : α → β → Language UInt8}
    (h : Takes get first) (hNext : ∀ value, Takes (next value) (later value))
    (hLe : ∀ value result, first value * later value result ≤ second result) :
    Takes (get >>= next) second := by
  intro reader result after hReturn hValid
  rw [bind_apply] at hReturn
  cases hGet : get reader with
  | error fault middle =>
      rw [hGet] at hReturn
      cases hReturn
  | ok value middle =>
      rw [hGet] at hReturn
      obtain ⟨rest, hRest, hSecond⟩ := hNext value middle result after hReturn hValid
      obtain ⟨before, hBefore, hFirst⟩ := h reader value middle hGet hSecond.valid
      exact ⟨before ++ rest, hLe value result (Language.append_mem_mul hBefore hRest),
        hFirst.trans hSecond⟩

theorem map {get : Get α} {f : α → β} (h : Takes get first)
    (hLe : ∀ value, first value ≤ second (f value)) : Takes (f <$> get) second := by
  intro reader result after hReturn hValid
  rw [map_apply] at hReturn
  cases hGet : get reader with
  | error fault middle =>
      rw [hGet] at hReturn
      cases hReturn
  | ok value middle =>
      rw [hGet] at hReturn
      cases hReturn
      obtain ⟨taken, hTaken, hTook⟩ := h reader value _ hGet hValid
      exact ⟨taken, hLe value hTaken, hTook⟩

/-- A value is returned once the flag was looked at. -/
theorem andReturn {get : Get α} {f : α → β} (h : Takes get first)
    (hLe : ∀ value, first value ≤ second (f value)) (fallback : β) :
    Takes (get >>= fun value => Decoder.ifValid fallback (Pure.pure (f value))) second := by
  intro reader result after hReturn hValid
  obtain ⟨value, middle, hGet, hMiddle, hSame⟩ := round_eq_ok hReturn hValid
  cases hSame
  obtain ⟨taken, hTaken, hTook⟩ := h reader value _ hGet hMiddle
  exact ⟨taken, hLe value hTaken, hTook⟩

/-- Two values are read one after the other. -/
theorem both {get : Get α} {next : Get β} (h : Takes get first) (hNext : Takes next second) :
    Takes (Prod.mk <$> get <*> next) fun value => first value.1 * second value.2 := by
  have hPair : ∀ value : α, Takes (Prod.mk value <$> next)
      fun result : α × β => {bytes | result.1 = value ∧ bytes ∈ second result.2} := by
    intro value
    exact hNext.map fun _ bytes hBytes => ⟨rfl, hBytes⟩
  rw [map_seq_eq_bind]
  apply h.bind hPair
  intro value result bytes hBytes
  obtain ⟨before, hBefore, rest, hRest, rfl⟩ := Language.mem_mul.mp hBytes
  rw [← hRest.1] at hBefore
  exact Language.append_mem_mul hBefore hRest.2

theorem ifValid {get : Get α} (h : Takes get first) (fallback : α) :
    Takes (ifValid fallback get) first := by
  intro reader value after hReturn hValid
  rw [Decoder.ifValid] at hReturn
  split at hReturn
  · exact h reader value after hReturn hValid
  case isFalse hInvalid =>
    cases hReturn
    exact (hInvalid hValid).elim

theorem read {len : Nat} (hLen : len < 2 ^ 63) :
    Takes (read len) fun data => {bytes | bytes.length = len ∧ data = some bytes} := by
  intro reader data after hReturn hValid
  rw [read_of_lt hLen] at hReturn
  split at hReturn
  case isTrue hLe =>
    cases hReturn
    refine ⟨reader.rest.take len, ⟨List.length_take_of_le hLe, rfl⟩, hValid, ?_, ?_⟩
    · exact (List.take_append_drop len reader.rest).symm
    · rw [List.length_take_of_le hLe]
      rfl
  case isFalse =>
    cases hReturn
    cases hValid

theorem select {alternatives : List (Get α)} {index : Nat}
    (h : ∀ get, alternatives[index]? = some get → Takes get first) :
    Takes (select alternatives index) first := by
  intro reader value after hReturn hValid
  rw [Decoder.select] at hReturn
  cases hGet : alternatives[index]? with
  | none =>
      rw [hGet] at hReturn
      cases hReturn
  | some get =>
      rw [hGet] at hReturn
      obtain ⟨taken, hTaken, hTook⟩ := h get hGet _ value after hReturn hValid
      exact ⟨taken, hTaken, hTook.valid, hTook.rest, hTook.cursor⟩

end Takes

section Loops

variable {α γ : Type} {get : Get α} {language : α → Language UInt8} {insert : γ → α → γ}
  {size : γ → Nat} {least chunk len : Nat}

/-- A round that ends with the flag set has taken the bytes of its value. -/
theorem exists_took_of_round {next : α → Get γ} {fallback result : γ} {reader after : Reader}
    (h : Takes get language) (hChecked : Checked least get)
    (hReturn : (get >>= fun value => ifValid fallback (next value)) reader = .ok result after)
    (hValid : after.valid = true) :
    ∃ value middle taken, taken ∈ language value ∧ Took reader taken middle ∧
      middle.rest.length + least ≤ reader.rest.length ∧ next value middle = .ok result after := by
  obtain ⟨value, middle, hGet, hMiddle, hNext⟩ := round_eq_ok hReturn hValid
  obtain ⟨taken, hTaken, hTook⟩ := h reader value middle hGet hMiddle
  have hOutcome := hChecked.outcome reader
  rw [hGet] at hOutcome
  cases hOutcome with
  | returned _ _ hInRange hRest hShorter =>
      exact ⟨value, middle, taken, hTaken, hTook, (hShorter hMiddle).2, hNext⟩

/-- If filling a container ends well, the bytes it took are those of the elements that it
read, and the container has the wanted size. -/
theorem exists_took_fill (h : Takes get language) (hChecked : Checked least get)
    (hLeast : 0 < least) (hInsert : ∀ filled value, size (insert filled value) ≤ size filled + 1)
    (hSmall : chunk < 2 ^ 63) (fuel allocated : Nat) (filled result : γ) (reader after : Reader)
    (hSize : size filled ≤ allocated) (hAllocated : allocated ≤ len)
    (hRoom : size filled + reader.rest.length < 2 ^ 63)
    (hReturn : fill get insert size chunk len fuel allocated filled reader = .ok result after)
    (hValid : after.valid = true) :
    ∃ (values : List α) (taken : List UInt8), values.foldl insert filled = result ∧
      size result = len ∧ taken ∈ (values.map language).prod ∧ Took reader taken after := by
  induction fuel generalizing allocated filled reader with
  | zero => cases hReturn
  | succ fuel ih =>
      rw [fill] at hReturn
      split at hReturn
      case isTrue hMore =>
        obtain ⟨value, middle, before, hBefore, hFirst, hShorter, hNext⟩ :=
          exists_took_of_round h hChecked hReturn hValid
        have hGrown := hInsert filled value
        obtain ⟨values, taken, hFold, hLen, hTaken, hRest⟩ :=
          ih allocated (insert filled value) middle (by omega) hAllocated (by omega) hNext
        refine ⟨value :: values, before ++ taken, hFold, hLen, ?_, hFirst.trans hRest⟩
        rw [List.map_cons, List.prod_cons]
        exact Language.append_mem_mul hBefore hTaken
      case isFalse hFull =>
        split at hReturn
        case isTrue hMore =>
          exact ih _ filled reader (by omega) (min_le_left _ _) hRoom hReturn
        case isFalse hDone =>
          cases hReturn
          exact ⟨[], [], rfl, by omega, Language.nil_mem_one, Took.refl hValid⟩

/-- If all rounds end well, the bytes taken are those of as many elements. -/
theorem exists_took_iterate (h : Takes get language) (hChecked : Checked least get)
    (fuel round : Nat) (filled result : γ) (reader after : Reader) (hRound : round ≤ len)
    (hReturn : iterate get insert len fuel round filled reader = .ok result after)
    (hValid : after.valid = true) :
    ∃ (values : List α) (taken : List UInt8), values.foldl insert filled = result ∧
      round + values.length = len ∧ taken ∈ (values.map language).prod ∧
        Took reader taken after := by
  induction fuel generalizing round filled reader with
  | zero => cases hReturn
  | succ fuel ih =>
      rw [iterate] at hReturn
      split at hReturn
      case isTrue hMore =>
        obtain ⟨value, middle, before, hBefore, hFirst, _, hNext⟩ :=
          exists_took_of_round h hChecked hReturn hValid
        obtain ⟨values, taken, hFold, hLen, hTaken, hRest⟩ :=
          ih (round + 1) (insert filled value) middle hMore hNext
        refine ⟨value :: values, before ++ taken, hFold, ?_, ?_, hFirst.trans hRest⟩
        · rw [List.length_cons]
          omega
        · rw [List.map_cons, List.prod_cons]
          exact Language.append_mem_mul hBefore hTaken
      case isFalse hDone =>
        cases hReturn
        refine ⟨[], [], rfl, ?_, Language.nil_mem_one, Took.refl hValid⟩
        rw [List.length_nil]
        omega

/-- What a container takes: the bytes of the elements that were inserted, one
after the other. It ends with as many elements as it was told. -/
theorem Takes.withFuel_fill {empty : γ} (h : Takes get language) (hChecked : Checked least get)
    (hLeast : 0 < least) (hEmpty : size empty = 0)
    (hInsert : ∀ filled value, size (insert filled value) ≤ size filled + 1)
    (hSmall : chunk < 2 ^ 63) :
    Takes (withFuel fun fuel => fill get insert size chunk len fuel 0 empty)
      fun filled => {bytes | ∃ values : List α, values.foldl insert empty = filled ∧
        size filled = len ∧ bytes ∈ (values.map language).prod} := by
  intro reader filled after hReturn hValid
  have hSize := reader.size_lt
  obtain ⟨values, taken, hFold, hLen, hTaken, hTook⟩ := exists_took_fill h hChecked hLeast hInsert
    hSmall _ 0 empty filled reader after (by omega) (Nat.zero_le _) (by omega) hReturn hValid
  exact ⟨taken, ⟨values, hFold, hLen, hTaken⟩, hTook⟩

/-- A loop over a number of rounds reads as many elements. -/
theorem Takes.withFuel_iterate {empty : γ} (h : Takes get language)
    (hChecked : Checked least get) :
    Takes (withFuel fun fuel => iterate get insert len fuel 0 empty)
      fun filled => {bytes | ∃ values : List α, values.foldl insert empty = filled ∧
        values.length = len ∧ bytes ∈ (values.map language).prod} := by
  intro reader filled after hReturn hValid
  obtain ⟨values, taken, hFold, hLen, hTaken, hTook⟩ := exists_took_iterate h hChecked _ 0 empty
    filled reader after (Nat.zero_le _) hReturn hValid
  exact ⟨taken, ⟨values, hFold, by omega, hTaken⟩, hTook⟩

end Loops

def OfLength (len : Nat) (language : Language UInt8) : Prop :=
  ∀ bytes ∈ language, bytes.length = len

/-- At least so many bytes, and exactly so many only in the language. -/
def Spans (size : Nat) (language : Language UInt8) : Language UInt8 :=
  {bytes | size ≤ bytes.length ∧ (bytes.length = size → bytes ∈ language)}

section Lengths

variable {α : Type} {first second : Language UInt8} {len other : Nat}

theorem OfLength.singleton (bytes : List UInt8) : OfLength bytes.length {bytes} := by
  intro others hOthers
  rw [Set.mem_singleton_iff.mp hOthers]

theorem OfLength.mul (h : OfLength len first) (hSecond : OfLength other second) :
    OfLength (len + other) (first * second) := by
  intro bytes hBytes
  obtain ⟨before, hBefore, after, hAfter, rfl⟩ := Language.mem_mul.mp hBytes
  rw [List.length_append, h before hBefore, hSecond after hAfter]

theorem OfLength.prod {language : α → Language UInt8} {size : α → Nat}
    (h : ∀ value, OfLength (size value) (language value)) (values : List α) :
    OfLength (values.map size).sum (values.map language).prod := by
  induction values with
  | nil =>
      intro bytes hBytes
      rw [List.map_nil, List.prod_nil, Language.mem_one] at hBytes
      rw [hBytes]
      rfl
  | cons value values ih =>
      simp only [List.map_cons, List.sum_cons, List.prod_cons]
      exact (h value).mul ih

theorem spans_mul_le :
    Spans len first * Spans other second ≤ Spans (len + other) (first * second) := by
  intro bytes hBytes
  obtain ⟨before, hBefore, after, hAfter, rfl⟩ := Language.mem_mul.mp hBytes
  have hFirst := hBefore.1
  have hSecond := hAfter.1
  refine ⟨?_, ?_⟩
  · rw [List.length_append]
    omega
  · intro hLength
    rw [List.length_append] at hLength
    exact Language.append_mem_mul (hBefore.2 (by omega)) (hAfter.2 (by omega))

theorem spans_prod_le (size : α → Nat) (language : α → Language UInt8) (values : List α) :
    (values.map fun value => Spans (size value) (language value)).prod ≤
      Spans (values.map size).sum (values.map language).prod := by
  induction values with
  | nil => exact fun bytes hBytes => ⟨Nat.zero_le _, fun _ => hBytes⟩
  | cons value values ih =>
      simp only [List.map_cons, List.sum_cons, List.prod_cons]
      exact (mul_le_mul_right ih _).trans spans_mul_le

end Lengths

end Decoder

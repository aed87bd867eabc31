import OpenCbdc.Library.Ascii

/-! The hexadecimal form of a buffer. It is printed strictly, and read through a
stream for each two characters. -/
namespace OpenCbdc

open Ascii

/-- `buffer::to_hex`, for the bytes of the buffer. -/
def toHex (data : List UInt8) : List UInt8 := data.flatMap fun byte => printHex 2 byte.toNat

/-- The loop of `buffer::from_hex`, with what was read so far. -/
def fromHexLoop : List UInt8 → List UInt8 → Option (List UInt8)
  | ret, [] => some ret
  | ret, [c] => (extractUInt [c]).map fun v => ret ++ [v.toUInt8]
  | ret, c :: d :: rest =>
      match extractUInt [c, d] with
      | none => none
      | some v => fromHexLoop (ret ++ [v.toUInt8]) rest

/-- `max_size` of `from_hex`. -/
def maxHexSize : Nat := 102400

def fromHex (hex : List UInt8) : Option (List UInt8) :=
  if hex = [] ∨ hex.length % 2 ≠ 0 ∨ maxHexSize < hex.length then none else fromHexLoop [] hex

def hexPairs : List UInt8 → List (UInt8 × UInt8)
  | c :: d :: rest => (c, d) :: hexPairs rest
  | _ => []

/-- The sizes that `from_hex` does not refuse at once. -/
structure HexSized (hex : List UInt8) : Prop where
  nonempty : hex ≠ []
  even : hex.length % 2 = 0
  bounded : hex.length ≤ maxHexSize

/-- What a strict reader accepts. -/
structure HexString (hex : List UInt8) : Prop extends HexSized hex where
  digits : ∀ c ∈ hex, isHexDigit c = true

/-- The string is read if it is a hexadecimal one and only then, and what is read
prints as the string in lower case. -/
def ReadStrictly (hex : List UInt8) : Prop :=
  ((fromHex hex).isSome = true ↔ HexString hex) ∧
    ∀ data, fromHex hex = some data → toHex data = hex.map lowerCase

variable {hex data : List UInt8}

theorem fromHex_of_sized (h : HexSized hex) : fromHex hex = fromHexLoop [] hex := by
  refine if_neg ?_
  rintro (hNil | hOdd | hLong)
  · exact h.nonempty hNil
  · exact hOdd h.even
  · exact Nat.not_lt.mpr h.bounded hLong

theorem sized_of_fromHex (h : (fromHex hex).isSome = true) : HexSized hex := by
  rw [fromHex] at h
  split at h
  · cases h
  case isFalse hSized =>
      simp only [not_or, not_not, Nat.not_lt] at hSized
      exact ⟨hSized.1, hSized.2.1, hSized.2.2⟩

/-- The loop ends if a number is found in every pair. -/
theorem isSome_fromHexLoop (ret : List UInt8) (hEven : hex.length % 2 = 0) :
    (fromHexLoop ret hex).isSome = true ↔ ∀ pair ∈ hexPairs hex, HoldsNumber pair.1 pair.2 := by
  fun_induction fromHexLoop ret hex with
  | case1 ret => simp [hexPairs]
  | case2 ret c => simp at hEven
  | case3 ret c d rest hNone =>
      have hNot : ¬HoldsNumber c d := by
        rw [← isSome_extractUInt_pair, hNone]
        simp
      simp [hexPairs, hNot]
  | case4 ret c d rest v hSome ih =>
      have hHolds : HoldsNumber c d := by
        rw [← isSome_extractUInt_pair, hSome]
        rfl
      have hRest : rest.length % 2 = 0 := by
        simp only [List.length_cons] at hEven
        omega
      simp [hexPairs, hHolds, ih hRest]

/-- Two digits are read as a byte, which prints as the digits in lower case. -/
theorem exists_byte_of_digits {c d : UInt8} (hHigh : isHexDigit c = true)
    (hLow : isHexDigit d = true) :
    ∃ v, extractUInt [c, d] = some v ∧
      printHex 2 v.toUInt8.toNat = [lowerCase c, lowerCase d] := by
  obtain ⟨⟨high, hHighLt, hHighValue, hHighChar⟩, _⟩ := digit_spec c hHigh
  obtain ⟨⟨low, hLowLt, hLowValue, hLowChar⟩, _⟩ := digit_spec d hLow
  refine ⟨_, extractUInt_digits hHighValue hLowValue, ?_⟩
  have hByte : (UInt32.ofNat (high * 16 + low)).toUInt8.toNat = high * 16 + low := by
    rw [UInt32.toNat_toUInt8, UInt32.toNat_ofNat_of_lt' (by simp [UInt32.size]; omega)]
    omega
  have hQuotient : (high * 16 + low) / 16 = high := by omega
  have hRemainder : (high * 16 + low) % 16 = low := by omega
  rw [printHex_byte, hByte, hQuotient, hRemainder, hHighChar, hLowChar]

/-- An even number of digits is read in full, and written back in lower case. -/
theorem fromHexLoop_of_digits (ret : List UInt8) (hEven : hex.length % 2 = 0)
    (hDigits : ∀ c ∈ hex, isHexDigit c = true) :
    ∃ data, fromHexLoop ret hex = some (ret ++ data) ∧ toHex data = hex.map lowerCase := by
  fun_induction fromHexLoop ret hex with
  | case1 ret => exact ⟨[], by simp, rfl⟩
  | case2 ret c => simp at hEven
  | case3 ret c d rest hNone =>
      obtain ⟨v, hValue, _⟩ := exists_byte_of_digits (hDigits c (by simp)) (hDigits d (by simp))
      rw [hNone] at hValue
      cases hValue
  | case4 ret c d rest v hSome ih =>
      obtain ⟨w, hValue, hPrint⟩ :=
        exists_byte_of_digits (hDigits c (by simp)) (hDigits d (by simp))
      obtain rfl : v = w := Option.some.inj (hSome.symm.trans hValue)
      have hRest : rest.length % 2 = 0 := by
        simp only [List.length_cons] at hEven
        omega
      obtain ⟨data, hLoop, hHex⟩ := ih hRest fun other hOther => hDigits other (by simp [hOther])
      refine ⟨v.toUInt8 :: data, by simp [hLoop], ?_⟩
      rw [toHex, List.flatMap_cons, hPrint, ← toHex, hHex]
      rfl

/-- A hexadecimal string is read, and what is read prints as the string in lower
case. -/
theorem fromHex_of_hexString (h : HexString hex) :
    ∃ data, fromHex hex = some data ∧ toHex data = hex.map lowerCase := by
  obtain ⟨data, hLoop, hHex⟩ := fromHexLoop_of_digits [] h.even h.digits
  exact ⟨data, by rw [fromHex_of_sized h.toHexSized, hLoop, List.nil_append], hHex⟩

theorem length_toHex (data : List UInt8) : (toHex data).length = 2 * data.length := by
  induction data with
  | nil => rfl
  | cons byte data ih =>
      rw [toHex, List.flatMap_cons, List.length_append, ← toHex, ih, printHex_byte,
        List.length_cons, List.length_singleton, List.length_cons]
      omega

/-- What is printed for a byte is read as the byte. -/
theorem extractUInt_printHex (byte : UInt8) :
    ∃ c d v, printHex 2 byte.toNat = [c, d] ∧ extractUInt [c, d] = some v ∧ v.toUInt8 = byte := by
  have hByte := byte.toNat_lt
  have hHigh := digitValue_digitChar (byte.toNat / 16) (by omega)
  have hLow := digitValue_digitChar (byte.toNat % 16) (by omega)
  refine ⟨_, _, _, printHex_byte byte, extractUInt_digits hHigh hLow, ?_⟩
  have hSame : byte.toNat / 16 * 16 + byte.toNat % 16 = byte.toNat := Nat.div_add_mod' _ 16
  rw [hSame]
  apply UInt8.toNat_inj.mp
  rw [UInt32.toNat_toUInt8, UInt32.toNat_ofNat_of_lt' (by simp [UInt32.size]; omega)]
  omega

theorem fromHexLoop_toHex (ret data : List UInt8) :
    fromHexLoop ret (toHex data) = some (ret ++ data) := by
  induction data generalizing ret with
  | nil => simp [toHex, fromHexLoop]
  | cons byte data ih =>
      obtain ⟨c, d, v, hPrint, hValue, rfl⟩ := extractUInt_printHex byte
      rw [toHex, List.flatMap_cons, hPrint, ← toHex]
      simp only [List.cons_append, List.nil_append, fromHexLoop, hValue, ih]
      simp

/-- What is printed for a buffer is read back, if it is not empty and not too long. -/
theorem fromHex_toHex (hNonempty : 1 ≤ data.length) (hBounded : data.length ≤ 51200) :
    fromHex (toHex data) = some data := by
  have hLength := length_toHex data
  have hSized : HexSized (toHex data) := by
    refine ⟨?_, by omega, by rw [maxHexSize]; omega⟩
    intro hNil
    rw [hNil, List.length_nil] at hLength
    omega
  rw [fromHex_of_sized hSized, fromHexLoop_toHex, List.nil_append]

/-- Buffers of the sizes that can be read are read back from what is printed for
them, but strings are read strictly only if a number is missing in one of the pairs
whenever some character is not a digit. -/
theorem read_strictly_iff (hex : List UInt8) :
    (ReadStrictly hex ↔
      (HexSized hex → (∃ c ∈ hex, isHexDigit c = false) →
        ∃ pair ∈ hexPairs hex, ¬HoldsNumber pair.1 pair.2)) ∧
    ∀ data : List UInt8, 1 ≤ data.length → data.length ≤ 51200 →
      fromHex (toHex data) = some data := by
  refine ⟨⟨?_, ?_⟩, fun data => fromHex_toHex⟩
  · rintro ⟨hAccepted, _⟩ hSized ⟨c, hMem, hNoDigit⟩
    by_contra hAll
    have hPairs : ∀ pair ∈ hexPairs hex, HoldsNumber pair.1 pair.2 := by
      simpa using hAll
    have hRead : (fromHex hex).isSome = true := by
      rw [fromHex_of_sized hSized]
      exact (isSome_fromHexLoop [] hSized.even).mpr hPairs
    have hDigit := (hAccepted.mp hRead).digits c hMem
    rw [hNoDigit] at hDigit
    cases hDigit
  · intro hStrict
    -- A string of an accepted size that is read consists of digits.
    have hHexString : (fromHex hex).isSome = true → HexString hex := by
      intro hRead
      have hSized : HexSized hex := sized_of_fromHex hRead
      refine ⟨hSized, ?_⟩
      by_contra hNot
      simp only [not_forall, Bool.not_eq_true, exists_prop] at hNot
      obtain ⟨pair, hPair, hMissing⟩ := hStrict hSized hNot
      rw [fromHex_of_sized hSized] at hRead
      exact hMissing ((isSome_fromHexLoop [] hSized.even).mp hRead pair hPair)
    refine ⟨⟨hHexString, ?_⟩, ?_⟩
    · intro hValid
      obtain ⟨data, hRead, _⟩ := fromHex_of_hexString hValid
      rw [hRead]
      rfl
    · intro data hRead
      obtain ⟨other, hOther, hHex⟩ := fromHex_of_hexString (hHexString (by rw [hRead]; rfl))
      cases hRead.symm.trans hOther
      exact hHex

/-- A character behind a digit is not looked at. -/
theorem letter_behind_digit_read :
    fromHex (bytesOf "1Z") = some [1] ∧ ¬ReadStrictly (bytesOf "1Z") := by
  have hRead : fromHex (bytesOf "1Z") = some [1] := by decide +kernel
  refine ⟨hRead, fun hStrict => ?_⟩
  have hHex : toHex [1] = (bytesOf "1Z").map lowerCase := hStrict.2 [1] hRead
  revert hHex
  decide +kernel

end OpenCbdc

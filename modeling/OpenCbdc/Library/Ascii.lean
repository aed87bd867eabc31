import Mathlib.Data.FinEnum
import OpenCbdc.Library.Positional

/-! Text as a sequence of bytes, and how the streams of the C++ library print and
read unsigned numbers in hexadecimal format with the classic locale. A number may
follow blanks, a sign and `0x`, and reading it stops at the first byte that does not
continue it. -/
namespace Ascii

open Positional

def bytesOf (text : String) : List UInt8 := text.toList.map Char.toUInt8

def lowerCase (c : UInt8) : UInt8 :=
  if 'A'.toUInt8 ≤ c ∧ c ≤ 'Z'.toUInt8 then c - 'A'.toUInt8 + 'a'.toUInt8 else c

def isSpace (c : UInt8) : Bool := c = ' '.toUInt8 || (9 ≤ c && c ≤ 13)

def isSign (c : UInt8) : Bool := c = '+'.toUInt8 || c = '-'.toUInt8

def digitValue (c : UInt8) : Option Nat :=
  if '0'.toUInt8 ≤ c ∧ c ≤ '9'.toUInt8 then some (c - '0'.toUInt8).toNat
  else if 'a'.toUInt8 ≤ c ∧ c ≤ 'f'.toUInt8 then some ((c - 'a'.toUInt8).toNat + 10)
  else if 'A'.toUInt8 ≤ c ∧ c ≤ 'F'.toUInt8 then some ((c - 'A'.toUInt8).toNat + 10)
  else none

def isHexDigit (c : UInt8) : Bool := (digitValue c).isSome

section Output

def digitChar (value : Nat) : UInt8 := value.digitChar.toUInt8

/-- A number that is printed with `std::hex`, in a field that is filled with zeros. -/
def printHex (width value : Nat) : List UInt8 :=
  ((Nat.toDigits 16 value).map Char.toUInt8).leftpad width '0'.toUInt8

end Output

section Input

def takeSign : List UInt8 → Bool × List UInt8
  | [] => (false, [])
  | c :: rest => if isSign c then (decide (c = '-'.toUInt8), rest) else (false, c :: rest)

def dropBase : List UInt8 → List UInt8
  | c :: x :: rest =>
      if c = '0'.toUInt8 ∧ (x = 'x'.toUInt8 ∨ x = 'X'.toUInt8) then rest else c :: x :: rest
  | text => text

def leadingDigits (text : List UInt8) : List Nat := (text.takeWhile isHexDigit).filterMap digitValue

/-- What is stored for the digits, or nothing when the stream fails: there must be
a digit, and the number must fit. After a minus sign it is negated modulo 2 ^ 32. -/
def store (negative : Bool) (digits : List Nat) : Option UInt32 :=
  if digits = [] ∨ 2 ^ 32 ≤ value 16 digits then none
  else if negative then some (-UInt32.ofNat (value 16 digits))
  else some (UInt32.ofNat (value 16 digits))

/-- Extraction of an `unsigned int` in hexadecimal format. -/
def extractUInt (text : List UInt8) : Option UInt32 :=
  let (negative, unsigned) := takeSign (text.dropWhile isSpace)
  store negative (leadingDigits (dropBase unsigned))

end Input

section Digits

variable {c d : UInt8}

theorem isHexDigit_eq_true : isHexDigit c = true ↔ ∃ value, digitValue c = some value := by
  rw [isHexDigit, Option.isSome_iff_exists]

/-- The printed digit of a value is the digit in lower case, and no digit is a blank or
a sign. -/
theorem digit_spec : ∀ c, isHexDigit c = true →
    (∃ value < 16, digitValue c = some value ∧ digitChar value = lowerCase c) ∧
      isSpace c = false ∧ isSign c = false := by
  decide +kernel

theorem isSpace_of_isHexDigit (c : UInt8) (h : isHexDigit c = true) : isSpace c = false :=
  (digit_spec c h).2.1

theorem isSign_of_isHexDigit (c : UInt8) (h : isHexDigit c = true) : isSign c = false :=
  (digit_spec c h).2.2

theorem digitValue_digitChar : ∀ value < 16, digitValue (digitChar value) = some value := by
  decide

/-- The letter after the zero is not a digit. -/
theorem isHexDigit_base : isHexDigit 'x'.toUInt8 = false ∧ isHexDigit 'X'.toUInt8 = false := by
  decide

/-- A byte is printed as two digits. -/
theorem printHex_byte : ∀ byte : UInt8, printHex 2 byte.toNat =
    [digitChar (byte.toNat / 16), digitChar (byte.toNat % 16)] := by
  decide +kernel

end Digits

section Extraction

variable {c d : UInt8} {text rest : List UInt8}

theorem leadingDigits_cons {value : Nat} (h : digitValue c = some value) :
    leadingDigits (c :: rest) = value :: leadingDigits rest := by
  have hDigit : isHexDigit c = true := isHexDigit_eq_true.mpr ⟨value, h⟩
  simp [leadingDigits, hDigit, h]

theorem leadingDigits_cons_eq_nil_iff : leadingDigits (c :: rest) = [] ↔ isHexDigit c = false := by
  cases hValue : digitValue c with
  | none => simp [leadingDigits, isHexDigit, hValue]
  | some value => simp [leadingDigits_cons hValue, isHexDigit, hValue]

theorem leadingDigits_lt (text : List UInt8) : ∀ digit ∈ leadingDigits text, digit < 16 := by
  intro digit hMem
  obtain ⟨c, _, hValue⟩ := List.mem_filterMap.mp hMem
  obtain ⟨⟨value, hLt, hSame, _⟩, _⟩ := digit_spec c (isHexDigit_eq_true.mpr ⟨digit, hValue⟩)
  rw [hValue] at hSame
  exact Option.some.inj hSame ▸ hLt

theorem length_leadingDigits_le (text : List UInt8) :
    (leadingDigits text).length ≤ text.length :=
  (List.length_filterMap_le _ _).trans (List.takeWhile_sublist _).length_le

/-- Up to eight digits fit. -/
theorem isSome_store (negative : Bool) (h : text.length ≤ 8) :
    (store negative (leadingDigits text)).isSome = true ↔ leadingDigits text ≠ [] := by
  have hLength : (leadingDigits text).length ≤ 8 := (length_leadingDigits_le text).trans h
  have hFits : value 16 (leadingDigits text) < 2 ^ 32 := calc
    value 16 (leadingDigits text) < 16 ^ (leadingDigits text).length :=
      value_lt (by decide) (leadingDigits_lt text)
    _ ≤ 16 ^ 8 := Nat.pow_le_pow_right (by decide) hLength
  rw [store]
  split
  case isTrue hFails =>
      have hNil : leadingDigits text = [] := hFails.resolve_right (Nat.not_le.mpr hFits)
      simp [hNil]
  case isFalse hHolds =>
      have hDigits : leadingDigits text ≠ [] := fun hNil => hHolds (Or.inl hNil)
      cases negative <;> simp [hDigits]

/-- Two bytes in which a number is found: a digit with anything behind it but the
`x` of a base, or a digit behind a blank or a sign. -/
def HoldsNumber (c d : UInt8) : Prop :=
  isHexDigit c = true ∧ ¬(c = '0'.toUInt8 ∧ (d = 'x'.toUInt8 ∨ d = 'X'.toUInt8)) ∨
    (isSpace c = true ∨ isSign c = true) ∧ isHexDigit d = true

instance (c d : UInt8) : Decidable (HoldsNumber c d) :=
  inferInstanceAs (Decidable (_ ∨ _))

/-- A number is found in a single byte if it is a digit. -/
theorem isSome_extractUInt_single (d : UInt8) :
    (extractUInt [d]).isSome = true ↔ isHexDigit d = true := by
  by_cases hSpace : isSpace d = true
  · have hDigit : isHexDigit d ≠ true := fun h => by simp [isSpace_of_isHexDigit d h] at hSpace
    simp [extractUInt, hSpace, takeSign, dropBase, leadingDigits, store, hDigit]
  · by_cases hSign : isSign d = true
    · have hDigit : isHexDigit d ≠ true := fun h => by simp [isSign_of_isHexDigit d h] at hSign
      simp [extractUInt, hSpace, takeSign, hSign, dropBase, leadingDigits, store, hDigit]
    · have hExtract : extractUInt [d] = store false (leadingDigits [d]) := by
        simp [extractUInt, hSpace, takeSign, hSign, dropBase]
      rw [hExtract, isSome_store false (by simp), Ne, leadingDigits_cons_eq_nil_iff,
        Bool.not_eq_false]

/-- A number is extracted exactly from the pairs of bytes that hold one. -/
theorem isSome_extractUInt_pair (c d : UInt8) :
    (extractUInt [c, d]).isSome = true ↔ HoldsNumber c d := by
  by_cases hSpace : isSpace c = true
  · have hDigit : isHexDigit c ≠ true := fun h => by simp [isSpace_of_isHexDigit c h] at hSpace
    have hSkip : extractUInt [c, d] = extractUInt [d] := by
      simp [extractUInt, hSpace]
    simp [hSkip, isSome_extractUInt_single, HoldsNumber, hSpace, hDigit]
  · by_cases hSign : isSign c = true
    · have hDigit : isHexDigit c ≠ true := fun h => by simp [isSign_of_isHexDigit c h] at hSign
      have hRest : extractUInt [c, d] =
          store (decide (c = '-'.toUInt8)) (leadingDigits [d]) := by
        simp [extractUInt, hSpace, takeSign, hSign, dropBase]
      rw [hRest, isSome_store _ (by simp), Ne, leadingDigits_cons_eq_nil_iff, Bool.not_eq_false]
      simp [HoldsNumber, hSign, hDigit]
    · have hText : extractUInt [c, d] = store false (leadingDigits (dropBase [c, d])) := by
        simp [extractUInt, hSpace, takeSign, hSign]
      rw [hText]
      by_cases hBase : c = '0'.toUInt8 ∧ (d = 'x'.toUInt8 ∨ d = 'X'.toUInt8)
      · have hNil : dropBase [c, d] = [] := if_pos hBase
        have hNot : ¬HoldsNumber c d := by
          rintro (⟨_, hOther⟩ | ⟨hBlank, _⟩)
          · exact hOther hBase
          · exact hBlank.elim hSpace hSign
        simp [hNil, leadingDigits, store, hNot]
      · have hSame : dropBase [c, d] = [c, d] := if_neg hBase
        rw [hSame, isSome_store false (by simp), Ne, leadingDigits_cons_eq_nil_iff,
          Bool.not_eq_false]
        simp [HoldsNumber, hBase, hSpace, hSign]

/-- Two digits are read as the number they stand for. -/
theorem extractUInt_digits {high low : Nat} (hHigh : digitValue c = some high)
    (hLow : digitValue d = some low) :
    extractUInt [c, d] = some (UInt32.ofNat (high * 16 + low)) := by
  have hFirst : isHexDigit c = true := isHexDigit_eq_true.mpr ⟨high, hHigh⟩
  have hSecond : isHexDigit d = true := isHexDigit_eq_true.mpr ⟨low, hLow⟩
  have hNoBase : ¬(c = '0'.toUInt8 ∧ (d = 'x'.toUInt8 ∨ d = 'X'.toUInt8)) := by
    rintro ⟨_, rfl | rfl⟩
    · simp [isHexDigit_base.1] at hSecond
    · simp [isHexDigit_base.2] at hSecond
  have hDigits : leadingDigits [c, d] = [high, low] := by
    rw [leadingDigits_cons hHigh, leadingDigits_cons hLow]
    rfl
  have hLt := leadingDigits_lt [c, d]
  simp only [hDigits, List.mem_cons, List.not_mem_nil, or_false, forall_eq_or_imp, forall_eq] at hLt
  have hValue : value 16 [high, low] = high * 16 + low := by simp [value_cons]
  have hFits : high * 16 + low < 4294967296 := by omega
  simp [extractUInt, isSpace_of_isHexDigit c hFirst, takeSign, isSign_of_isHexDigit c hFirst,
    dropBase, hNoBase, hDigits, store, hValue, hFits]

end Extraction
end Ascii

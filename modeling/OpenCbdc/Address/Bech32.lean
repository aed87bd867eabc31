import Mathlib.Data.List.Induction
import OpenCbdc.Library.Ascii

/-! Bech32, the encoding of addresses: symbols of five bits behind a human readable
part, and a checksum that the symbols and that part determine. -/
namespace OpenCbdc.Bech32

open Ascii Positional

def charset : List UInt8 := bytesOf "qpzry9x8gf2tvdw0s3jn54khce6mua7l"

def charsetRev : List Int :=
  [-1, -1, -1, -1, -1, -1, -1, -1, -1, -1, -1, -1, -1, -1, -1, -1,
   -1, -1, -1, -1, -1, -1, -1, -1, -1, -1, -1, -1, -1, -1, -1, -1,
   -1, -1, -1, -1, -1, -1, -1, -1, -1, -1, -1, -1, -1, -1, -1, -1,
   15, -1, 10, 17, 21, 20, 26, 30,  7,  5, -1, -1, -1, -1, -1, -1,
   -1, 29, -1, 24, 13, 25,  9,  8, 23, -1, 18, 22, 31, 27, 19, -1,
    1,  0,  3, 16, 11, 28, 12, 14,  6,  4,  2, -1, -1, -1, -1, -1,
   -1, 29, -1, 24, 13, 25,  9,  8, 23, -1, 18, 22, 31, 27, 19, -1,
    1,  0,  3, 16, 11, 28, 12, 14,  6,  4,  2, -1, -1, -1, -1, -1]

/-- A round of the loop in `PolyMod`. -/
def polyModStep (c : BitVec 32) (v : UInt8) : BitVec 32 :=
  let c0 : BitVec 8 := (c >>> 25).setWidth 8
  let c := ((c &&& 0x1ffffff#32) <<< 5) ^^^ v.toBitVec.setWidth 32
  let c := if c0 &&& 1#8 ≠ 0#8 then c ^^^ 0x3b6a57b2#32 else c
  let c := if c0 &&& 2#8 ≠ 0#8 then c ^^^ 0x26508e6d#32 else c
  let c := if c0 &&& 4#8 ≠ 0#8 then c ^^^ 0x1ea119fa#32 else c
  let c := if c0 &&& 8#8 ≠ 0#8 then c ^^^ 0x3d4233dd#32 else c
  if c0 &&& 16#8 ≠ 0#8 then c ^^^ 0x2a1462b3#32 else c

def polyMod (v : List UInt8) : BitVec 32 := v.foldl polyModStep 1#32

def expandHrp (hrp : List UInt8) : List UInt8 :=
  hrp.map (fun c : UInt8 => c >>> 5) ++ 0 :: hrp.map fun c : UInt8 => c &&& 0x1f

def verifyChecksum (hrp values : List UInt8) : Bool := polyMod (expandHrp hrp ++ values) = 1#32

/-- The six groups of five bits in `mod`. -/
def checksumOf (mod : BitVec 32) : List UInt8 :=
  (List.range 6).map fun i => .ofBitVec (((mod >>> (5 * (5 - i))) &&& 31#32).setWidth 8)

def createChecksum (hrp values : List UInt8) : List UInt8 :=
  checksumOf (polyMod (expandHrp hrp ++ values ++ List.replicate 6 0) ^^^ 1#32)

/-- The character of a symbol. Only symbols below 32 have one. -/
def charOf (symbol : UInt8) : UInt8 := charset.getD symbol.toNat 0

/-- `bech32::Encode`. It asserts that the first part has no upper case letter. -/
def encode (hrp values : List UInt8) : List UInt8 :=
  hrp ++ '1'.toUInt8 :: (values ++ createChecksum hrp values).map charOf

/-- The symbol of a character, in either case. The table ends at 127, and `Decode` has
refused larger characters before. -/
def symbolOf (c : UInt8) : Option UInt8 :=
  let rev := charsetRev.getD c.toNat (-1)
  if rev = -1 then none else some (UInt8.ofNat rev.toNat)

/-- The loop of `Decode` over the characters behind the separator. -/
def readSymbols : List UInt8 → Option (List UInt8)
  | [] => some []
  | c :: rest => (symbolOf c).bind fun v => (readSymbols rest).map fun values => v :: values

def isLower (c : UInt8) : Bool := 'a'.toUInt8 ≤ c && c ≤ 'z'.toUInt8

def isUpper (c : UInt8) : Bool := 'A'.toUInt8 ≤ c && c ≤ 'Z'.toUInt8

/-- The characters that the first loop of `Decode` stops at. -/
def isRefused (c : UInt8) : Bool := !isLower c && !isUpper c && (c < 33 || 126 < c)

def rfind (c : UInt8) : List UInt8 → Option Nat
  | [] => none
  | head :: rest =>
      match rfind c rest with
      | some pos => some (pos + 1)
      | none => if head = c then some 0 else none

/-- `bech32::Decode`. Two empty parts stand for a failure. -/
def decode (str : List UInt8) : List UInt8 × List UInt8 :=
  if str.any isRefused then ([], [])
  else if str.any isLower && str.any isUpper then ([], [])
  else
    match rfind '1'.toUInt8 str with
    | none => ([], [])
    | some pos =>
        if 90 < str.length ∨ pos = 0 ∨ str.length < pos + 7 then ([], [])
        else
          match readSymbols (str.drop (pos + 1)) with
          | none => ([], [])
          | some values =>
              let hrp := (str.take pos).map lowerCase
              if verifyChecksum hrp values then (hrp, values.take (values.length - 6))
              else ([], [])

section Checksum

/-- The multiple of the generator that is added when a bit leaves the register. -/
def reduction (c : BitVec 32) (n : Nat) (k : BitVec 32) : BitVec 32 :=
  if c.getLsbD (25 + n) then k else 0#32

/-- What a round makes of the register before it adds the symbol. -/
def advance (c : BitVec 32) : BitVec 32 :=
  ((c &&& 0x1ffffff#32) <<< 5) ^^^ (reduction c 0 0x3b6a57b2#32 ^^^ (reduction c 1 0x26508e6d#32 ^^^
    (reduction c 2 0x1ea119fa#32 ^^^ (reduction c 3 0x3d4233dd#32 ^^^
      reduction c 4 0x2a1462b3#32))))

theorem and_twoPow_ne_zero (c0 : BitVec 8) (n : Fin 5) :
    c0 &&& BitVec.twoPow 8 n ≠ 0#8 ↔ c0.getLsbD n = true := by
  have hBit : ∀ n : Fin 5, BitVec.twoPow 8 n ≠ 0#8 := by decide
  rw [BitVec.and_twoPow]
  by_cases hSet : c0.getLsbD n = true
  · simp [hSet, hBit n]
  · simp [hSet]

theorem reduce_eq (c k rest : BitVec 32) {n : Nat} {mask : BitVec 8} (hLt : n < 5)
    (hMask : mask = BitVec.twoPow 8 n) :
    (if (c >>> 25).setWidth 8 &&& mask ≠ 0#8 then rest ^^^ k else rest) =
      rest ^^^ reduction c n k := by
  have hBit : ((c >>> 25).setWidth 8).getLsbD n = c.getLsbD (25 + n) := by
    rw [BitVec.getLsbD_setWidth, BitVec.getLsbD_ushiftRight, decide_eq_true (by omega),
      Bool.true_and]
  have hTest := and_twoPow_ne_zero ((c >>> 25).setWidth 8) ⟨n, hLt⟩
  simp only [hBit, ← hMask] at hTest
  rw [reduction]
  by_cases hSet : c.getLsbD (25 + n) = true
  · rw [if_pos (hTest.mpr hSet), if_pos hSet]
  · rw [if_neg (fun h => hSet (hTest.mp h)), if_neg hSet, BitVec.xor_zero]

theorem polyModStep_eq (c : BitVec 32) (v : UInt8) :
    polyModStep c v = advance c ^^^ v.toBitVec.setWidth 32 := by
  simp only [polyModStep]
  rw [reduce_eq c _ _ (n := 4) (by decide) (by decide),
    reduce_eq c _ _ (n := 3) (by decide) (by decide),
    reduce_eq c _ _ (n := 2) (by decide) (by decide),
    reduce_eq c _ _ (n := 1) (by decide) (by decide),
    reduce_eq c _ _ (n := 0) (by decide) (by decide), advance]
  ac_rfl

theorem reduction_xor (a b k : BitVec 32) (n : Nat) :
    reduction (a ^^^ b) n k = reduction a n k ^^^ reduction b n k := by
  rw [reduction, reduction, reduction, BitVec.getLsbD_xor]
  cases a.getLsbD (25 + n) <;> cases b.getLsbD (25 + n) <;> simp

/-- A round is linear in exclusive or. -/
theorem advance_xor (a b : BitVec 32) : advance (a ^^^ b) = advance a ^^^ advance b := by
  have hMask : (a ^^^ b) &&& 0x1ffffff#32 = (a &&& 0x1ffffff#32) ^^^ (b &&& 0x1ffffff#32) := by
    apply BitVec.eq_of_getLsbD_eq
    intro i hi
    simp only [BitVec.getLsbD_and, BitVec.getLsbD_xor]
    cases a.getLsbD i <;> cases b.getLsbD i <;> simp
  simp only [advance, reduction_xor, hMask, BitVec.shiftLeft_xor_distrib]
  ac_rfl

theorem polyMod_append (symbols others : List UInt8) :
    polyMod (symbols ++ others) = others.foldl polyModStep (polyMod symbols) :=
  List.foldl_append

/-- The rounds over some symbols: those over as many zeros, and those that start with
an empty register. -/
theorem foldl_xor (a b : BitVec 32) (symbols : List UInt8) :
    symbols.foldl polyModStep (a ^^^ b) =
      (List.replicate symbols.length 0).foldl polyModStep a ^^^
        symbols.foldl polyModStep b := by
  induction symbols generalizing a b with
  | nil => rfl
  | cons v symbols ih =>
      have hStep : polyModStep (a ^^^ b) v = polyModStep a 0 ^^^ polyModStep b v := by
        rw [polyModStep_eq, polyModStep_eq, polyModStep_eq, advance_xor]
        simp [BitVec.xor_assoc]
      rw [List.foldl_cons, hStep, ih, List.length_cons, List.replicate_succ, List.foldl_cons,
        List.foldl_cons]

/-- A register with room for a symbol is only shifted. -/
theorem advance_of_lt {c : BitVec 32} (h : c.toNat < 2 ^ 25) :
    (advance c).toNat = c.toNat * 32 := by
  have hReduction : ∀ n k, reduction c n k = 0#32 := by
    intro n k
    have hBit : c.getLsbD (25 + n) = false := by
      rw [BitVec.getLsbD]
      exact Nat.testBit_lt_two_pow (h.trans_le (Nat.pow_le_pow_right (by decide) (by omega)))
    rw [reduction, hBit]
    rfl
  have hMask : c &&& 0x1ffffff#32 = c := by
    apply BitVec.eq_of_toNat_eq
    rw [BitVec.toNat_and]
    exact Nat.and_two_pow_sub_one_of_lt_two_pow h
  simp only [advance, hReduction, hMask, BitVec.xor_zero, BitVec.toNat_shiftLeft, Nat.shiftLeft_eq]
  exact Nat.mod_eq_of_lt (by omega)

theorem xor_eq_add {high low : Nat} (h : low < 32) : high * 32 ^^^ low = high * 32 + low := by
  have hShift : high * 32 = high <<< 5 := by rw [Nat.shiftLeft_eq]
  rw [hShift, Nat.shiftLeft_add_eq_or_of_lt (i := 5) h]
  apply Nat.eq_of_testBit_eq
  intro i
  rw [Nat.testBit_xor, Nat.testBit_or, Nat.testBit_shiftLeft]
  by_cases hLow : 5 ≤ i
  · have hSmall : low < 2 ^ 5 := h
    have hZero : low.testBit i = false :=
      Nat.testBit_lt_two_pow (hSmall.trans_le (Nat.pow_le_pow_right (by decide) hLow))
    simp [hZero]
  · simp [hLow]

theorem toNat_lt_of_lt {symbols : List UInt8} (h : ∀ v ∈ symbols, v < 32) :
    ∀ digit ∈ symbols.map UInt8.toNat, digit < 32 := by
  intro digit hDigit
  obtain ⟨v, hMem, rfl⟩ := List.mem_map.mp hDigit
  exact UInt8.lt_iff_toNat_lt.mp (h v hMem)

/-- Up to six symbols fill an empty register. -/
theorem foldl_zero {symbols : List UInt8} (hLength : symbols.length ≤ 6)
    (hSymbols : ∀ v ∈ symbols, v < 32) :
    (symbols.foldl polyModStep 0#32).toNat = value 32 (symbols.map UInt8.toNat) := by
  induction symbols using List.reverseRecOn with
  | nil => rfl
  | append_singleton symbols v ih =>
      have hInit : ∀ other ∈ symbols, other < 32 :=
        fun other hOther => hSymbols other (List.mem_append_left _ hOther)
      have hLast : v.toNat < 32 :=
        UInt8.lt_iff_toNat_lt.mp (hSymbols v (List.mem_append_right _ (List.mem_singleton_self v)))
      rw [List.length_append, List.length_singleton] at hLength
      have hValue := ih (by omega) hInit
      have hRoom : (symbols.foldl polyModStep 0#32).toNat < 2 ^ 25 := by
        rw [hValue]
        refine (value_lt (by decide) (toNat_lt_of_lt hInit)).trans_le ?_
        rw [List.length_map]
        exact Nat.pow_le_pow_right (n := 32) (by decide) (show symbols.length ≤ 5 by omega)
      rw [List.foldl_append, List.foldl_cons, List.foldl_nil, List.map_append, List.map_singleton,
        value_concat, ← hValue, polyModStep_eq, BitVec.toNat_xor, advance_of_lt hRoom]
      have hWiden : (v.toBitVec.setWidth 32).toNat = v.toNat := by
        rw [BitVec.toNat_setWidth]
        exact Nat.mod_eq_of_lt (by omega)
      rw [hWiden, xor_eq_add hLast]

/-- A step of the checksum keeps to 30 bits. -/
theorem advance_lt (c : BitVec 32) : (advance c).toNat < 2 ^ 30 := by
  have hReduction : ∀ n (k : BitVec 32), k.toNat < 2 ^ 30 → (reduction c n k).toNat < 2 ^ 30 := by
    intro n k hk
    rw [reduction]
    split
    · exact hk
    · decide
  have hMask : (c &&& 0x1ffffff#32).toNat < 2 ^ 25 := by
    rw [BitVec.toNat_and]
    exact Nat.and_lt_two_pow _ (by decide)
  have hShift : ((c &&& 0x1ffffff#32) <<< 5).toNat < 2 ^ 30 := by
    rw [BitVec.toNat_shiftLeft, Nat.shiftLeft_eq]
    exact (Nat.mod_le _ _).trans_lt (by omega)
  simp only [advance, BitVec.toNat_xor]
  refine Nat.xor_lt_two_pow hShift (Nat.xor_lt_two_pow (hReduction _ _ (by decide))
    (Nat.xor_lt_two_pow (hReduction _ _ (by decide))
      (Nat.xor_lt_two_pow (hReduction _ _ (by decide))
        (Nat.xor_lt_two_pow (hReduction _ _ (by decide)) (hReduction _ _ (by decide))))))

/-- The register after some zeros. -/
theorem polyMod_zeros_lt (symbols : List UInt8) :
    (polyMod (symbols ++ List.replicate 6 0)).toNat < 2 ^ 30 := by
  have hSplit : symbols ++ List.replicate 6 0 = (symbols ++ List.replicate 5 0) ++ [0] := by simp
  rw [hSplit, polyMod_append, List.foldl_cons, List.foldl_nil, polyModStep_eq]
  simpa using advance_lt _

@[simp] theorem length_checksumOf (mod : BitVec 32) : (checksumOf mod).length = 6 := by
  simp [checksumOf]

theorem checksumOf_lt (mod : BitVec 32) : ∀ v ∈ checksumOf mod, v < 32 := by
  intro v hMem
  obtain ⟨i, _, rfl⟩ := List.mem_map.mp hMem
  rw [UInt8.lt_iff_toNat_lt]
  have hLt : ((mod >>> (5 * (5 - i))) &&& 31#32).toNat < 2 ^ 5 := by
    rw [BitVec.toNat_and]
    exact Nat.and_lt_two_pow _ (by decide)
  show (((mod >>> (5 * (5 - i))) &&& 31#32).setWidth 8).toNat < 32
  rw [BitVec.toNat_setWidth]
  exact (Nat.mod_le _ _).trans_lt hLt

/-- The six symbols of the checksum are its digits to the base 32. -/
theorem value_checksumOf {mod : BitVec 32} (h : mod.toNat < 2 ^ 30) :
    value 32 ((checksumOf mod).map UInt8.toNat) = mod.toNat := by
  have hGroup : ∀ shift, (UInt8.ofBitVec (((mod >>> shift) &&& 31#32).setWidth 8)).toNat =
      mod.toNat / 2 ^ shift % 32 := by
    intro shift
    show (((mod >>> shift) &&& 31#32).setWidth 8).toNat = _
    rw [BitVec.toNat_setWidth, BitVec.toNat_and, BitVec.toNat_ushiftRight,
      Nat.shiftRight_eq_div_pow]
    have hAnd : mod.toNat / 2 ^ shift &&& (31#32).toNat = mod.toNat / 2 ^ shift % 2 ^ 5 :=
      Nat.and_two_pow_sub_one_eq_mod _ 5
    rw [hAnd]
    omega
  have hDigits : (checksumOf mod).map UInt8.toNat =
      [mod.toNat / 2 ^ 25 % 32, mod.toNat / 2 ^ 20 % 32, mod.toNat / 2 ^ 15 % 32,
        mod.toNat / 2 ^ 10 % 32, mod.toNat / 2 ^ 5 % 32, mod.toNat / 2 ^ 0 % 32] := by
    simp only [checksumOf, List.range_succ_eq_map, List.range_zero, List.map_cons, List.map_nil,
      hGroup]
  rw [hDigits]
  simp only [value_cons, List.length_cons, List.length_nil, value_nil]
  omega

/-- A checksum is accepted if it is the one that is created, and only then. -/
theorem verifyChecksum_iff (hrp values : List UInt8) {checksum : List UInt8}
    (hLength : checksum.length = 6) (hSymbols : ∀ v ∈ checksum, v < 32) :
    verifyChecksum hrp (values ++ checksum) = true ↔ checksum = createChecksum hrp values := by
  -- The register of the checked symbols, by that of as many zeros.
  have hSplit : polyMod (expandHrp hrp ++ (values ++ checksum)) =
      polyMod (expandHrp hrp ++ values ++ List.replicate 6 0) ^^^
        checksum.foldl polyModStep 0#32 := by
    have hXor := foldl_xor (polyMod (expandHrp hrp ++ values)) 0#32 checksum
    rw [BitVec.xor_zero, hLength] at hXor
    rw [← List.append_assoc, polyMod_append, hXor, ← polyMod_append]
  have hMod :
      (polyMod (expandHrp hrp ++ values ++ List.replicate 6 0) ^^^ 1#32).toNat < 2 ^ 30 := by
    rw [BitVec.toNat_xor]
    exact Nat.xor_lt_two_pow (polyMod_zeros_lt _) (by decide)
  have hCreated := value_checksumOf hMod
  have hGiven := foldl_zero hLength.le hSymbols
  rw [verifyChecksum, decide_eq_true_iff, hSplit]
  constructor
  · intro hOne
    have hSame : checksum.foldl polyModStep 0#32 =
        polyMod (expandHrp hrp ++ values ++ List.replicate 6 0) ^^^ 1#32 := by
      rw [← hOne, ← BitVec.xor_assoc, BitVec.xor_self, BitVec.zero_xor]
    have hValues : value 32 (checksum.map UInt8.toNat) =
        value 32 ((createChecksum hrp values).map UInt8.toNat) := by
      rw [← hGiven, hSame, createChecksum, hCreated]
    have hCount : checksum.length = (createChecksum hrp values).length := by
      rw [hLength, createChecksum, length_checksumOf]
    exact eq_of_value_map_eq (fun _ _ => UInt8.toNat_inj.mp) (by decide) hCount
      (toNat_lt_of_lt hSymbols) (toNat_lt_of_lt (checksumOf_lt _)) hValues
  · rintro rfl
    have hSame : (createChecksum hrp values).foldl polyModStep 0#32 =
        polyMod (expandHrp hrp ++ values ++ List.replicate 6 0) ^^^ 1#32 := by
      apply BitVec.eq_of_toNat_eq
      rw [hGiven, createChecksum, hCreated]
    rw [hSame, ← BitVec.xor_assoc, BitVec.xor_self, BitVec.zero_xor]

end Checksum

section Characters

theorem symbolOf_spec : ∀ c v : UInt8, symbolOf c = some v → v < 32 ∧ charOf v = lowerCase c := by
  have hAll : ∀ c : UInt8, (symbolOf c).all fun v => v < 32 && charOf v == lowerCase c := by
    decide +kernel
  intro c v hSymbol
  simpa [hSymbol] using hAll c

/-- The character of a symbol is read as the symbol. It is not the separator, and it is
printable and not in upper case. -/
theorem charOf_spec : ∀ v : UInt8, v < 32 → symbolOf (charOf v) = some v ∧
    charOf v ≠ '1'.toUInt8 ∧ isRefused (charOf v) = false ∧ isUpper (charOf v) = false := by
  decide +kernel

theorem lowerCase_of_not_upper (c : UInt8) (h : isUpper c = false) : lowerCase c = c := by
  refine if_neg fun hLetter => ?_
  simp [isUpper, hLetter.1, hLetter.2] at h

variable {str symbols : List UInt8}

theorem readSymbols_spec (h : readSymbols str = some symbols) :
    (∀ v ∈ symbols, v < 32) ∧ symbols.map charOf = str.map lowerCase := by
  induction str generalizing symbols with
  | nil =>
      cases h
      exact ⟨by simp, rfl⟩
  | cons c rest ih =>
      simp only [readSymbols, Option.bind_eq_some_iff, Option.map_eq_some_iff] at h
      obtain ⟨v, hSymbol, values, hRest, rfl⟩ := h
      obtain ⟨hLt, hChar⟩ := symbolOf_spec c v hSymbol
      obtain ⟨hValues, hChars⟩ := ih hRest
      exact ⟨List.forall_mem_cons.mpr ⟨hLt, hValues⟩, by simp [hChar, hChars]⟩

theorem readSymbols_map_charOf (h : ∀ v ∈ symbols, v < 32) :
    readSymbols (symbols.map charOf) = some symbols := by
  induction symbols with
  | nil => rfl
  | cons v symbols ih =>
      rw [List.forall_mem_cons] at h
      simp [readSymbols, (charOf_spec v h.1).1, ih h.2]

theorem rfind_eq_none {c : UInt8} (h : c ∉ str) : rfind c str = none := by
  induction str with
  | nil => rfl
  | cons head rest ih =>
      simp only [List.mem_cons, not_or] at h
      simp [rfind, ih h.2, Ne.symm h.1]

/-- The last occurrence is behind everything before it. -/
theorem rfind_append (c : UInt8) (front : List UInt8) (h : c ∉ str) :
    rfind c (front ++ c :: str) = some front.length := by
  induction front with
  | nil => simp [rfind, rfind_eq_none h]
  | cons head front ih => simp [rfind, ih]

/-- The character that was found stands between what is before its position and what is
behind it. -/
theorem split_of_rfind {c : UInt8} {pos : Nat} (h : rfind c str = some pos) :
    str = str.take pos ++ c :: str.drop (pos + 1) := by
  induction str generalizing pos with
  | nil => cases h
  | cons head rest ih =>
      rw [rfind] at h
      split at h
      case h_1 found hFound =>
          cases h
          simpa using ih hFound
      case h_2 =>
          split at h
          case isTrue hHead =>
              cases h
              simp [hHead]
          · cases h

end Characters

section Decoding

variable {str hrp values : List UInt8}

/-- What is decoded is, up to letter case, what the encoder makes of it. -/
theorem encode_of_decode (h : decode str = (hrp, values)) (hHrp : hrp ≠ []) :
    (∀ v ∈ values, v < 32) ∧ str.map lowerCase = encode hrp values := by
  -- Every failure is a pair of empty parts.
  have hFails : ([], []) ≠ (hrp, values) := fun hEmpty => hHrp (congrArg Prod.fst hEmpty).symm
  rw [decode] at h
  split at h
  · exact absurd h hFails
  split at h
  · exact absurd h hFails
  split at h
  · exact absurd h hFails
  case h_2 pos hPos =>
      split at h
      · exact absurd h hFails
      case isFalse hSizes =>
          simp only [not_or, Nat.not_lt] at hSizes
          split at h
          · exact absurd h hFails
          case h_2 symbols hRead =>
              obtain ⟨hLt, hChars⟩ := readSymbols_spec hRead
              have hLength : symbols.length = str.length - (pos + 1) := by
                have hMaps := congrArg List.length hChars
                simpa using hMaps
              dsimp only at h
              split at h
              case isFalse => exact absurd h hFails
              case isTrue hVerified =>
                  cases h
                  -- The last six symbols are the checksum.
                  have hParts := List.take_append_drop (symbols.length - 6) symbols
                  have hSix : (symbols.drop (symbols.length - 6)).length = 6 := by
                    rw [List.length_drop]
                    omega
                  rw [← hParts] at hVerified
                  have hCreated := (verifyChecksum_iff _ _ hSix
                    fun v hMem => hLt v (List.mem_of_mem_drop hMem)).mp hVerified
                  refine ⟨fun v hMem => hLt v (List.mem_of_mem_take hMem), ?_⟩
                  rw [encode, ← hCreated, hParts, hChars]
                  conv_lhs => rw [split_of_rfind hPos]
                  rw [List.map_append, List.map_cons]
                  rfl

structure PlainHrp (hrp : List UInt8) : Prop where
  nonempty : hrp ≠ []
  printable : ∀ c ∈ hrp, isRefused c = false
  lower : ∀ c ∈ hrp, isUpper c = false

/-- Every character that is encoded is printable and not in upper case. -/
theorem encode_plain (hHrp : PlainHrp hrp) (hValues : ∀ v ∈ values, v < 32) :
    ∀ c ∈ encode hrp values, isRefused c = false ∧ isUpper c = false := by
  intro c hMem
  rcases List.mem_append.mp hMem with hFirst | hRest
  · exact ⟨hHrp.printable c hFirst, hHrp.lower c hFirst⟩
  · rcases List.mem_cons.mp hRest with rfl | hSymbol
    · decide
    · obtain ⟨v, hv, rfl⟩ := List.mem_map.mp hSymbol
      have hLt : v < 32 := (List.mem_append.mp hv).elim (hValues v) (checksumOf_lt _ v)
      exact (charOf_spec v hLt).2.2

/-- What is encoded is decoded again, unless it is too long. -/
theorem decode_of_encode (hHrp : PlainHrp hrp) (hValues : ∀ v ∈ values, v < 32)
    (hLength : hrp.length + values.length + 7 ≤ 90) :
    decode (encode hrp values) = (hrp, values) := by
  have hPlain := encode_plain hHrp hValues
  have hSymbols : ∀ v ∈ values ++ createChecksum hrp values, v < 32 := by
    intro v hMem
    exact (List.mem_append.mp hMem).elim (hValues v) (checksumOf_lt _ v)
  have hRefused : (encode hrp values).any isRefused = false := by
    simpa using fun c hMem => (hPlain c hMem).1
  have hUpper : (encode hrp values).any isUpper = false := by
    simpa using fun c hMem => (hPlain c hMem).2
  have hSeparator : '1'.toUInt8 ∉ (values ++ createChecksum hrp values).map charOf := by
    intro hMem
    obtain ⟨v, hv, hChar⟩ := List.mem_map.mp hMem
    exact (charOf_spec v (hSymbols v hv)).2.1 hChar
  have hChecksum : (createChecksum hrp values).length = 6 := length_checksumOf _
  have hSize : (encode hrp values).length = hrp.length + values.length + 7 := by
    simp only [encode, List.length_append, List.length_cons, List.length_map, hChecksum]
    omega
  have hTake : (encode hrp values).take hrp.length = hrp := by simp [encode]
  have hDrop : (encode hrp values).drop (hrp.length + 1) =
      (values ++ createChecksum hrp values).map charOf := by
    rw [encode, List.drop_append]
    simp
  have hLower : hrp.map lowerCase = hrp :=
    (List.map_congr_left fun c hMem => lowerCase_of_not_upper c (hHrp.lower c hMem)).trans
      (List.map_id hrp)
  have hNonempty : hrp.length ≠ 0 := fun hZero => hHrp.nonempty (List.length_eq_zero_iff.mp hZero)
  have hVerified : verifyChecksum hrp (values ++ createChecksum hrp values) = true :=
    (verifyChecksum_iff hrp values hChecksum (checksumOf_lt _)).mpr rfl
  have hFound : rfind '1'.toUInt8 (encode hrp values) = some hrp.length :=
    rfind_append _ hrp hSeparator
  have hAccepted : ¬(90 < hrp.length + values.length + 7 ∨ hrp.length = 0 ∨
      hrp.length + values.length + 7 < hrp.length + 7) := by omega
  simp only [decode, hRefused, hUpper, hFound, hSize, hTake, hDrop, hLower, hVerified, hAccepted,
    readSymbols_map_charOf hSymbols, Bool.and_false, Bool.false_eq_true, if_false, if_true]
  simp [hChecksum]

end Decoding
end OpenCbdc.Bech32

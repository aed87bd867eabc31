import OpenCbdc.Address.Bech32
import OpenCbdc.Address.ConvertBits
import OpenCbdc.Transaction.CompactTx

/-! The addresses that clients print and pay to: a public key behind the type of the
address, in Bech32. -/
namespace OpenCbdc

open Ascii Positional

def bech32Hrp : List UInt8 := bytesOf "usd"

inductive AddressType where
  | publicKey
deriving DecidableEq

def AddressType.toByte : AddressType → UInt8
  | publicKey => 0

/-- The symbols of five bits that `newaddress_command` encodes. -/
def addressSymbols (addr : PubKey) : List UInt8 :=
  let addrVec := AddressType.publicKey.toByte :: addr.toList
  (convertBits 8 5 true (addrVec.map UInt8.toNat)).1.map UInt8.ofNat

/-- What `newaddress_command` prints for a new key. -/
def newAddress (addr : PubKey) : List UInt8 := Bech32.encode bech32Hrp (addressSymbols addr)

/-- What comes of a call of `decode_address`: an element is read that the decoded data
does not have, a message is printed and nothing returned, or a key is returned. -/
inductive DecodedAddress where
  | overread
  | refused (message : String)
  | key (pubkey : PubKey)
deriving DecidableEq

/-- The bytes that `decode_address` makes of the symbols. It does not look at the
result of `ConvertBits`. -/
def decodedData (encData : List UInt8) : List UInt8 :=
  (convertBits 5 8 false (encData.map UInt8.toNat)).1.map UInt8.ofNat

/-- The part of `decode_address` after the decoding. The first element is read before
the size is compared. -/
def keyOfData : List UInt8 → DecodedAddress
  | [] => .overread
  | type :: data =>
      if h : type = AddressType.publicKey.toByte ∧ data.length = 32 then .key ⟨data.toArray, h.2⟩
      else .refused "Address is not a supported type"

def decodeAddress (addrStr : List UInt8) : DecodedAddress :=
  let (hrp, encData) := Bech32.decode addrStr
  if hrp ≠ bech32Hrp then .refused "Invalid address encoding" else keyOfData (decodedData encData)

section Regrouping

variable {symbols : List UInt8}

theorem toNat_lt_byte (bytes : List UInt8) : ∀ group ∈ bytes.map UInt8.toNat, group < 2 ^ 8 := by
  intro group hMem
  obtain ⟨byte, _, rfl⟩ := List.mem_map.mp hMem
  exact byte.toNat_lt

theorem map_toNat_ofNat {groups : List Nat} {width : Nat} (hWidth : width ≤ 8)
    (h : ∀ group ∈ groups, group < 2 ^ width) :
    (groups.map UInt8.ofNat).map UInt8.toNat = groups := by
  rw [List.map_map]
  refine (List.map_congr_left fun group hMem => ?_).trans (List.map_id groups)
  have hByte : group < 2 ^ 8 := (h group hMem).trans_le (Nat.pow_le_pow_right (by decide) hWidth)
  exact UInt8.toNat_ofNat_of_lt' hByte

/-- The number that symbols or bytes stand for. -/
def symbolValue (symbols : List UInt8) : Nat := value (2 ^ 5) (symbols.map UInt8.toNat)

def byteValue (bytes : List UInt8) : Nat := value (2 ^ 8) (bytes.map UInt8.toNat)

theorem byteValue_lt (bytes : List UInt8) : byteValue bytes < (2 ^ 8) ^ bytes.length := by
  simpa [byteValue] using value_lt (by decide) (toNat_lt_byte bytes)

theorem eq_of_byteValue_eq {bytes others : List UInt8} (hLength : bytes.length = others.length)
    (h : byteValue bytes = byteValue others) : bytes = others :=
  eq_of_value_map_eq (fun _ _ => UInt8.toNat_inj.mp) (by decide) hLength (toNat_lt_byte bytes)
    (toNat_lt_byte others) h

theorem eq_of_symbolValue_eq {others : List UInt8} (hLength : symbols.length = others.length)
    (hSymbols : ∀ v ∈ symbols, v < 32) (hOthers : ∀ v ∈ others, v < 32)
    (h : symbolValue symbols = symbolValue others) : symbols = others :=
  eq_of_value_map_eq (fun _ _ => UInt8.toNat_inj.mp) (by decide) hLength
    (Bech32.toNat_lt_of_lt hSymbols) (Bech32.toNat_lt_of_lt hOthers) h

/-- The symbols of an address: the type and the key, and a zero bit behind them. -/
theorem addressSymbols_spec (addr : PubKey) :
    (addressSymbols addr).length = 53 ∧ (∀ v ∈ addressSymbols addr, v < 32) ∧
      symbolValue (addressSymbols addr) =
        byteValue (AddressType.publicKey.toByte :: addr.toList) * 2 := by
  obtain ⟨fill, hFill, hLength, hLt, hValue⟩ := convertBits_filled (show 0 < 5 by decide)
    (toNat_lt_byte (AddressType.publicKey.toByte :: addr.toList))
  have hMaps : (addressSymbols addr).map UInt8.toNat =
      (convertBits 8 5 true ((AddressType.publicKey.toByte :: addr.toList).map UInt8.toNat)).1 :=
    map_toNat_ofNat (by decide) hLt
  rw [← hMaps] at hLength hLt hValue
  simp only [List.length_map, List.length_cons, Vector.length_toList] at hLength
  obtain rfl : fill = 1 := by omega
  refine ⟨by omega, fun v hMem => ?_, hValue⟩
  exact UInt8.lt_iff_toNat_lt.mpr (hLt v.toNat (List.mem_map_of_mem hMem))

/-- The bytes that symbols are decoded to, and what is left over. -/
theorem decodedData_spec (h : ∀ v ∈ symbols, v < 32) :
    ∃ left tail, left < 8 ∧ tail < 2 ^ left ∧
      symbols.length * 5 = (decodedData symbols).length * 8 + left ∧
      symbolValue symbols = byteValue (decodedData symbols) * 2 ^ left + tail := by
  have hGroups : ∀ group ∈ symbols.map UInt8.toNat, group < 2 ^ 5 := Bech32.toNat_lt_of_lt h
  obtain ⟨left, tail, hLeft, hTail, hLength, hLt, hValue, _⟩ :=
    convertBits_cut (show 0 < 8 by decide) hGroups
  have hMaps : (decodedData symbols).map UInt8.toNat =
      (convertBits 5 8 false (symbols.map UInt8.toNat)).1 := map_toNat_ofNat (by decide) hLt
  rw [← hMaps] at hLength hValue
  exact ⟨left, tail, hLeft, hTail, by simpa using hLength, hValue⟩

theorem decodedData_addressSymbols (addr : PubKey) :
    decodedData (addressSymbols addr) = AddressType.publicKey.toByte :: addr.toList := by
  obtain ⟨hLength, hLt, hValue⟩ := addressSymbols_spec addr
  obtain ⟨left, tail, hLeft, hTail, hBits, hNumber⟩ := decodedData_spec hLt
  obtain rfl : left = 1 := by omega
  refine eq_of_byteValue_eq ?_ (by omega)
  rw [List.length_cons, Vector.length_toList]
  omega

end Regrouping

section Strictness

variable {addrStr symbols : List UInt8}

theorem plainHrp_bech32Hrp : Bech32.PlainHrp bech32Hrp where
  nonempty := by decide +kernel
  printable := by decide +kernel
  lower := by decide +kernel

theorem decode_encode_symbols (hSymbols : ∀ v ∈ symbols, v < 32) (hLength : symbols.length ≤ 54) :
    Bech32.decode (Bech32.encode bech32Hrp symbols) = (bech32Hrp, symbols) := by
  have hThree : bech32Hrp.length = 3 := by decide +kernel
  exact Bech32.decode_of_encode plainHrp_bech32Hrp hSymbols (by omega)

theorem keyOfData_eq_overread_iff {data : List UInt8} : keyOfData data = .overread ↔ data = [] := by
  cases data with
  | nil => simp [keyOfData]
  | cons type data =>
      rw [keyOfData]
      split <;> simp

/-- Only the type byte of a public key followed by exactly 32 bytes is read as a key. -/
theorem keyOfData_eq_key_iff {data : List UInt8} {addr : PubKey} :
    keyOfData data = .key addr ↔ data = AddressType.publicKey.toByte :: addr.toList := by
  cases data with
  | nil => simp [keyOfData]
  | cons type data =>
      rw [keyOfData]
      split
      case isTrue h =>
          have hList : ((⟨data.toArray, h.2⟩ : PubKey).toList) = data := by simp [Vector.toList]
          rw [DecodedAddress.key.injEq, List.cons.injEq, ← Vector.toList_inj, hList]
          exact (and_iff_right h.1).symm
      case isFalse h =>
          refine ⟨nofun, fun hSame => ?_⟩
          obtain ⟨hType, hData⟩ := List.cons.inj hSame
          exact absurd ⟨hType, by rw [hData, Vector.length_toList]⟩ h

theorem decodeAddress_eq (hDecode : Bech32.decode addrStr = (bech32Hrp, symbols)) :
    decodeAddress addrStr = keyOfData (decodedData symbols) := by
  simp [decodeAddress, hDecode]

/-- The address that is printed for a key is decoded to the key. -/
theorem decodeAddress_newAddress (addr : PubKey) : decodeAddress (newAddress addr) = .key addr := by
  obtain ⟨hLength, hLt, _⟩ := addressSymbols_spec addr
  have hDecode : Bech32.decode (newAddress addr) = (bech32Hrp, addressSymbols addr) :=
    decode_encode_symbols hLt (by omega)
  rw [decodeAddress_eq hDecode, keyOfData_eq_key_iff]
  exact decodedData_addressSymbols addr

theorem odd_of_ne : ∀ v : UInt8, v % 2 ≠ 0 → v % 2 = 1 := by
  decide +kernel

/-- Symbols that `decode_address` does not treat strictly: too few for a single byte,
or those of a key with a bit that is not zero or with five more bits behind it. -/
def Loose (symbols : List UInt8) : Prop :=
  symbols.length < 2 ∨
    symbols.getD 0 0 = 0 ∧ symbols.getD 1 0 < 4 ∧
      (symbols.length = 53 ∧ symbols.getD 52 0 % 2 = 1 ∨ symbols.length = 54)

theorem symbolValue_cons (v : UInt8) (rest : List UInt8) :
    symbolValue (v :: rest) = v.toNat * (2 ^ 5) ^ rest.length + symbolValue rest := by
  simp [symbolValue, value_cons]

theorem byteValue_cons (byte : UInt8) (rest : List UInt8) :
    byteValue (byte :: rest) = byte.toNat * (2 ^ 8) ^ rest.length + byteValue rest := by
  simp [byteValue, value_cons]

theorem symbolValue_lt (h : ∀ v ∈ symbols, v < 32) :
    symbolValue symbols < (2 ^ 5) ^ symbols.length := by
  simpa [symbolValue] using value_lt (by decide) (Bech32.toNat_lt_of_lt h)

/-- The type of the address is in the first eight bits. -/
theorem type_eq_zero_iff (h : ∀ v ∈ symbols, v < 32)
    (hLength : symbols.length = 53 ∨ symbols.length = 54) {type : UInt8} {data : List UInt8}
    (hData : decodedData symbols = type :: data) :
    type = 0 ↔ symbols.getD 0 0 = 0 ∧ symbols.getD 1 0 < 4 := by
  obtain ⟨left, tail, hLeft, hTail, hBits, hNumber⟩ := decodedData_spec h
  match symbols, h with
  | [], _ => simp at hLength
  | [_], _ => simp at hLength
  | first :: second :: rest, h =>
      obtain ⟨hFirst, hSecond, hRest⟩ :=
        (List.forall_mem_cons.mp h).imp_right List.forall_mem_cons.mp
      have hFirst : first.toNat < 32 := UInt8.lt_iff_toNat_lt.mp hFirst
      have hSecond : second.toNat < 32 := UInt8.lt_iff_toNat_lt.mp hSecond
      have hValue := symbolValue_lt hRest
      have hByte := byteValue_lt data
      rw [hData, byteValue_cons, symbolValue_cons, symbolValue_cons] at hNumber
      simp only [hData, List.length_cons] at hBits hLength hNumber
      simp only [List.getD_cons_zero, List.getD_cons_succ, ← UInt8.toNat_inj, UInt8.lt_iff_toNat_lt]
      have hSize : data.length = 32 := by omega
      rw [hSize] at hNumber hByte
      show type.toNat = 0 ↔ first.toNat = 0 ∧ second.toNat < 4
      -- The number is cut after the first two symbols, and after the type.
      rcases hLength with hOne | hSix
      · obtain rfl : left = 1 := by omega
        have hMore : rest.length = 51 := by omega
        rw [hMore] at hNumber hValue
        omega
      · obtain rfl : left = 6 := by omega
        have hMore : rest.length = 52 := by omega
        rw [hMore] at hNumber hValue
        omega

theorem symbolValue_mod_two (hLength : symbols.length = 53) :
    symbolValue symbols % 2 = (symbols.getD 52 0).toNat % 2 := by
  obtain ⟨front, last, rfl⟩ : ∃ front last, symbols = front ++ [last] := by
    rcases List.eq_nil_or_concat' symbols with rfl | hConcat
    · simp at hLength
    · exact hConcat
  have hFront : front.length = 52 := by simpa using hLength
  have hLast : (front ++ [last]).getD 52 0 = last := by
    simp [List.getD, ← hFront]
  rw [hLast, symbolValue, List.map_append, List.map_singleton, value_concat]
  omega

/-- Symbols of a key are those of its address if there is one bit behind them, and it
is zero. -/
theorem eq_addressSymbols_iff (h : ∀ v ∈ symbols, v < 32) {addr : PubKey}
    (hData : decodedData symbols = AddressType.publicKey.toByte :: addr.toList) :
    symbols = addressSymbols addr ↔ symbols.length = 53 ∧ symbols.getD 52 0 % 2 = 0 := by
  obtain ⟨hLength, hLt, hValue⟩ := addressSymbols_spec addr
  obtain ⟨left, tail, hLeft, hTail, hBits, hNumber⟩ := decodedData_spec h
  rw [hData] at hBits hNumber
  simp only [List.length_cons, Vector.length_toList] at hBits
  constructor
  · intro hSame
    have hFew : symbols.length = 53 := hSame ▸ hLength
    have hParity := symbolValue_mod_two hFew
    refine ⟨hFew, ?_⟩
    rw [hSame, hValue, ← hSame] at hParity
    apply UInt8.toNat_inj.mp
    rw [UInt8.toNat_mod]
    exact hParity.symm.trans (Nat.mul_mod_left _ 2)
  · rintro ⟨hFew, hEven⟩
    have hParity := symbolValue_mod_two hFew
    have hLast : (symbols.getD 52 0).toNat % 2 = 0 := by
      have hToNat := congrArg UInt8.toNat hEven
      rwa [UInt8.toNat_mod] at hToNat
    obtain rfl : left = 1 := by omega
    refine eq_of_symbolValue_eq (hFew.trans hLength.symm) h hLt ?_
    omega

theorem decodedData_eq_nil_iff (h : ∀ v ∈ symbols, v < 32) :
    decodedData symbols = [] ↔ symbols.length < 2 := by
  obtain ⟨left, tail, hLeft, hTail, hBits, hNumber⟩ := decodedData_spec h
  rw [← List.length_eq_zero_iff]
  omega

theorem length_of_key (h : ∀ v ∈ symbols, v < 32) {addr : PubKey}
    (hData : decodedData symbols = AddressType.publicKey.toByte :: addr.toList) :
    symbols.length = 53 ∨ symbols.length = 54 := by
  obtain ⟨left, tail, hLeft, hTail, hBits, hNumber⟩ := decodedData_spec h
  simp only [hData, List.length_cons, Vector.length_toList] at hBits
  omega

theorem exists_key (h : ∀ v ∈ symbols, v < 32)
    (hLength : symbols.length = 53 ∨ symbols.length = 54)
    (hType : symbols.getD 0 0 = 0 ∧ symbols.getD 1 0 < 4) :
    ∃ addr : PubKey, decodedData symbols = AddressType.publicKey.toByte :: addr.toList := by
  obtain ⟨left, tail, hLeft, hTail, hBits, hNumber⟩ := decodedData_spec h
  have hSize : (decodedData symbols).length = 33 := by omega
  obtain ⟨type, data, hData⟩ := List.exists_cons_of_length_eq_add_one hSize
  have hKey : data.length = 32 := by simpa [hData] using hSize
  refine ⟨⟨data.toArray, hKey⟩, ?_⟩
  rw [hData, (type_eq_zero_iff h hLength hData).mpr hType]
  simp [Vector.toList, AddressType.toByte]

/-- An address is decoded strictly: nothing is read that is not there, and a key is
returned only for the address that is printed for it, in either case. -/
structure DecodedStrictly (addrStr : List UInt8) : Prop where
  inside : decodeAddress addrStr ≠ .overread
  unique : ∀ addr, decodeAddress addrStr = .key addr → addrStr.map lowerCase = newAddress addr

/-- Strictness in terms of the symbols of an address. -/
theorem decodedStrictly_iff_of_decode
    (hDecode : Bech32.decode addrStr = (bech32Hrp, symbols)) :
    DecodedStrictly addrStr ↔ ¬Loose symbols := by
  obtain ⟨hLt, hLower⟩ := Bech32.encode_of_decode hDecode plainHrp_bech32Hrp.nonempty
  have hInside : decodeAddress addrStr ≠ .overread ↔ 2 ≤ symbols.length := by
    rw [decodeAddress_eq hDecode, Ne, keyOfData_eq_overread_iff, decodedData_eq_nil_iff hLt,
      Nat.not_lt]
  have hKey : ∀ addr, decodeAddress addrStr = .key addr ↔
      decodedData symbols = AddressType.publicKey.toByte :: addr.toList := by
    intro addr
    rw [decodeAddress_eq hDecode, keyOfData_eq_key_iff]
  constructor
  · rintro ⟨hRead, hUnique⟩ (hFew | ⟨hZero, hFour, hLength⟩)
    · exact Nat.not_lt.mpr (hInside.mp hRead) hFew
    · have hSizes : symbols.length = 53 ∨ symbols.length = 54 := hLength.imp_left And.left
      obtain ⟨addr, hData⟩ := exists_key hLt hSizes ⟨hZero, hFour⟩
      -- The printed address has the same symbols, since both are decoded from one string.
      have hSame : symbols = addressSymbols addr := by
        obtain ⟨hPrinted, hPrintedLt, _⟩ := addressSymbols_spec addr
        have hString : Bech32.encode bech32Hrp symbols = newAddress addr :=
          hLower.symm.trans (hUnique addr ((hKey addr).mpr hData))
        have hFirst := decode_encode_symbols hLt (by omega)
        have hSecond := decode_encode_symbols hPrintedLt (by omega)
        rw [hString] at hFirst
        exact (Prod.mk.inj (hFirst.symm.trans hSecond)).2
      obtain ⟨hOne, hEven⟩ := (eq_addressSymbols_iff hLt hData).mp hSame
      rcases hLength with ⟨_, hOdd⟩ | hSix
      · rw [hEven] at hOdd
        cases hOdd
      · omega
  · intro hStrict
    refine ⟨hInside.mpr (Nat.not_lt.mp fun hFew => hStrict (Or.inl hFew)), fun addr hAddr => ?_⟩
    have hData := (hKey addr).mp hAddr
    have hType := (type_eq_zero_iff hLt (length_of_key hLt hData) hData).mp rfl
    have hSame : symbols = addressSymbols addr := by
      rw [eq_addressSymbols_iff hLt hData]
      rcases length_of_key hLt hData with hOne | hSix
      · refine ⟨hOne, ?_⟩
        by_contra hOdd
        exact hStrict (Or.inr ⟨hType.1, hType.2, Or.inl ⟨hOne, odd_of_ne _ hOdd⟩⟩)
      · exact absurd (Or.inr ⟨hType.1, hType.2, Or.inr hSix⟩) hStrict
    rw [hLower, hSame]
    rfl

/-- Every address that is printed is decoded to its key, but strings are decoded
strictly only if their symbols are more than one and are not those of a key with
other bits behind it. -/
theorem decode_address_strict_iff (addrStr : List UInt8) :
    (DecodedStrictly addrStr ↔
      ((Bech32.decode addrStr).1 = bech32Hrp → ¬Loose (Bech32.decode addrStr).2)) ∧
    ∀ addr : PubKey, decodeAddress (newAddress addr) = .key addr := by
  refine ⟨?_, decodeAddress_newAddress⟩
  by_cases hHrp : (Bech32.decode addrStr).1 = bech32Hrp
  · have hDecode : Bech32.decode addrStr = (bech32Hrp, (Bech32.decode addrStr).2) :=
      Prod.ext hHrp rfl
    rw [decodedStrictly_iff_of_decode hDecode]
    exact ⟨fun hStrict _ => hStrict, fun hStrict => hStrict hHrp⟩
  · have hRefused : decodeAddress addrStr = .refused "Invalid address encoding" := if_pos hHrp
    refine ⟨fun _ hSame => absurd hSame hHrp, fun _ => ⟨?_, ?_⟩⟩
    · rw [hRefused]
      exact nofun
    · intro addr hKey
      rw [hRefused] at hKey
      cases hKey

/-- The first string has no symbols at all, and the bit behind the key of the second
one is not zero. -/
theorem loose_addresses_decoded :
    decodeAddress (bytesOf "usd12jxqnw") = .overread ∧
    decodeAddress (bytesOf "usd1qqqqqqqqqqqqqqqqqqqqqqqqqqqqqqqqqqqqqqqqqqqqqqqqqqqqp5qedg3") =
      .key (.replicate 32 0) ∧
    newAddress (.replicate 32 0) =
      bytesOf "usd1qqqqqqqqqqqqqqqqqqqqqqqqqqqqqqqqqqqqqqqqqqqqqqqqqqqqqfkdc4r" ∧
    ¬DecodedStrictly (bytesOf "usd12jxqnw") ∧
    ¬DecodedStrictly
      (bytesOf "usd1qqqqqqqqqqqqqqqqqqqqqqqqqqqqqqqqqqqqqqqqqqqqqqqqqqqqp5qedg3") := by
  have hEmpty : decodeAddress (bytesOf "usd12jxqnw") = .overread := by decide +kernel
  have hOdd : decodeAddress
      (bytesOf "usd1qqqqqqqqqqqqqqqqqqqqqqqqqqqqqqqqqqqqqqqqqqqqqqqqqqqqp5qedg3") =
      .key (.replicate 32 0) := by decide +kernel
  refine ⟨hEmpty, hOdd, by decide +kernel, fun hStrict => hStrict.inside hEmpty, fun hStrict => ?_⟩
  have hSame := hStrict.unique _ hOdd
  revert hSame
  decide +kernel

end Strictness
end OpenCbdc

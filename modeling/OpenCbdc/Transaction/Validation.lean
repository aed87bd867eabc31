import OpenCbdc.Common.Bounds
import OpenCbdc.Serialization.Messages

/-! The static validation of full transactions, which a sentinel runs before it
attests anything. The first error that is found is returned. -/
namespace OpenCbdc.Validation

open Wire

/-- `witness_program_type`, the first byte of a witness. -/
def WitnessProgramType.p2pk : UInt8 := 0x0

/-- `p2pk_witness_prog_len`: the type byte and a public key. -/
def p2pkWitnessProgLen : Nat := 1 + 32

/-- `p2pk_witness_len`: the program and a signature. -/
def p2pkWitnessLen : Nat := p2pkWitnessProgLen + 64

/-- What a check returns: the error it has found, if any. -/
abbrev Check (Error : Type) := Except OutOfBounds (Option Error)

namespace Check

variable {Error : Type}

/-- Run a check unless the one before has returned an error. -/
def andThen (first next : Check Error) : Check Error :=
  match first with
  | .error fault => .error fault
  | .ok (some err) => .ok (some err)
  | .ok none => next

/-- A loop that checks each element and returns the first error with its
index. -/
def each {α Found : Type} (check : α → Check Found) (report : Found → Nat → Error) :
    Nat → List α → Check Error
  | _, [] => .ok none
  | idx, row :: rest =>
      match check row with
      | .error fault => .error fault
      | .ok (some err) => .ok (some (report err idx))
      | .ok none => each check report (idx + 1) rest

end Check

def checkOutputValue (out : Output) : Option OutputErrorCode :=
  if out.value < 1 then some .zeroValue else none

def checkInputStructure (inp : Input) : Option (InputErrorCode × Option OutputErrorCode) :=
  match checkOutputValue inp.prevoutData with
  | some dataErr => some (.dataError, some dataErr)
  | none => none

def checkInputCount (tx : FullTx) : Option ValidationError :=
  if tx.inputs = [] then some (.tx (.named .noInputs)) else none

def checkOutputCount (tx : FullTx) : Option ValidationError :=
  if tx.outputs = [] then some (.tx (.named .noOutputs)) else none

def checkWitnessCount (tx : FullTx) : Option ValidationError :=
  if tx.inputs.length ≠ tx.witness.length then some (.tx (.named .missingWitness)) else none

/-- The loop of `check_input_set`, with the out-points it has met. -/
def checkPrevouts : Nat → Finset OutPoint → List Input → Option ValidationError
  | _, _, [] => none
  | idx, inps, inp :: rest =>
      if inp.prevout ∈ inps then some (.input ⟨.named .duplicate, none, idx⟩)
      else checkPrevouts (idx + 1) (insert inp.prevout inps) rest

def checkInputSet (tx : FullTx) : Option ValidationError := checkPrevouts 0 ∅ tx.inputs

def checkTxStructure (tx : FullTx) : Option ValidationError :=
  match checkInputCount tx with
  | some err => some err
  | none =>
      match checkOutputCount tx with
      | some err => some err
      | none =>
          match checkWitnessCount tx with
          | some err => some err
          | none => checkInputSet tx

/-- A loop of `check_in_out_set`. The additions are those of 64-bit integers;
nothing is returned where one of them does not raise the total. -/
def addValues : UInt64 → List UInt64 → Option UInt64
  | total, [] => some total
  | total, value :: rest =>
      if total + value ≤ total then none else addValues (total + value) rest

def checkInOutSet (tx : FullTx) : Option ValidationError :=
  match addValues 0 (tx.inputs.map fun inp => inp.prevoutData.value) with
  | none => some (.tx (.named .valueOverflow))
  | some inputTotal =>
      match addValues 0 (tx.outputs.map Output.value) with
      | none => some (.tx (.named .valueOverflow))
      | some outputTotal =>
          if inputTotal ≠ outputTotal then some (.tx (.named .asymmetricValues)) else none

def checkP2pkWitnessLen (tx : FullTx) (idx : Nat) :
    Except OutOfBounds (Option WitnessErrorCode) := do
  let wit ← readAt tx.witness idx
  return if wit.length ≠ p2pkWitnessLen then some .malformed else none

def checkP2pkWitnessCommitment (crypto : Crypto) (tx : FullTx) (idx : Nat) :
    Except OutOfBounds (Option WitnessErrorCode) := do
  let wit ← readAt tx.witness idx
  let program ← readBytes wit 0 p2pkWitnessProgLen
  let inp ← readAt tx.inputs idx
  return if crypto.sha256 program.toList ≠ inp.prevoutData.witnessProgramCommitment then
    some .programMismatch else none

def checkP2pkWitnessSignature (crypto : Crypto) (tx : FullTx) (idx : Nat) :
    Except OutOfBounds (Option WitnessErrorCode) := do
  let wit ← readAt tx.witness idx
  let pubkeyArr ← readBytes wit 1 32
  match crypto.xonlyPubkeyParse pubkeyArr with
  | none => return some .invalidPublicKey
  | some pubkey =>
      let sigArr ← readBytes wit p2pkWitnessProgLen 64
      return if crypto.schnorrsigVerify sigArr (txId crypto tx) pubkey then none
        else some .invalidSignature

def checkP2pkWitness (crypto : Crypto) (tx : FullTx) (idx : Nat) : Check WitnessErrorCode :=
  Check.andThen (checkP2pkWitnessLen tx idx) <|
  Check.andThen (checkP2pkWitnessCommitment crypto tx idx) <|
  checkP2pkWitnessSignature crypto tx idx

def checkWitness (crypto : Crypto) (tx : FullTx) (idx : Nat) :
    Except OutOfBounds (Option WitnessErrorCode) := do
  let witnessProgram ← readAt tx.witness idx
  match witnessProgram with
  | [] => return some .missingWitnessProgramType
  | witnessProgramType :: _ =>
      if witnessProgramType = WitnessProgramType.p2pk then checkP2pkWitness crypto tx idx
      else return some .unknownWitnessProgramType

def checkTx (crypto : Crypto) (tx : FullTx) : Check ValidationError :=
  Check.andThen (.ok (checkTxStructure tx)) <|
  Check.andThen (Check.each (fun inp => .ok (checkInputStructure inp))
    (fun err idx => .input ⟨.named err.1, err.2.map .named, idx⟩) 0 tx.inputs) <|
  Check.andThen (Check.each (fun out => .ok (checkOutputValue out))
    (fun err idx => .output ⟨.named err, idx⟩) 0 tx.outputs) <|
  Check.andThen (.ok (checkInOutSet tx)) <|
  Check.each (checkWitness crypto tx) (fun err idx => .witness ⟨.named err, idx⟩) 0
    (List.range tx.witness.length)

/-- The total of the input values, as an exact number. -/
def inputSum (tx : FullTx) : Nat :=
  (tx.inputs.map fun inp => inp.prevoutData.value.toNat).sum

def outputSum (tx : FullTx) : Nat := (tx.outputs.map fun out => out.value.toNat).sum

/-- The witness lets the transaction spend the input: it opens the commitment
to a public key, and that key has signed the transaction. -/
structure Authorizes (crypto : Crypto) (tx : FullTx) (inp : Input) (wit : List UInt8) : Prop where
  length : wit.length = p2pkWitnessLen
  type : wit[0]? = some WitnessProgramType.p2pk
  program : crypto.sha256 (wit.take p2pkWitnessProgLen) = inp.prevoutData.witnessProgramCommitment
  signature : ∃ (key : PubKey) (sig : Signature) (pubkey : crypto.XonlyPubkey),
    key.toList = (wit.drop 1).take 32 ∧ sig.toList = wit.drop p2pkWitnessProgLen ∧
      crypto.xonlyPubkeyParse key = some pubkey ∧
      crypto.schnorrsigVerify sig (txId crypto tx) pubkey = true

/-- What validation is for: a transaction creates no value and spends only
what its witnesses allow it to spend. -/
structure Valid (crypto : Crypto) (tx : FullTx) : Prop where
  inputs_ne_nil : tx.inputs ≠ []
  outputs_ne_nil : tx.outputs ≠ []
  witness_count : tx.witness.length = tx.inputs.length
  prevouts_nodup : (tx.inputs.map Input.prevout).Nodup
  inputs_positive : ∀ inp ∈ tx.inputs, 1 ≤ inp.prevoutData.value.toNat
  outputs_positive : ∀ out ∈ tx.outputs, 1 ≤ out.value.toNat
  inputSum_lt : inputSum tx < 2 ^ 64
  balanced : inputSum tx = outputSum tx
  witnesses : ∀ (idx : Nat) (inp : Input) (wit : List UInt8), tx.inputs[idx]? = some inp →
    tx.witness[idx]? = some wit → Authorizes crypto tx inp wit

namespace Check

variable {Error : Type}

theorem andThen_eq_none {first next : Check Error} :
    first.andThen next = .ok none ↔ first = .ok none ∧ next = .ok none := by
  unfold andThen
  split <;> simp

/-- A later check need not be safe unless it is reached. -/
theorem andThen_isOk {first next : Check Error} (hFirst : ∃ result, first = .ok result)
    (hNext : first = .ok none → ∃ result, next = .ok result) :
    ∃ result, first.andThen next = .ok result := by
  obtain ⟨result, rfl⟩ := hFirst
  cases result with
  | none => exact hNext rfl
  | some err => exact ⟨some err, rfl⟩

variable {α Found : Type} {check : α → Check Found} {report : Found → Nat → Error}

theorem each_eq_none {idx : Nat} {rows : List α} :
    each check report idx rows = .ok none ↔ ∀ row ∈ rows, check row = .ok none := by
  induction rows generalizing idx with
  | nil => simp [each]
  | cons row rest ih =>
      rw [each, List.forall_mem_cons, ← @ih (idx + 1)]
      split
      case h_1 fault hRow => simp [hRow]
      case h_2 err hRow => simp [hRow]
      case h_3 hRow => simp [hRow]

theorem each_isOk {idx : Nat} {rows : List α} (h : ∀ row ∈ rows, ∃ result, check row = .ok result) :
    ∃ result, each check report idx rows = .ok result := by
  induction rows generalizing idx with
  | nil => exact ⟨none, rfl⟩
  | cons row rest ih =>
      obtain ⟨hRow, hRest⟩ := List.forall_mem_cons.mp h
      obtain ⟨result, hResult⟩ := hRow
      rw [each, hResult]
      cases result with
      | none => exact ih hRest
      | some err => exact ⟨_, rfl⟩

end Check

section Structure

variable {tx : FullTx}

/-- The loop finds no duplicate exactly if the out points are distinct, and distinct from
those seen before. -/
theorem checkPrevouts_eq_none {idx : Nat} {inps : Finset OutPoint} {inputs : List Input} :
    checkPrevouts idx inps inputs = none ↔
      (inputs.map Input.prevout).Nodup ∧ ∀ inp ∈ inputs, inp.prevout ∉ inps := by
  induction inputs generalizing idx inps with
  | nil => simp [checkPrevouts]
  | cons inp rest ih =>
      rw [checkPrevouts, List.map_cons, List.nodup_cons, List.forall_mem_cons]
      split
      case isTrue hMet => simp [hMet]
      case isFalse hNew =>
          rw [ih]
          constructor
          · rintro ⟨hNodup, hRest⟩
            refine ⟨⟨?_, hNodup⟩, hNew, ?_⟩
            · intro hMem
              obtain ⟨other, hOther, hSame⟩ := List.mem_map.mp hMem
              exact hRest other hOther (hSame ▸ Finset.mem_insert_self _ _)
            · exact fun other hOther hMem => hRest other hOther (Finset.mem_insert_of_mem hMem)
          · rintro ⟨⟨hFirst, hNodup⟩, _, hRest⟩
            refine ⟨hNodup, fun other hOther hMem => ?_⟩
            rcases Finset.mem_insert.mp hMem with hSame | hOld
            · exact hFirst (hSame ▸ List.mem_map_of_mem hOther)
            · exact hRest other hOther hOld

theorem checkTxStructure_eq_none :
    checkTxStructure tx = none ↔ tx.inputs ≠ [] ∧ tx.outputs ≠ [] ∧
      tx.inputs.length = tx.witness.length ∧ (tx.inputs.map Input.prevout).Nodup := by
  have hSet : checkInputSet tx = none ↔ (tx.inputs.map Input.prevout).Nodup := by
    rw [checkInputSet, checkPrevouts_eq_none]
    simp
  rw [← hSet, checkTxStructure, checkInputCount, checkOutputCount, checkWitnessCount]
  by_cases hInputs : tx.inputs = []
  · simp [hInputs]
  · by_cases hOutputs : tx.outputs = []
    · simp [hInputs, hOutputs]
    · by_cases hCount : tx.inputs.length = tx.witness.length
      · simp [hInputs, hOutputs, hCount]
      · simp [hInputs, hOutputs, hCount]

end Structure

section Values

variable {tx : FullTx}

theorem checkOutputValue_eq_none {out : Output} :
    checkOutputValue out = none ↔ 1 ≤ out.value.toNat := by
  have hLt : out.value < 1 ↔ out.value.toNat < 1 := UInt64.lt_iff_toNat_lt
  rw [checkOutputValue, ite_eq_right_iff, hLt]
  simp [Nat.one_le_iff_ne_zero]

theorem checkInputStructure_eq_none {inp : Input} :
    checkInputStructure inp = none ↔ 1 ≤ inp.prevoutData.value.toNat := by
  rw [← checkOutputValue_eq_none, checkInputStructure]
  cases checkOutputValue inp.prevoutData <;> simp

/-- The test of one addition. A sum that wraps around is smaller than the total
before, and only the value 0 leaves the total where it is. -/
theorem add_le_self_iff (total value : UInt64) :
    total + value ≤ total ↔ value.toNat = 0 ∨ 2 ^ 64 ≤ total.toNat + value.toNat := by
  have hTotal := total.toNat_lt
  have hValue := value.toNat_lt
  rw [UInt64.le_iff_toNat_le, UInt64.toNat_add]
  omega

/-- The loop gives the exact sum, or nothing. -/
theorem addValues_eq_some {total sum : UInt64} {values : List UInt64} :
    addValues total values = some sum ↔
      (∀ value ∈ values, value.toNat ≠ 0) ∧
        total.toNat + (values.map UInt64.toNat).sum = sum.toNat := by
  induction values generalizing total with
  | nil => simp [addValues, UInt64.toNat_inj]
  | cons value rest ih =>
      rw [addValues, List.forall_mem_cons, List.map_cons, List.sum_cons]
      have hSum := sum.toNat_lt
      split
      case isTrue hStop =>
          rw [add_le_self_iff] at hStop
          constructor
          · intro hNone
            cases hNone
          · rintro ⟨⟨hValue, _⟩, hEq⟩
            omega
      case isFalse hGo =>
          rw [add_le_self_iff, not_or, not_le] at hGo
          rw [ih, UInt64.toNat_add, Nat.mod_eq_of_lt hGo.2, Nat.add_assoc]
          constructor
          · rintro ⟨hRest, hEq⟩
            exact ⟨⟨hGo.1, hRest⟩, hEq⟩
          · rintro ⟨⟨_, hRest⟩, hEq⟩
            exact ⟨hRest, hEq⟩

/-- Where no value is 0, the loop gives the exact sum whenever it fits. -/
theorem addValues_map_eq_some {α : Type} {rows : List α} {value : α → UInt64}
    (h : ∀ row ∈ rows, 1 ≤ (value row).toNat) (total : UInt64) :
    addValues 0 (rows.map value) = some total ↔
      (rows.map fun row => (value row).toNat).sum = total.toNat := by
  rw [addValues_eq_some, List.map_map, UInt64.toNat_zero, Nat.zero_add]
  refine and_iff_right ?_
  intro found hFound
  obtain ⟨row, hRow, rfl⟩ := List.mem_map.mp hFound
  exact Nat.one_le_iff_ne_zero.mp (h row hRow)

/-- The totals fit in 64 bits and agree, given that no value is 0. -/
theorem checkInOutSet_eq_none (hInputs : ∀ inp ∈ tx.inputs, 1 ≤ inp.prevoutData.value.toNat)
    (hOutputs : ∀ out ∈ tx.outputs, 1 ≤ out.value.toNat) :
    checkInOutSet tx = none ↔ inputSum tx < 2 ^ 64 ∧ inputSum tx = outputSum tx := by
  have hIn : ∀ total, addValues 0 (tx.inputs.map fun inp => inp.prevoutData.value) = some total ↔
      inputSum tx = total.toNat := addValues_map_eq_some hInputs
  have hOut : ∀ total, addValues 0 (tx.outputs.map Output.value) = some total ↔
      outputSum tx = total.toNat := addValues_map_eq_some hOutputs
  constructor
  · intro h
    rw [checkInOutSet] at h
    split at h
    · cases h
    case h_2 inputTotal hInputTotal =>
        split at h
        · cases h
        case h_2 outputTotal hOutputTotal =>
            have hSame : inputTotal = outputTotal := by simpa using h
            rw [(hIn inputTotal).mp hInputTotal, (hOut outputTotal).mp hOutputTotal, hSame]
            exact ⟨outputTotal.toNat_lt, rfl⟩
  · rintro ⟨hBound, hSame⟩
    have hTotal : inputSum tx = (UInt64.ofNat (inputSum tx)).toNat :=
      (UInt64.toNat_ofNat_of_lt' hBound).symm
    rw [checkInOutSet, (hIn _).mpr hTotal, (hOut _).mpr (hSame.symm.trans hTotal)]
    simp

end Values

section Witness

variable {crypto : Crypto} {tx : FullTx} {idx : Nat} {inp : Input} {wit : List UInt8}

theorem checkP2pkWitnessLen_eq (hWit : tx.witness[idx]? = some wit) :
    checkP2pkWitnessLen tx idx =
      .ok (if wit.length ≠ p2pkWitnessLen then some .malformed else none) := by
  rw [checkP2pkWitnessLen, readAt_eq_ok.mpr hWit]
  rfl

/-- With the length checked, the program is there to be hashed. -/
theorem checkP2pkWitnessCommitment_eq (hWit : tx.witness[idx]? = some wit)
    (hInp : tx.inputs[idx]? = some inp) (hLength : wit.length = p2pkWitnessLen) :
    checkP2pkWitnessCommitment crypto tx idx =
      .ok (if crypto.sha256 (wit.take p2pkWitnessProgLen) ≠
        inp.prevoutData.witnessProgramCommitment then some .programMismatch else none) := by
  have hBound : 0 + p2pkWitnessProgLen ≤ wit.length := by
    rw [hLength, p2pkWitnessLen]
    omega
  obtain ⟨program, hRead, hProgram⟩ := exists_readBytes hBound
  rw [checkP2pkWitnessCommitment, readAt_eq_ok.mpr hWit, readAt_eq_ok.mpr hInp]
  rw [List.drop_zero] at hProgram
  simp only [bind, Except.bind, hRead, hProgram]
  rfl

/-- With the length checked, the key and the signature are there to be read. -/
theorem exists_checkP2pkWitnessSignature_eq (crypto : Crypto) (hWit : tx.witness[idx]? = some wit)
    (hLength : wit.length = p2pkWitnessLen) :
    ∃ (key : PubKey) (sig : Signature), key.toList = (wit.drop 1).take 32 ∧
      sig.toList = wit.drop p2pkWitnessProgLen ∧
      checkP2pkWitnessSignature crypto tx idx =
        .ok (match crypto.xonlyPubkeyParse key with
          | none => some .invalidPublicKey
          | some pubkey =>
              if crypto.schnorrsigVerify sig (txId crypto tx) pubkey then none
              else some .invalidSignature) := by
  have hKeyBound : 1 + 32 ≤ wit.length := by
    rw [hLength, p2pkWitnessLen, p2pkWitnessProgLen]
    omega
  have hSigBound : p2pkWitnessProgLen + 64 ≤ wit.length := hLength.ge
  obtain ⟨key, hReadKey, hKey⟩ := exists_readBytes hKeyBound
  obtain ⟨sig, hReadSig, hSig⟩ := exists_readBytes hSigBound
  have hRest : (wit.drop p2pkWitnessProgLen).length ≤ 64 := by
    rw [List.length_drop, hLength, p2pkWitnessLen]
    omega
  rw [List.take_of_length_le hRest] at hSig
  refine ⟨key, sig, hKey, hSig, ?_⟩
  rw [checkP2pkWitnessSignature, readAt_eq_ok.mpr hWit]
  simp only [bind, Except.bind, hReadKey, hReadSig]
  cases crypto.xonlyPubkeyParse key <;> rfl

/-- Behind the check of the length every read stays inside the witness. -/
theorem checkP2pkWitness_isOk (crypto : Crypto) (hWit : tx.witness[idx]? = some wit)
    (hInp : tx.inputs[idx]? = some inp) :
    ∃ result, checkP2pkWitness crypto tx idx = .ok result := by
  refine Check.andThen_isOk ⟨_, checkP2pkWitnessLen_eq hWit⟩ fun hLen => ?_
  have hLength : wit.length = p2pkWitnessLen := by
    simpa [checkP2pkWitnessLen_eq hWit] using hLen
  refine Check.andThen_isOk ⟨_, checkP2pkWitnessCommitment_eq hWit hInp hLength⟩ fun _ => ?_
  obtain ⟨key, sig, _, _, hCheck⟩ := exists_checkP2pkWitnessSignature_eq crypto hWit hLength
  exact ⟨_, hCheck⟩

/-- The checks of a witness pass exactly if its key belongs to the input and has signed the
transaction. -/
theorem checkP2pkWitness_eq_none (hWit : tx.witness[idx]? = some wit)
    (hInp : tx.inputs[idx]? = some inp) (hType : wit[0]? = some WitnessProgramType.p2pk) :
    checkP2pkWitness crypto tx idx = .ok none ↔ Authorizes crypto tx inp wit := by
  rw [checkP2pkWitness, Check.andThen_eq_none, Check.andThen_eq_none, checkP2pkWitnessLen_eq hWit]
  constructor
  · rintro ⟨hLen, hCommitment, hSignature⟩
    have hLength : wit.length = p2pkWitnessLen := by simpa using hLen
    rw [checkP2pkWitnessCommitment_eq hWit hInp hLength] at hCommitment
    obtain ⟨key, sig, hKey, hSig, hCheck⟩ := exists_checkP2pkWitnessSignature_eq crypto hWit hLength
    rw [hCheck] at hSignature
    refine ⟨hLength, hType, by simpa using hCommitment, key, sig, ?_⟩
    cases hParse : crypto.xonlyPubkeyParse key with
    | none => simp [hParse] at hSignature
    | some pubkey => exact ⟨pubkey, hKey, hSig, rfl, by simpa [hParse] using hSignature⟩
  · rintro ⟨hLength, _, hProgram, key, sig, pubkey, hKey, hSig, hParse, hVerify⟩
    refine ⟨by simp [hLength], ?_, ?_⟩
    · rw [checkP2pkWitnessCommitment_eq hWit hInp hLength]
      simp [hProgram]
    · obtain ⟨readKey, readSig, hReadKey, hReadSig, hCheck⟩ :=
        exists_checkP2pkWitnessSignature_eq crypto hWit hLength
      obtain rfl : readKey = key := Vector.toList_inj.mp (hReadKey.trans hKey.symm)
      obtain rfl : readSig = sig := Vector.toList_inj.mp (hReadSig.trans hSig.symm)
      rw [hCheck, hParse]
      simp [hVerify]

theorem checkWitness_isOk (crypto : Crypto) (hWit : tx.witness[idx]? = some wit)
    (hInp : tx.inputs[idx]? = some inp) : ∃ result, checkWitness crypto tx idx = .ok result := by
  rw [checkWitness, readAt_eq_ok.mpr hWit]
  cases wit with
  | nil => exact ⟨some .missingWitnessProgramType, rfl⟩
  | cons type rest =>
      by_cases hType : type = WitnessProgramType.p2pk
      · obtain ⟨result, hResult⟩ := checkP2pkWitness_isOk crypto hWit hInp
        exact ⟨result, by simpa [bind, Except.bind, hType] using hResult⟩
      · exact ⟨some .unknownWitnessProgramType,
          by simp [bind, Except.bind, pure, Except.pure, hType]⟩

/-- A witness passes exactly if it authorizes its input. -/
theorem checkWitness_eq_none (hWit : tx.witness[idx]? = some wit)
    (hInp : tx.inputs[idx]? = some inp) :
    checkWitness crypto tx idx = .ok none ↔ Authorizes crypto tx inp wit := by
  rw [checkWitness, readAt_eq_ok.mpr hWit]
  cases wit with
  | nil =>
      refine iff_of_false (by simp [bind, Except.bind, pure, Except.pure]) ?_
      intro hAuthorizes
      cases hAuthorizes.type
  | cons type rest =>
      by_cases hType : type = WitnessProgramType.p2pk
      · subst hType
        exact checkP2pkWitness_eq_none hWit hInp rfl
      · refine iff_of_false (by simp [bind, Except.bind, pure, Except.pure, hType]) ?_
        intro hAuthorizes
        exact hType (Option.some.inj hAuthorizes.type)

end Witness

section Transaction

variable (crypto : Crypto) (tx : FullTx)

/-- The loop over the witnesses, once there are as many as inputs. -/
theorem witnesses_eq_none (hCount : tx.inputs.length = tx.witness.length) :
    (∀ idx ∈ List.range tx.witness.length, checkWitness crypto tx idx = .ok none) ↔
      ∀ (idx : Nat) (inp : Input) (wit : List UInt8), tx.inputs[idx]? = some inp →
        tx.witness[idx]? = some wit → Authorizes crypto tx inp wit := by
  constructor
  · intro h idx inp wit hInp hWit
    have hIdx := (List.getElem?_eq_some_iff.mp hWit).1
    exact (checkWitness_eq_none hWit hInp).mp (h idx (List.mem_range.mpr hIdx))
  · intro h idx hIdx
    have hLt := List.mem_range.mp hIdx
    have hWit := List.getElem?_eq_getElem hLt
    have hInp := List.getElem?_eq_getElem (hCount ▸ hLt)
    exact (checkWitness_eq_none hWit hInp).mpr (h idx _ _ hInp hWit)

/-- Validation always ends without a read outside the transaction. -/
theorem checkTx_isOk : ∃ result, checkTx crypto tx = .ok result := by
  refine Check.andThen_isOk ⟨_, rfl⟩ fun hStructure => ?_
  have hCount := (checkTxStructure_eq_none.mp (Except.ok.inj hStructure)).2.2.1
  refine Check.andThen_isOk (Check.each_isOk fun _ _ => ⟨_, rfl⟩) fun _ => ?_
  refine Check.andThen_isOk (Check.each_isOk fun _ _ => ⟨_, rfl⟩) fun _ => ?_
  refine Check.andThen_isOk ⟨_, rfl⟩ fun _ => ?_
  refine Check.each_isOk fun idx hIdx => ?_
  have hLt := List.mem_range.mp hIdx
  exact checkWitness_isOk crypto (List.getElem?_eq_getElem hLt)
    (List.getElem?_eq_getElem (hCount ▸ hLt))

theorem checkTx_ne_error (fault : OutOfBounds) : checkTx crypto tx ≠ .error fault := by
  obtain ⟨result, hResult⟩ := checkTx_isOk crypto tx
  simp [hResult]

/-- The error that `check_tx` returns, if there is one. -/
def checkedError : Option ValidationError :=
  match h : checkTx crypto tx with
  | .ok result => result
  | .error fault => absurd h (checkTx_ne_error crypto tx fault)

theorem checkTx_eq_none : checkTx crypto tx = .ok none ↔ Valid crypto tx := by
  simp only [checkTx, Check.andThen_eq_none, Check.each_eq_none, Except.ok.injEq,
    checkTxStructure_eq_none, checkInputStructure_eq_none, checkOutputValue_eq_none]
  constructor
  · rintro ⟨⟨hInputs, hOutputs, hCount, hNodup⟩, hInput, hOutput, hSums, hWitnesses⟩
    obtain ⟨hBound, hBalanced⟩ := (checkInOutSet_eq_none hInput hOutput).mp hSums
    exact ⟨hInputs, hOutputs, hCount.symm, hNodup, hInput, hOutput, hBound, hBalanced,
      (witnesses_eq_none crypto tx hCount).mp hWitnesses⟩
  · intro h
    exact ⟨⟨h.inputs_ne_nil, h.outputs_ne_nil, h.witness_count.symm, h.prevouts_nodup⟩,
      h.inputs_positive, h.outputs_positive,
      (checkInOutSet_eq_none h.inputs_positive h.outputs_positive).mpr ⟨h.inputSum_lt, h.balanced⟩,
      (witnesses_eq_none crypto tx h.witness_count.symm).mpr h.witnesses⟩

/-- `check_tx` ends for every transaction, and finds no error exactly in those that are
valid: the checks of the source and the statement of validity are the same. -/
theorem checkTx_exact :
    (∃ result, checkTx crypto tx = .ok result) ∧
      (checkTx crypto tx = .ok none ↔ Valid crypto tx) :=
  ⟨checkTx_isOk crypto tx, checkTx_eq_none crypto tx⟩

end Transaction

end OpenCbdc.Validation

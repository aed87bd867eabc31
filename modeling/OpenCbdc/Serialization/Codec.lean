import OpenCbdc.Library.Decoder
import OpenCbdc.Library.Table
import OpenCbdc.Serialization.Format

/-! The serializer operators of `format.hpp`. What `operator<<` writes for a value
is a set of byte strings, because an unordered container is iterated in an order
that the value does not determine. Every reader runs on a fresh object. -/
namespace OpenCbdc.Serialization

open Decoder

/-- `config::maximum_reservation`, one mebibyte. -/
def maximumReservation : Nat := 1024 * 1024

/-- The two operators of a type, with the laws that connect them. A value fits
when the type of the source can hold it. -/
structure Codec (α : Type) where
  Fits : α → Prop
  put : α → Language UInt8
  get : Get α
  least : Nat
  writable : ∀ value, Fits value → ∃ bytes, bytes ∈ put value
  reads : ∀ value, Fits value → Reads get (put value) value
  checked : Checked least get

/-- A type that may be the element of a container. -/
structure Element (α : Type) extends Codec α where
  sizeof : Nat
  least_pos : 0 < least
  sizeof_pos : 0 < sizeof
  sizeof_le : sizeof ≤ maximumReservation

def integerOf : List UInt8 → Nat
  | [] => 0
  | byte :: rest => byte.toNat + 256 * integerOf rest

def arrayOf (len : Nat) (bytes : List UInt8) : Vector UInt8 len :=
  Vector.ofFn fun i => bytes.getD i 0

section Lemmas

variable {α : Type}

@[simp] theorem length_putInteger (width value : Nat) :
    (putInteger width value).length = width := by
  induction width generalizing value with
  | zero => rfl
  | succ width ih => simp [putInteger, ih]

theorem integerOf_putInteger {width value : Nat} (h : value < 256 ^ width) :
    integerOf (putInteger width value) = value := by
  induction width generalizing value with
  | zero =>
      simp at h
      simp [putInteger, integerOf, h]
  | succ width ih =>
      have hDiv : value / 256 < 256 ^ width := by
        rw [Nat.div_lt_iff_lt_mul (by omega), ← Nat.pow_succ]
        exact h
      simp only [putInteger, integerOf, ih hDiv, UInt8.toNat_ofNat']
      omega

theorem arrayOf_toList {len : Nat} (arr : Vector UInt8 len) : arrayOf len arr.toList = arr := by
  ext i hi
  simp [arrayOf]

theorem exists_mem_mul {first second : Language UInt8} (hFirst : ∃ bytes, bytes ∈ first)
    (hSecond : ∃ bytes, bytes ∈ second) : ∃ bytes, bytes ∈ first * second := by
  obtain ⟨before, hBefore⟩ := hFirst
  obtain ⟨after, hAfter⟩ := hSecond
  exact ⟨before ++ after, Language.append_mem_mul hBefore hAfter⟩

theorem exists_mem_prod {put : α → Language UInt8} {values : List α}
    (h : ∀ value ∈ values, ∃ bytes, bytes ∈ put value) :
    ∃ bytes, bytes ∈ (values.map put).prod := by
  induction values with
  | nil => exact ⟨[], Language.nil_mem_one⟩
  | cons value values ih =>
      rw [List.map_cons, List.prod_cons]
      exact exists_mem_mul (h value (by simp)) (ih fun other hOther => h other (by simp [hOther]))

theorem reads_singleton {get : Get α} {bytes : List UInt8} {value : α}
    (h : Decodes get bytes value) : Reads get {bytes} value := by
  intro other hOther
  rwa [Set.mem_singleton_iff.mp hOther]

end Lemmas

/-- `operator>>` for an integral type, into a variable that is zero. -/
def getInteger (width : Nat) : Get Nat := (fun data => data.elim 0 integerOf) <$> read width

def getArray (len : Nat) : Get (Vector UInt8 len) :=
  (fun data => data.elim (Vector.replicate len 0) (arrayOf len)) <$> read len

def getOptional {α : Type} (get : Get α) : Get (Option α) := do
  let hasValue ← getInteger 1
  ifValid none (if hasValue = 0 then pure none else do
    let value ← get
    ifValid none (pure (some value)))

def getPair {α β : Type} [Inhabited α] [Inhabited β] (first : Get α) (second : Get β) :
    Get (α × β) := do
  let a ← first
  ifValid default (do
    let b ← second
    ifValid default (pure (a, b)))

/-- `operator>>` for `std::vector`, `std::unordered_map` and `std::unordered_set`. -/
def getContainer {γ α : Type} (collection : Collection γ α) (sizeof : Nat) (get : Get α) :
    Get γ := do
  let len ← getInteger 8
  ifValid collection.empty (withFuel fun fuel => fill get collection.add collection.size
    (maximumReservation / sizeof) len fuel 0 collection.empty)

def getSet {γ α : Type} (collection : Collection γ α) (get : Get α) : Get γ := do
  let len ← getInteger 8
  ifValid collection.empty (withFuel fun fuel =>
    iterate get collection.add len fuel 0 collection.empty)

/-- `operator>>` for a `std::variant`, and `get_variant`. The index is not
checked. -/
def getVariant {α : Type} (alternatives : List (Get α)) : Get α := do
  let index ← getInteger 1
  select alternatives index

/-- `operator<<` for the containers: the size, then the elements as an iteration
visits them. -/
def putContainer {γ α : Type} (collection : Collection γ α) (put : α → Language UInt8)
    (filled : γ) : Language UInt8 :=
  {bytes | ∃ order, collection.Order filled order ∧
    bytes ∈ ({putUInt64 (collection.size filled)} : Language UInt8) * (order.map put).prod}

theorem exists_mem_putContainer {γ α : Type} (collection : Collection γ α)
    {put : α → Language UInt8} {filled : γ} (hProper : collection.Proper filled)
    (h : ∀ value, collection.Mem value filled → ∃ bytes, bytes ∈ put value) :
    ∃ bytes, bytes ∈ putContainer collection put filled := by
  obtain ⟨order, hOrder⟩ := collection.exists_order filled hProper
  have hElements : ∀ value ∈ order, ∃ bytes, bytes ∈ put value := fun value hValue =>
    h value (collection.mem_of_order filled order hOrder value hValue)
  have hSize : ∃ bytes, bytes ∈ ({putUInt64 (collection.size filled)} : Language UInt8) :=
    ⟨_, rfl⟩
  obtain ⟨bytes, hBytes⟩ := exists_mem_mul hSize (exists_mem_prod hElements)
  exact ⟨bytes, order, hOrder, hBytes⟩

theorem mem_putContainer_nil {γ α : Type} {collection : Collection γ α}
    {put : α → Language UInt8} {filled : γ} (hOrder : collection.Order filled []) :
    putUInt64 0 ∈ putContainer collection put filled := by
  refine ⟨[], hOrder, ?_⟩
  rw [Collection.size_eq _ hOrder, List.map_nil, List.prod_nil, mul_one]
  rfl

theorem mem_putContainer_singleton {γ α : Type} {collection : Collection γ α}
    {put : α → Language UInt8} {filled : γ} {value : α} {bytes : List UInt8}
    (hOrder : collection.Order filled [value]) (hBytes : bytes ∈ put value) :
    putUInt64 1 ++ bytes ∈ putContainer collection put filled := by
  refine ⟨[value], hOrder, ?_⟩
  rw [Collection.size_eq _ hOrder, List.map_singleton, List.prod_singleton]
  exact Language.append_mem_mul rfl hBytes

def checkedInteger {width : Nat} (hWidth : width < 2 ^ 63) : Checked width (getInteger width) :=
  (Checked.read hWidth).map _

namespace Codec

variable {α β γ : Type}

/-- An unsigned integral type of this many bytes. -/
def integer (width : Nat) (hWidth : width < 2 ^ 63) : Codec Nat where
  Fits value := value < 256 ^ width
  put value := {putInteger width value}
  get := getInteger width
  least := width
  writable value _ := ⟨_, rfl⟩
  reads value hFits := by
    have hRead := (Decodes.read (putInteger width value)).map fun data => data.elim 0 integerOf
    rw [length_putInteger, Option.elim_some, integerOf_putInteger hFits] at hRead
    exact reads_singleton hRead
  checked := checkedInteger hWidth

def uint8 : Codec Nat := integer 1 (by decide)
def uint32 : Codec Nat := integer 4 (by decide)
def uint64 : Codec Nat := integer 8 (by decide)

theorem least_uint64_pos : 0 < uint64.least := by decide

/-- A type that is read and written as another one. -/
def via (codec : Codec α) (Fits : β → Prop) (toWire : β → α) (ofWire : α → β)
    (h : ∀ value, Fits value → codec.Fits (toWire value) ∧ ofWire (toWire value) = value) :
    Codec β where
  Fits := Fits
  put value := codec.put (toWire value)
  get := ofWire <$> codec.get
  least := codec.least
  writable value hFits := codec.writable (toWire value) (h value hFits).1
  reads value hFits := by
    have hRead := (codec.reads (toWire value) (h value hFits).1).map ofWire
    rwa [(h value hFits).2] at hRead
  checked := codec.checked.map ofWire

/-- `std::byte` and `unsigned char`. -/
def byte : Codec UInt8 :=
  uint8.via (fun _ => True) UInt8.toNat UInt8.ofNat fun value _ =>
    ⟨value.toNat_lt, by simp⟩

/-- A byte other than zero is read as true. -/
def boolean : Codec Bool :=
  uint8.via (fun _ => True) Bool.toNat (fun value => value ≠ 0) fun value _ =>
    ⟨(Bool.toNat_lt value).trans (by decide), by cases value <;> rfl⟩

/-- `uint64_t` where the value is kept in a machine word. -/
def word : Codec UInt64 :=
  uint64.via (fun _ => True) UInt64.toNat UInt64.ofNat fun value _ =>
    ⟨value.toNat_lt, by simp⟩

def array (len : Nat) (hLen : len < 2 ^ 63) : Codec (Vector UInt8 len) where
  Fits _ := True
  put arr := {putArray arr}
  get := getArray len
  least := len
  writable arr _ := ⟨_, rfl⟩
  reads arr _ := by
    have hRead := (Decodes.read arr.toList).map fun data =>
      data.elim (Vector.replicate len 0) (arrayOf len)
    rw [Vector.length_toList, Option.elim_some, arrayOf_toList] at hRead
    exact reads_singleton hRead
  checked := (Checked.read hLen).map _

def empty : Codec Unit where
  Fits _ := True
  put _ := 1
  get := pure ()
  least := 0
  writable _ _ := ⟨[], Language.nil_mem_one⟩
  reads _ _ := Reads.pure ()
  checked := Checked.pure ()

theorem reads_integer {width value : Nat} (hWidth : width < 2 ^ 63) (h : value < 256 ^ width) :
    Reads (getInteger width) {putInteger width value} value :=
  (integer width hWidth).reads value h

def optional (codec : Codec α) : Codec (Option α) where
  Fits value := ∀ x ∈ value, codec.Fits x
  put
    | none => {putInteger 1 0}
    | some value => {putInteger 1 1} * codec.put value
  get := getOptional codec.get
  least := 1
  writable value hFits := by
    cases value with
    | none => exact ⟨_, rfl⟩
    | some value => exact exists_mem_mul ⟨_, rfl⟩ (codec.writable value (hFits value rfl))
  reads value hFits := by
    cases value with
    | none =>
        have hFlag : Reads (getInteger 1) {putInteger 1 0} 0 :=
          reads_integer (by decide) (by decide)
        have hNone := (Reads.pure (none : Option α)).ifValid none
        rw [← mul_one {putInteger 1 0}]
        exact hFlag.bind hNone
    | some value =>
        have hFlag : Reads (getInteger 1) {putInteger 1 1} 1 :=
          reads_integer (by decide) (by decide)
        have hSome := (codec.reads value (hFits value rfl)).andReturn some none
        exact hFlag.bind (hSome.ifValid none)
  checked := (checkedInteger (by decide)).bindZero fun _ =>
    ((Checked.pure none).ite
      ((codec.checked.andReturn some none).weaken (Nat.zero_le _))).ifValid none

def pair [Inhabited α] [Inhabited β] (first : Codec α) (second : Codec β) : Codec (α × β) where
  Fits value := first.Fits value.1 ∧ second.Fits value.2
  put value := first.put value.1 * second.put value.2
  get := getPair first.get second.get
  least := first.least + second.least
  writable value hFits :=
    exists_mem_mul (first.writable value.1 hFits.1) (second.writable value.2 hFits.2)
  reads value hFits := by
    have hSecond := (second.reads value.2 hFits.2).andReturn (Prod.mk value.1) default
    exact (first.reads value.1 hFits.1).bind (hSecond.ifValid default)
  checked := first.checked.bind fun a =>
    (second.checked.andReturn (Prod.mk a) default).ifValid default

section Containers

variable (collection : Collection γ α) (element : Codec α)

/-- The size is read back, and whatever reads so many elements after it. -/
theorem reads_sized {loop : Nat → Get γ} {filled : γ} (hLeast : 0 < element.least)
    (hFits : ∀ value, collection.Mem value filled → element.Fits value)
    (hLoop : ∀ order, collection.Order filled order →
      (∀ value ∈ order, Reads element.get (element.put value) value) →
        Reads (loop order.length) (order.map element.put).prod filled) :
    Reads (getInteger 8 >>= fun len => ifValid collection.empty (loop len))
      (putContainer collection element.put filled) filled := by
  rintro bytes ⟨order, hOrder, hBytes⟩
  apply Decodes.of_small
  intro hSmall
  have hReads : ∀ value ∈ order, Reads element.get (element.put value) value :=
    fun value hValue => element.reads value
      (hFits value (collection.mem_of_order filled order hOrder value hValue))
  obtain ⟨size, hSize, body, hBody, rfl⟩ := Language.mem_mul.mp hBytes
  rw [List.length_append] at hSmall
  have hLength := length_le_of_prod hReads element.checked hLeast (by omega) hBody
  rw [collection.size_eq hOrder] at hSize
  have hCount : order.length < 256 ^ 8 := by omega
  exact (reads_integer (by decide) hCount size hSize).bind
    (((hLoop order hOrder hReads).ifValid _) body hBody)

variable {collection} {element}

/-- The room that is made for some elements at a time is far from the end of a word. -/
theorem reservation_lt (sizeof : Nat) : maximumReservation / sizeof < 2 ^ 63 :=
  (Nat.div_le_self _ _).trans_lt (by decide)

theorem reads_container {sizeof : Nat} {filled : γ} (hLeast : 0 < element.least)
    (hSizeof : 0 < sizeof) (hMax : sizeof ≤ maximumReservation)
    (hFits : ∀ value, collection.Mem value filled → element.Fits value) :
    Reads (getContainer collection sizeof element.get)
      (putContainer collection element.put filled) filled := by
  apply reads_sized collection element hLeast hFits
  intro order hOrder hReads
  rw [← collection.foldl_add filled order hOrder]
  exact Reads.withFuel_fill hReads element.checked hLeast collection.size_empty
    (collection.grows filled order hOrder) (Nat.div_pos hMax hSizeof) (reservation_lt _)

def checkedContainer {sizeof : Nat} (hLeast : 0 < element.least)
    (hSizeof : 0 < sizeof) (hMax : sizeof ≤ maximumReservation) :
    Checked 8 (getContainer collection sizeof element.get) :=
  (checkedInteger (by decide)).bindZero fun len =>
    (Checked.withFuelFill len element.checked hLeast collection.size_empty
      collection.size_add_le (Nat.div_pos hMax hSizeof) (reservation_lt _)).ifValid
        collection.empty

end Containers

/-- A container whose elements take this much room in memory. -/
def container (collection : Collection γ α) (element : Codec α) (sizeof : Nat)
    (hLeast : 0 < element.least) (hSizeof : 0 < sizeof) (hMax : sizeof ≤ maximumReservation) :
    Codec γ where
  Fits filled := collection.Proper filled ∧
    ∀ value, collection.Mem value filled → element.Fits value
  put := putContainer collection element.put
  get := getContainer collection sizeof element.get
  least := 8
  writable _ hFits := exists_mem_putContainer collection hFits.1 fun value hValue =>
    element.writable value (hFits.2 value hValue)
  reads _ hFits := reads_container hLeast hSizeof hMax hFits.2
  checked := checkedContainer hLeast hSizeof hMax

/-! What `sizeof` gives for bytes, words and vectors as elements of a container. -/

theorem byteSize_le : 1 ≤ maximumReservation := by decide

theorem wordSize_pos : 0 < 8 := by decide

theorem wordSize_le : 8 ≤ maximumReservation := by decide

theorem vectorSize_pos : 0 < 24 := by decide

theorem vectorSize_le : 24 ≤ maximumReservation := by decide

def vector (element : Element α) : Codec (List α) :=
  container (.sequence α) element.toCodec element.sizeof element.least_pos element.sizeof_pos
    element.sizeof_le

def unorderedSet [DecidableEq α] (element : Element α) : Codec (Finset α) :=
  container (.finset α) element.toCodec element.sizeof element.least_pos element.sizeof_pos
    element.sizeof_le

def unorderedMap [DecidableEq α] [Inhabited α] [Inhabited β] (key : Element α)
    (value : Element β) (hMax : key.sizeof + value.sizeof ≤ maximumReservation) :
    Codec (Finmap fun _ : α => β) :=
  container (.table id) (pair key.toCodec value.toCodec) (key.sizeof + value.sizeof)
    (Nat.add_pos_left key.least_pos _) (Nat.add_pos_left key.sizeof_pos _) hMax

def set (collection : Collection γ α) (element : Codec α) (hLeast : 0 < element.least) :
    Codec γ where
  Fits filled := collection.Proper filled ∧
    ∀ value, collection.Mem value filled → element.Fits value
  put := putContainer collection element.put
  get := getSet collection element.get
  least := 8
  writable _ hFits := exists_mem_putContainer collection hFits.1 fun value hValue =>
    element.writable value (hFits.2 value hValue)
  reads filled hFits := by
    apply reads_sized collection element hLeast hFits.2
    intro order hOrder hReads
    rw [← collection.foldl_add filled order hOrder]
    exact Reads.withFuel_iterate hReads element.checked hLeast
  checked := (checkedInteger (by decide)).bindZero fun len =>
    (Checked.withFuelIterate len element.checked hLeast).ifValid collection.empty

end Codec

/-- What a variant writes: the index of the alternative it holds, and the value
of that type. -/
structure Argument where
  index : Nat
  Fits : Prop
  put : Language UInt8

/-- The argument belongs to the value: the alternative with its index reads the
value back. -/
structure Selects {α : Type} (alternatives : List (Alternative α)) (argument : Argument)
    (value : α) : Prop where
  writable : argument.Fits → ∃ bytes, bytes ∈ argument.put
  reads : argument.Fits → ∃ alternative, alternatives[argument.index]? = some alternative ∧
    Reads alternative.get argument.put value

namespace Codec

variable {α β : Type}

def alternative (codec : Codec β) (inject : β → α) : Alternative α :=
  ⟨inject <$> codec.get, (codec.checked.map inject).weaken (Nat.zero_le _)⟩

def argument (codec : Codec β) (index : Nat) (payload : β) : Argument :=
  ⟨index, codec.Fits payload, codec.put payload⟩

theorem selects (codec : Codec β) (inject : β → α) {alternatives : List (Alternative α)}
    {index : Nat} (h : alternatives[index]? = some (codec.alternative inject)) (payload : β) :
    Selects alternatives (codec.argument index payload) (inject payload) where
  writable := codec.writable payload
  reads hFits := ⟨_, h, (codec.reads payload hFits).map inject⟩

/-- `std::variant`. The number of alternatives is asserted when the operators are
compiled. -/
def variant (alternatives : List (Alternative α)) (hSize : alternatives.length < 255)
    (argument : α → Argument) (h : ∀ value, Selects alternatives (argument value) value) :
    Codec α where
  Fits value := (argument value).Fits
  put value := {putInteger 1 (argument value).index} * (argument value).put
  get := getVariant (alternatives.map Alternative.get)
  least := 1
  writable value hFits := exists_mem_mul ⟨_, rfl⟩ ((h value).writable hFits)
  reads value hFits := by
    obtain ⟨alternative, hAlternative, hReads⟩ := (h value).reads hFits
    have hGet : (alternatives.map Alternative.get)[(argument value).index]? =
        some alternative.get := by
      simp [hAlternative]
    have hIndex : (argument value).index < 256 ^ 1 := by
      have hLt := (List.getElem?_eq_some_iff.mp hAlternative).1
      omega
    exact (reads_integer (by decide) hIndex).bind (hReads.select hGet)
  checked := (checkedInteger (by decide)).bindZero fun index => Checked.select alternatives index

end Codec
end OpenCbdc.Serialization

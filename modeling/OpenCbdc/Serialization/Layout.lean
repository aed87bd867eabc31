import OpenCbdc.Library.Consumption
import OpenCbdc.Serialization.Codec

/-! How much room a value takes in a buffer. The size of a value does not depend
on the order in which a container is visited, and a reader takes as many bytes
only from an encoding that lists the elements of each container once. -/
namespace OpenCbdc.Serialization

open Decoder

/-- The size of the values of a type, and the byte strings from which they are
read when no container lists an element twice. They are more than what is
written: every byte other than zero is read as true. -/
structure Layout {α : Type} (least : Nat) (get : Get α) (put : α → Language UInt8) where
  size : α → Nat
  encodings : α → Language UInt8
  least_le : ∀ value, least ≤ size value
  writable : ∀ value, ∃ bytes, bytes ∈ put value
  length_put : ∀ value, OfLength (size value) (put value)
  length_encodings : ∀ value, OfLength (size value) (encodings value)
  reads : ∀ value, Reads get (encodings value) value
  takes : Takes get fun value => Spans (size value) (encodings value)

/-- The layout of a type with serializer operators. -/
abbrev Codec.Layout {α : Type} (codec : Codec α) : Type :=
  Serialization.Layout codec.least codec.get codec.put

namespace Layout

variable {α β γ : Type} {least other : Nat} {get : Get α} {next : Get β}
  {put : α → Language UInt8} {putNext : β → Language UInt8}

def ofRead (len : Nat) (hLen : len < 2 ^ 63) (decode : Option (List UInt8) → α)
    (bytesOf : α → List UInt8) (hBytes : ∀ value, (bytesOf value).length = len) :
    Layout len (decode <$> read len) fun value => {bytesOf value} where
  size _ := len
  encodings value := {bytes | bytes.length = len ∧ decode (some bytes) = value}
  least_le _ := le_rfl
  writable value := ⟨bytesOf value, rfl⟩
  length_put value := hBytes value ▸ OfLength.singleton (bytesOf value)
  length_encodings _ _ h := h.1
  reads value bytes h := by
    have hRead := (Decodes.read bytes).map decode
    rwa [h.1, h.2] at hRead
  takes := by
    refine (Takes.read hLen).map ?_
    rintro data bytes ⟨hLength, rfl⟩
    exact ⟨hLength.ge, fun _ => ⟨hLength, rfl⟩⟩

def integer (width : Nat) (hWidth : width < 2 ^ 63) : (Codec.integer width hWidth).Layout :=
  ofRead width hWidth (fun data => data.elim 0 integerOf) (putInteger width)
    (length_putInteger width)

def array (len : Nat) (hLen : len < 2 ^ 63) : (Codec.array len hLen).Layout :=
  ofRead len hLen (fun data => data.elim (Vector.replicate len 0) (arrayOf len)) putArray
    fun arr => arr.length_toList

/-- A type that is read and written as another one, whose values are all of one
size. -/
def via (layout : Layout least get put) (len : Nat) (hSize : ∀ value, layout.size value = len)
    (toWire : β → α) (ofWire : α → β) :
    Layout least (ofWire <$> get) fun value => put (toWire value) where
  size _ := len
  encodings value := {bytes | ∃ wire, ofWire wire = value ∧ bytes ∈ layout.encodings wire}
  least_le value := hSize (toWire value) ▸ layout.least_le (toWire value)
  writable value := layout.writable (toWire value)
  length_put value := hSize (toWire value) ▸ layout.length_put (toWire value)
  length_encodings := by
    rintro value bytes ⟨wire, _, hBytes⟩
    rw [layout.length_encodings wire bytes hBytes, hSize wire]
  reads := by
    rintro value bytes ⟨wire, rfl, hBytes⟩
    exact (layout.reads wire bytes hBytes).map ofWire
  takes := by
    refine layout.takes.map ?_
    intro wire bytes hBytes
    rw [hSize wire] at hBytes
    exact ⟨hBytes.1, fun hLength => ⟨wire, rfl, hBytes.2 hLength⟩⟩

def empty : Codec.empty.Layout where
  size _ := 0
  encodings _ := 1
  least_le _ := le_rfl
  writable _ := ⟨[], Language.nil_mem_one⟩
  length_put _ bytes hBytes := by rw [(Language.mem_one bytes).mp hBytes]; rfl
  length_encodings _ bytes hBytes := by rw [(Language.mem_one bytes).mp hBytes]; rfl
  reads value := Reads.pure value
  takes := Takes.pure ⟨le_rfl, fun _ => Language.nil_mem_one⟩

def both (layout : Layout least get put) (second : Layout other next putNext) :
    Layout (least + other) (Prod.mk <$> get <*> next)
      fun value => put value.1 * putNext value.2 where
  size value := layout.size value.1 + second.size value.2
  encodings value := layout.encodings value.1 * second.encodings value.2
  least_le value := Nat.add_le_add (layout.least_le value.1) (second.least_le value.2)
  writable value := exists_mem_mul (layout.writable value.1) (second.writable value.2)
  length_put value := (layout.length_put value.1).mul (second.length_put value.2)
  length_encodings value :=
    (layout.length_encodings value.1).mul (second.length_encodings value.2)
  reads value := ((layout.reads value.1).map Prod.mk).seq (second.reads value.2)
  takes := (layout.takes.both second.takes).mono fun _ => spans_mul_le

/-- A record is laid out like the tuple of its fields. -/
def record (layout : Layout least get put) (fields : α ≃ β) {getRecord : Get β}
    {putRecord : β → Language UInt8} (hGet : getRecord = fields <$> get)
    (hPut : ∀ value, putRecord value = put (fields.symm value)) :
    Layout least getRecord putRecord where
  size value := layout.size (fields.symm value)
  encodings value := layout.encodings (fields.symm value)
  least_le value := layout.least_le (fields.symm value)
  writable value := hPut value ▸ layout.writable (fields.symm value)
  length_put value := hPut value ▸ layout.length_put (fields.symm value)
  length_encodings value := layout.length_encodings (fields.symm value)
  reads value := by
    have hReads := (layout.reads (fields.symm value)).map fields
    rwa [fields.apply_symm_apply, ← hGet] at hReads
  takes := by
    rw [hGet]
    refine layout.takes.map ?_
    intro value bytes hBytes
    rwa [fields.symm_apply_apply]

end Layout

namespace Layout

variable {α β γ : Type}

def uint8 : Codec.uint8.Layout := integer 1 _
def uint32 : Codec.uint32.Layout := integer 4 _
def uint64 : Codec.uint64.Layout := integer 8 _

theorem size_uint8 (value : Nat) : uint8.size value = 1 := rfl

def byte : Codec.byte.Layout := uint8.via 1 size_uint8 UInt8.toNat UInt8.ofNat

def boolean : Codec.boolean.Layout :=
  uint8.via 1 size_uint8 Bool.toNat fun value => value ≠ 0

def word : Codec.word.Layout := uint64.via 8 (fun _ => rfl) UInt64.toNat UInt64.ofNat

/-- The bytes that are read as a flag that is set. -/
def setFlag : Language UInt8 := {bytes | ∃ flag, flag ≠ 0 ∧ bytes ∈ uint8.encodings flag}

theorem length_setFlag : OfLength 1 setFlag := by
  rintro bytes ⟨flag, _, hBytes⟩
  exact uint8.length_encodings flag bytes hBytes

def optional {codec : Codec α} (layout : codec.Layout) : (Codec.optional codec).Layout where
  size
    | none => 1
    | some value => 1 + layout.size value
  encodings
    | none => uint8.encodings 0
    | some value => setFlag * layout.encodings value
  least_le
    | none => le_rfl
    | some value => Nat.le_add_right 1 _
  writable
    | none => ⟨_, rfl⟩
    | some value => exists_mem_mul ⟨_, rfl⟩ (layout.writable value)
  length_put
    | none => OfLength.singleton (putInteger 1 0)
    | some value => (OfLength.singleton (putInteger 1 1)).mul (layout.length_put value)
  length_encodings
    | none => uint8.length_encodings 0
    | some value => length_setFlag.mul (layout.length_encodings value)
  reads
    | none => by
        have hNone := (Reads.pure (none : Option α)).ifValid none
        rw [← mul_one (uint8.encodings 0)]
        exact (uint8.reads 0).bind hNone
    | some value => by
        intro bytes hBytes
        obtain ⟨before, ⟨flag, hFlag, hBefore⟩, rest, hRest, rfl⟩ := Language.mem_mul.mp hBytes
        refine (uint8.reads flag before hBefore).bind ?_
        rw [if_neg hFlag]
        exact (((layout.reads value).andReturn some none).ifValid none) rest hRest
  takes := by
    have hLater : ∀ flag, Takes (ifValid none (if flag = 0 then pure none else do
        let value ← codec.get
        ifValid none (pure (some value)))) fun
        | none => {bytes | flag = 0 ∧ bytes = []}
        | some value => {bytes | flag ≠ 0 ∧
            bytes ∈ Spans (layout.size value) (layout.encodings value)} := by
      intro flag
      apply Takes.ifValid
      split
      case isTrue hFlag => exact Takes.pure ⟨hFlag, rfl⟩
      case isFalse hFlag =>
        refine layout.takes.andReturn ?_ none
        intro value bytes hBytes
        exact ⟨hFlag, hBytes⟩
    apply uint8.takes.bind hLater
    intro flag result bytes hBytes
    obtain ⟨before, hBefore, rest, hRest, rfl⟩ := Language.mem_mul.mp hBytes
    cases result with
    | none =>
        obtain ⟨rfl, rfl⟩ := hRest
        rw [List.append_nil]
        exact hBefore
    | some value =>
        have hFlag : before ∈ Spans 1 setFlag :=
          ⟨hBefore.1, fun hLength => ⟨flag, hRest.1, hBefore.2 hLength⟩⟩
        exact spans_mul_le (Language.append_mem_mul hFlag hRest.2)

def pair [Inhabited α] [Inhabited β] {first : Codec α} {second : Codec β}
    (layout : first.Layout) (other : second.Layout) : (Codec.pair first second).Layout where
  size value := layout.size value.1 + other.size value.2
  encodings value := layout.encodings value.1 * other.encodings value.2
  least_le value := Nat.add_le_add (layout.least_le value.1) (other.least_le value.2)
  writable value := exists_mem_mul (layout.writable value.1) (other.writable value.2)
  length_put value := (layout.length_put value.1).mul (other.length_put value.2)
  length_encodings value :=
    (layout.length_encodings value.1).mul (other.length_encodings value.2)
  reads value := by
    have hSecond := (other.reads value.2).andReturn (Prod.mk value.1) default
    exact (layout.reads value.1).bind (hSecond.ifValid default)
  takes := by
    have hLater : ∀ a : α, Takes (ifValid default (second.get >>= fun b =>
        ifValid default (pure (a, b)))) fun result : α × β => {bytes | result.1 = a ∧
          bytes ∈ Spans (other.size result.2) (other.encodings result.2)} := by
      intro a
      apply Takes.ifValid
      refine other.takes.andReturn ?_ default
      intro value bytes hBytes
      exact ⟨rfl, hBytes⟩
    apply layout.takes.bind hLater
    intro a result bytes hBytes
    obtain ⟨before, hBefore, rest, hRest, rfl⟩ := Language.mem_mul.mp hBytes
    rw [← hRest.1] at hBefore
    exact spans_mul_le (Language.append_mem_mul hBefore hRest.2)

section Containers

variable {collection : Collection γ α} {element : Codec α}

/-- However a container is visited, it takes the room of its elements. -/
theorem length_putContainer (sums : Collection.Sums collection) {size : α → Nat}
    {put : α → Language UInt8} (h : ∀ value, OfLength (size value) (put value)) (filled : γ) :
    OfLength (8 + sums.total size filled) (putContainer collection put filled) := by
  rintro bytes ⟨order, hOrder, hBytes⟩
  rw [sums.total_eq size filled order hOrder]
  have hSize : OfLength 8 {putUInt64 (collection.size filled)} :=
    OfLength.singleton (putUInt64 (collection.size filled))
  exact hSize.mul (OfLength.prod h order) bytes hBytes

/-- The bytes of a container that lists its elements once: their number, then
each of them. -/
def listed (collection : Collection γ α) (encodings : α → Language UInt8) (filled : γ) :
    Language UInt8 :=
  {bytes | ∃ order, collection.Order filled order ∧
    bytes ∈ uint64.encodings order.length * (order.map encodings).prod}

variable (sums : Collection.Sums collection) (layout : element.Layout)

/-- A container whose elements are read by a loop after their number. The loop
either ends with as many elements as it was told or reads as many. -/
def sized (hLeast : 0 < element.least) {loop : Nat → Get γ}
    (hReads : ∀ values : List α,
      Collection.Grows collection.add collection.size collection.empty values →
        Reads (loop values.length) (values.map layout.encodings).prod
          (values.foldl collection.add collection.empty))
    (hTakes : ∀ len, Takes (loop len) fun filled => {bytes | ∃ values : List α,
      values.foldl collection.add collection.empty = filled ∧
        (collection.size filled = len ∨ values.length = len) ∧
          bytes ∈ (values.map fun value =>
            Spans (layout.size value) (layout.encodings value)).prod}) :
    Layout 8 (getInteger 8 >>= fun len => ifValid collection.empty (loop len))
      (putContainer collection element.put) where
  size filled := 8 + sums.total layout.size filled
  encodings := listed collection layout.encodings
  least_le _ := Nat.le_add_right 8 _
  writable filled := by
    obtain ⟨order, hOrder⟩ := sums.exists_order filled
    have hSize : ∃ bytes, bytes ∈ ({putUInt64 (collection.size filled)} : Language UInt8) :=
      ⟨_, rfl⟩
    obtain ⟨bytes, hBytes⟩ :=
      exists_mem_mul hSize (exists_mem_prod fun value (_ : value ∈ order) => layout.writable value)
    exact ⟨bytes, order, hOrder, hBytes⟩
  length_put := length_putContainer sums layout.length_put
  length_encodings := by
    rintro filled bytes ⟨order, hOrder, hBytes⟩
    rw [sums.total_eq layout.size filled order hOrder]
    exact (uint64.length_encodings _).mul (OfLength.prod layout.length_encodings order) bytes hBytes
  reads := by
    rintro filled bytes ⟨order, hOrder, hBytes⟩
    have hLoop := hReads order (collection.grows filled order hOrder)
    rw [collection.foldl_add filled order hOrder] at hLoop
    exact (uint64.reads order.length).bind (hLoop.ifValid _) bytes hBytes
  takes := by
    refine uint64.takes.bind (fun len => (hTakes len).ifValid collection.empty) ?_
    intro len filled bytes hBytes
    obtain ⟨before, hBefore, rest, ⟨values, hFold, hCount, hRest⟩, rfl⟩ :=
      Language.mem_mul.mp hBytes
    obtain ⟨hLong, hListed⟩ := spans_prod_le layout.size layout.encodings values hRest
    have hPos : ∀ value ∈ values, 0 < layout.size value :=
      fun value _ => hLeast.trans_le (layout.least_le value)
    have hTotal := sums.total_foldl_le layout.size values
    rw [hFold] at hTotal
    have hWord : 8 ≤ before.length := hBefore.1
    refine ⟨?_, ?_⟩
    · rw [List.length_append]
      omega
    · intro hLength
      rw [List.length_append] at hLength
      -- no byte is left for an element that was there already
      have hGrows := sums.grows_of_total_eq hPos (by rw [hFold]; omega)
      have hOrder := sums.order_foldl values hGrows
      rw [hFold] at hOrder
      have hLen : values.length = len := by
        have hSize := collection.size_eq hOrder
        omega
      refine ⟨values, hOrder, ?_⟩
      rw [hLen]
      have hNumber : before.length = 8 := by omega
      exact Language.append_mem_mul (hBefore.2 hNumber) (hListed (by omega))

/-- A container whose elements take this much room in memory. -/
def container (sizeof : Nat) (hLeast : 0 < element.least) (hSizeof : 0 < sizeof)
    (hMax : sizeof ≤ maximumReservation) :
    (Codec.container collection element sizeof hLeast hSizeof hMax).Layout :=
  sized sums layout hLeast
    (fun values hGrows => Reads.withFuel_fill (fun value _ => layout.reads value) element.checked
      hLeast collection.size_empty hGrows (Nat.div_pos hMax hSizeof) (Codec.reservation_lt _))
    (fun _ => (Takes.withFuel_fill layout.takes element.checked hLeast collection.size_empty
      collection.size_add_le (Codec.reservation_lt _)).mono fun _ _ hBytes => by
        obtain ⟨values, hFold, hSize, hRest⟩ := hBytes
        exact ⟨values, hFold, .inl hSize, hRest⟩)

def set (hLeast : 0 < element.least) : (Codec.set collection element hLeast).Layout :=
  sized sums layout hLeast
    (fun _ _ => Reads.withFuel_iterate (fun value _ => layout.reads value) element.checked hLeast)
    (fun _ => (Takes.withFuel_iterate layout.takes element.checked).mono fun _ _ hBytes => by
      obtain ⟨values, hFold, hCount, hRest⟩ := hBytes
      exact ⟨values, hFold, .inr hCount, hRest⟩)

end Containers

def vector {element : Element α} (layout : element.Layout) : (Codec.vector element).Layout :=
  container (.sequence α) layout element.sizeof element.least_pos element.sizeof_pos
    element.sizeof_le

def unorderedSet [DecidableEq α] {element : Element α} (layout : element.Layout) :
    (Codec.unorderedSet element).Layout :=
  container (.finset α) layout element.sizeof element.least_pos element.sizeof_pos
    element.sizeof_le

def unorderedMap [DecidableEq α] [Inhabited α] [Inhabited β] {key : Element α} {value : Element β}
    (keyLayout : key.Layout) (valueLayout : value.Layout)
    (hMax : key.sizeof + value.sizeof ≤ maximumReservation) :
    (Codec.unorderedMap key value hMax).Layout :=
  container (.table id id (fun _ => rfl) fun _ => rfl) (pair keyLayout valueLayout)
    (key.sizeof + value.sizeof) _ _ hMax

end Layout

/-- The alternative that a value of a variant holds, its size and its encodings. -/
structure Extent where
  index : Nat
  size : Nat
  encodings : Language UInt8

/-- The extent belongs to the value: the alternative with its index reads the
value from each of the encodings, and they are as long as what is written. -/
structure Occupies {α : Type} (alternatives : List (Alternative α)) (argument : Argument)
    (extent : Extent) (value : α) : Prop where
  writable : ∃ bytes, bytes ∈ argument.put
  length_put : OfLength extent.size argument.put
  length_encodings : OfLength extent.size extent.encodings
  reads : ∃ alternative, alternatives[extent.index]? = some alternative ∧
    Reads alternative.get extent.encodings value

/-- What the alternatives take, from this index on, spans the extents of the
values they read. -/
def Aligned {α : Type} (extent : α → Extent) : Nat → List (Alternative α) → Prop
  | _, [] => True
  | index, alternative :: rest =>
      (Takes alternative.get fun value => {bytes | (extent value).index = index ∧
        bytes ∈ Spans (extent value).size (extent value).encodings}) ∧
        Aligned extent (index + 1) rest

theorem Aligned.takes {α : Type} {extent : α → Extent} {start index : Nat}
    {alternatives : List (Alternative α)} (h : Aligned extent start alternatives)
    {alternative : Alternative α} (hGet : alternatives[index]? = some alternative) :
    Takes alternative.get fun value => {bytes | (extent value).index = start + index ∧
      bytes ∈ Spans (extent value).size (extent value).encodings} := by
  induction alternatives generalizing start index with
  | nil => simp at hGet
  | cons head rest ih =>
      cases index with
      | zero =>
          rw [List.getElem?_cons_zero, Option.some_inj] at hGet
          subst hGet
          exact h.1
      | succ index =>
          rw [List.getElem?_cons_succ] at hGet
          have hLater := ih h.2 hGet
          rwa [Nat.add_right_comm, Nat.add_assoc] at hLater

namespace Layout

variable {α β : Type} {codec : Codec β}

def extent (layout : codec.Layout) (index : Nat) (payload : β) : Extent :=
  ⟨index, layout.size payload, layout.encodings payload⟩

theorem occupies (layout : codec.Layout) (inject : β → α) {alternatives : List (Alternative α)}
    {index : Nat} (h : alternatives[index]? = some (codec.alternative inject)) (payload : β) :
    Occupies alternatives (codec.argument index payload) (layout.extent index payload)
      (inject payload) where
  writable := layout.writable payload
  length_put := layout.length_put payload
  length_encodings := layout.length_encodings payload
  reads := ⟨_, h, (layout.reads payload).map inject⟩

theorem aligned (layout : codec.Layout) (inject : β → α) {extent : α → Extent} {index : Nat}
    {rest : List (Alternative α)}
    (h : ∀ payload, extent (inject payload) = layout.extent index payload)
    (hRest : Aligned extent (index + 1) rest) :
    Aligned extent index (codec.alternative inject :: rest) := by
  refine ⟨?_, hRest⟩
  refine layout.takes.map ?_
  intro payload bytes hBytes
  show (extent (inject payload)).index = index ∧ _
  rw [h payload]
  exact ⟨rfl, hBytes⟩

def variant {alternatives : List (Alternative α)} {hSize : alternatives.length < 255}
    {argument : α → Argument} {h : ∀ value, Selects alternatives (argument value) value}
    (extent : α → Extent)
    (hOccupies : ∀ value, Occupies alternatives (argument value) (extent value) value)
    (hAligned : Aligned extent 0 alternatives) :
    (Codec.variant alternatives hSize argument h).Layout where
  size value := 1 + (extent value).size
  encodings value := uint8.encodings (extent value).index * (extent value).encodings
  least_le _ := Nat.le_add_right 1 _
  writable value := exists_mem_mul ⟨_, rfl⟩ (hOccupies value).writable
  length_put value :=
    (OfLength.singleton (putInteger 1 (argument value).index)).mul (hOccupies value).length_put
  length_encodings value := (uint8.length_encodings _).mul (hOccupies value).length_encodings
  reads value := by
    obtain ⟨alternative, hAlternative, hReads⟩ := (hOccupies value).reads
    have hGet : (alternatives.map Alternative.get)[(extent value).index]? =
        some alternative.get := by
      simp [hAlternative]
    exact (uint8.reads _).bind (hReads.select hGet)
  takes := by
    have hSelect : ∀ index, Takes (select (alternatives.map Alternative.get) index) fun value =>
        {bytes | (extent value).index = index ∧
          bytes ∈ Spans (extent value).size (extent value).encodings} := by
      intro index
      apply Takes.select
      intro get hGet
      rw [List.getElem?_map, Option.map_eq_some_iff] at hGet
      obtain ⟨alternative, hAlternative, rfl⟩ := hGet
      have hTakes := hAligned.takes hAlternative
      rwa [Nat.zero_add] at hTakes
    apply uint8.takes.bind hSelect
    intro index value bytes hBytes
    obtain ⟨before, hBefore, rest, ⟨rfl, hRest⟩, rfl⟩ := Language.mem_mul.mp hBytes
    exact spans_mul_le (Language.append_mem_mul hBefore hRest)

end Layout
end OpenCbdc.Serialization

import OpenCbdc.Common.Hash

/-! The writing half of the serializer operators that compact transactions
use. Integers are written in little-endian order, the byte order of the
machines the program is built for. -/
namespace OpenCbdc.Serialization

/-- The low `width` bytes of a number, least significant byte first. -/
def putInteger : Nat → Nat → List UInt8
  | 0, _ => []
  | width + 1, value => UInt8.ofNat value :: putInteger width (value / 256)

/-- `operator<<` for a `uint64_t`. -/
def putUInt64 (value : Nat) : List UInt8 := putInteger 8 value

/-- `operator<<` for a `std::array` of bytes. -/
def putArray {len : Nat} (arr : Vector UInt8 len) : List UInt8 := arr.toList

/-- `operator<<` for a `std::vector`: the number of elements, then each one. -/
def putVector {α : Type} (put : α → List UInt8) (vec : List α) : List UInt8 :=
  putUInt64 vec.length ++ vec.flatMap put

end OpenCbdc.Serialization

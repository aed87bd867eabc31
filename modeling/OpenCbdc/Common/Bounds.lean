import Mathlib.Data.List.Basic

/-! Reads of containers through `operator[]`, pointers and `memcpy`, none of
which checks the place it is given. -/
namespace OpenCbdc

/-- The program has read outside a container, and nothing is known of what it
does from there on. -/
structure OutOfBounds where
deriving DecidableEq

/-- `container[place]`. -/
def readAt {α : Type} (container : List α) (place : Nat) : Except OutOfBounds α :=
  match container[place]? with
  | none => .error {}
  | some row => .ok row

/-- The bytes that a `memcpy` out of a byte string copies. -/
def readBytes (bytes : List UInt8) (start count : Nat) : Except OutOfBounds (Vector UInt8 count) :=
  if h : start + count ≤ bytes.length then
    .ok ⟨((bytes.drop start).take count).toArray, by simp; omega⟩
  else .error {}

theorem readAt_eq_ok {α : Type} {container : List α} {place : Nat} {row : α} :
    readAt container place = .ok row ↔ container[place]? = some row := by
  unfold readAt
  split
  case h_1 hNone => simp [hNone]
  case h_2 found hFound => simp [hFound]

theorem readAt_eq_error {α : Type} {container : List α} {place : Nat} {fault : OutOfBounds} :
    readAt container place = .error fault ↔ container.length ≤ place := by
  rw [← List.getElem?_eq_none_iff]
  unfold readAt
  split
  case h_1 hNone => simp [hNone]
  case h_2 found hFound => simp [hFound]

/-- A copy that stays inside the byte string. -/
theorem exists_readBytes {bytes : List UInt8} {start count : Nat}
    (h : start + count ≤ bytes.length) :
    ∃ arr : Vector UInt8 count, readBytes bytes start count = .ok arr ∧
      arr.toList = (bytes.drop start).take count := by
  rw [readBytes, dif_pos h]
  exact ⟨_, rfl, rfl⟩

end OpenCbdc

import Mathlib.Data.List.Induction
import OpenCbdc.Library.Positional

/-! `ConvertBits`: a sequence of groups of bits is cut into groups of another width.
What a run of it has put out and still holds stands for the number that the groups
stand for. -/
namespace OpenCbdc

open Positional

/-- What `ConvertBits` keeps while it goes through the groups. -/
structure BitBuffer where
  acc : Nat
  bits : Nat
  out : List Nat
deriving DecidableEq

namespace BitBuffer

/-- The inner loop: groups are put out as long as there are enough bits. There are at
most as many rounds as bits. -/
def drain (tobits acc : Nat) : Nat → Nat → List Nat → BitBuffer
  | 0, bits, out => ⟨acc, bits, out⟩
  | rounds + 1, bits, out =>
      if tobits ≤ bits then
        drain tobits acc rounds (bits - tobits)
          (out ++ [(acc >>> (bits - tobits)) &&& (2 ^ tobits - 1)])
      else ⟨acc, bits, out⟩

/-- A round of the outer loop. -/
def push (frombits tobits : Nat) (buffer : BitBuffer) (group : Nat) : BitBuffer :=
  let bits := buffer.bits + frombits
  drain tobits ((buffer.acc <<< frombits ||| group) &&& (2 ^ (frombits + tobits - 1) - 1)) bits bits
    buffer.out

/-- The two loops. -/
def ofGroups (frombits tobits : Nat) (groups : List Nat) : BitBuffer :=
  groups.foldl (push frombits tobits) ⟨0, 0, []⟩

/-- The bits that are left, filled up with zeros. -/
def padded (tobits : Nat) (buffer : BitBuffer) : Nat :=
  (buffer.acc <<< (tobits - buffer.bits)) &&& (2 ^ tobits - 1)

end BitBuffer

/-- `ConvertBits`: what `outfn` is called with, and the result. -/
def convertBits (frombits tobits : Nat) (pad : Bool) (groups : List Nat) : List Nat × Bool :=
  let buffer := BitBuffer.ofGroups frombits tobits groups
  if pad then
    if buffer.bits ≠ 0 then (buffer.out ++ [buffer.padded tobits], true) else (buffer.out, true)
  else if frombits ≤ buffer.bits ∨ buffer.padded tobits ≠ 0 then (buffer.out, false)
  else (buffer.out, true)

namespace BitBuffer

/-- A buffer after some groups: less than a group is left, and the groups put out
with what is left are the number of the groups that came in. -/
structure Holds (frombits tobits : Nat) (groups : List Nat) (buffer : BitBuffer) : Prop where
  bits_lt : buffer.bits < tobits
  length : groups.length * frombits = buffer.out.length * tobits + buffer.bits
  out_lt : ∀ group ∈ buffer.out, group < 2 ^ tobits
  number : value (2 ^ frombits) groups =
    value (2 ^ tobits) buffer.out * 2 ^ buffer.bits + buffer.acc % 2 ^ buffer.bits

variable {frombits tobits : Nat} {groups : List Nat} {buffer : BitBuffer}

/-- What the inner loop keeps. -/
theorem drain_spec {acc bits rounds : Nat} {out : List Nat} (hTo : 0 < tobits)
    (hRounds : bits ≤ rounds) (hOut : ∀ group ∈ out, group < 2 ^ tobits) :
    let buffer := drain tobits acc rounds bits out
    buffer.bits < tobits ∧
      out.length * tobits + bits = buffer.out.length * tobits + buffer.bits ∧
      (∀ group ∈ buffer.out, group < 2 ^ tobits) ∧
      value (2 ^ tobits) out * 2 ^ bits + acc % 2 ^ bits =
        value (2 ^ tobits) buffer.out * 2 ^ buffer.bits + buffer.acc % 2 ^ buffer.bits := by
  induction rounds generalizing bits out with
  | zero =>
      obtain rfl : bits = 0 := by omega
      exact ⟨hTo, rfl, hOut, rfl⟩
  | succ rounds ih =>
      rw [drain]
      split
      case isFalse hFew => exact ⟨Nat.lt_of_not_le hFew, rfl, hOut, rfl⟩
      case isTrue hEnough =>
          have hGroup : (acc >>> (bits - tobits)) &&& (2 ^ tobits - 1) =
              acc / 2 ^ (bits - tobits) % 2 ^ tobits := by
            rw [Nat.and_two_pow_sub_one_eq_mod, Nat.shiftRight_eq_div_pow]
          rw [hGroup]
          have hNext : ∀ group ∈ out ++ [acc / 2 ^ (bits - tobits) % 2 ^ tobits],
              group < 2 ^ tobits := by
            intro group hMem
            rcases List.mem_append.mp hMem with hOld | hNew
            · exact hOut group hOld
            · rw [List.mem_singleton.mp hNew]
              exact Nat.mod_lt _ (Nat.two_pow_pos tobits)
          have hLess : bits - tobits ≤ rounds := by omega
          obtain ⟨hBits, hLength, hLt, hNumber⟩ := ih hLess hNext
          refine ⟨hBits, ?_, hLt, ?_⟩
          · rw [← hLength, List.length_append, List.length_singleton, Nat.add_mul]
            omega
          · rw [← hNumber, value_concat]
            have hPow : 2 ^ bits = 2 ^ (bits - tobits) * 2 ^ tobits := by
              rw [← Nat.pow_add, Nat.sub_add_cancel hEnough]
            rw [hPow, Nat.mod_mul]
            ring

/-- The accumulator holds the bits that were left and those of the next group. -/
theorem acc_mod {acc bits group : Nat} (hBits : bits < tobits) (hGroup : group < 2 ^ frombits) :
    ((acc <<< frombits ||| group) &&& (2 ^ (frombits + tobits - 1) - 1)) %
        2 ^ (bits + frombits) = acc % 2 ^ bits * 2 ^ frombits + group := by
  have hDvd : 2 ^ (bits + frombits) ∣ 2 ^ (frombits + tobits - 1) :=
    Nat.pow_dvd_pow 2 (by omega)
  have hPow : 2 ^ (bits + frombits) = 2 ^ frombits * 2 ^ bits := by
    rw [Nat.pow_add, Nat.mul_comm]
  have hLow : (acc * 2 ^ frombits + group) % 2 ^ frombits = group := by
    rw [Nat.add_comm, Nat.add_mul_mod_self_right, Nat.mod_eq_of_lt hGroup]
  have hHigh : (acc * 2 ^ frombits + group) / 2 ^ frombits = acc := by
    rw [Nat.add_comm, Nat.add_mul_div_right _ _ (Nat.two_pow_pos frombits),
      Nat.div_eq_of_lt hGroup, Nat.zero_add]
  rw [Nat.and_two_pow_sub_one_eq_mod, Nat.mod_mod_of_dvd _ hDvd,
    ← Nat.shiftLeft_add_eq_or_of_lt hGroup, Nat.shiftLeft_eq, hPow, Nat.mod_mul, hLow, hHigh,
    Nat.add_comm, Nat.mul_comm]

/-- Pushing a group appends its bits to those that the buffer and the output hold together.
-/
theorem Holds.push {group : Nat} (h : Holds frombits tobits groups buffer)
    (hGroup : group < 2 ^ frombits) :
    Holds frombits tobits (groups ++ [group]) (buffer.push frombits tobits group) := by
  have hBits := h.bits_lt
  obtain ⟨hFew, hLength, hLt, hNumber⟩ := drain_spec (Nat.zero_lt_of_lt hBits)
    (Nat.le_refl (buffer.bits + frombits)) h.out_lt
  refine ⟨hFew, ?_, hLt, ?_⟩
  · rw [List.length_append, List.length_singleton, Nat.add_mul, h.length, Nat.one_mul,
      Nat.add_assoc]
    exact hLength
  · refine Eq.trans ?_ hNumber
    rw [acc_mod hBits hGroup, value_concat, h.number, Nat.pow_add]
    ring

theorem holds_ofGroups (hTo : 0 < tobits) (hGroups : ∀ group ∈ groups, group < 2 ^ frombits) :
    Holds frombits tobits groups (ofGroups frombits tobits groups) := by
  induction groups using List.reverseRecOn with
  | nil => exact ⟨hTo, by simp [ofGroups], by simp [ofGroups], by simp [ofGroups]⟩
  | append_singleton groups group ih =>
      rw [ofGroups, List.foldl_append, List.foldl_cons, List.foldl_nil, ← ofGroups]
      refine (ih fun other hOther => hGroups other (List.mem_append_left _ hOther)).push ?_
      exact hGroups group (List.mem_append_right _ (List.mem_singleton_self group))

theorem padded_eq (h : buffer.bits ≤ tobits) :
    buffer.padded tobits = buffer.acc % 2 ^ buffer.bits * 2 ^ (tobits - buffer.bits) := by
  have hPow : 2 ^ tobits = 2 ^ buffer.bits * 2 ^ (tobits - buffer.bits) := by
    rw [← Nat.pow_add, Nat.add_sub_cancel' h]
  rw [padded, Nat.and_two_pow_sub_one_eq_mod, Nat.shiftLeft_eq, hPow, Nat.mul_mod_mul_right]

end BitBuffer

open BitBuffer

variable {frombits tobits : Nat} {groups : List Nat}

/-- With padding, the groups put out are the number that came in, with zeros behind
it. -/
theorem convertBits_filled (hTo : 0 < tobits) (hGroups : ∀ group ∈ groups, group < 2 ^ frombits) :
    ∃ fill < tobits,
      (convertBits frombits tobits true groups).1.length * tobits =
        groups.length * frombits + fill ∧
      (∀ group ∈ (convertBits frombits tobits true groups).1, group < 2 ^ tobits) ∧
      value (2 ^ tobits) (convertBits frombits tobits true groups).1 =
        value (2 ^ frombits) groups * 2 ^ fill := by
  have h := holds_ofGroups hTo hGroups
  have hBits := h.bits_lt
  simp only [convertBits, if_true]
  split
  case isTrue hLeft =>
      refine ⟨tobits - (ofGroups frombits tobits groups).bits, by omega, ?_, ?_, ?_⟩
      · rw [List.length_append, List.length_singleton, Nat.add_mul, h.length]
        omega
      · intro group hMem
        rcases List.mem_append.mp hMem with hOld | hNew
        · exact h.out_lt group hOld
        · rw [List.mem_singleton.mp hNew, padded, Nat.and_two_pow_sub_one_eq_mod]
          exact Nat.mod_lt _ (Nat.two_pow_pos tobits)
      · have hPow : 2 ^ tobits = 2 ^ (ofGroups frombits tobits groups).bits *
            2 ^ (tobits - (ofGroups frombits tobits groups).bits) := by
          rw [← Nat.pow_add, Nat.add_sub_cancel' hBits.le]
        rw [value_concat, padded_eq hBits.le, h.number, Nat.add_mul, Nat.mul_assoc, ← hPow]
  case isFalse hNone =>
      obtain hZero : (ofGroups frombits tobits groups).bits = 0 := not_not.mp hNone
      refine ⟨0, hTo, ?_, h.out_lt, ?_⟩
      · rw [h.length, hZero]
        rfl
      · rw [h.number, hZero, Nat.pow_zero, Nat.mod_one, Nat.mul_one, Nat.mul_one, Nat.add_zero]

/-- Without padding, what does not fill a group is left over. The result tells whether
less than a group that came in is left, and only zeros. -/
theorem convertBits_cut (hTo : 0 < tobits) (hGroups : ∀ group ∈ groups, group < 2 ^ frombits) :
    ∃ left tail, left < tobits ∧ tail < 2 ^ left ∧
      groups.length * frombits =
        (convertBits frombits tobits false groups).1.length * tobits + left ∧
      (∀ group ∈ (convertBits frombits tobits false groups).1, group < 2 ^ tobits) ∧
      value (2 ^ frombits) groups =
        value (2 ^ tobits) (convertBits frombits tobits false groups).1 * 2 ^ left + tail ∧
      ((convertBits frombits tobits false groups).2 = true ↔ left < frombits ∧ tail = 0) := by
  have h := holds_ofGroups hTo hGroups
  have hOut : (convertBits frombits tobits false groups).1 =
      (ofGroups frombits tobits groups).out := by
    simp only [convertBits, Bool.false_eq_true, if_false]
    split <;> rfl
  have hPadded : (ofGroups frombits tobits groups).padded tobits = 0 ↔
      (ofGroups frombits tobits groups).acc % 2 ^ (ofGroups frombits tobits groups).bits = 0 := by
    rw [padded_eq h.bits_lt.le, Nat.mul_eq_zero]
    simp
  rw [hOut]
  refine ⟨_, _, h.bits_lt, Nat.mod_lt _ (Nat.two_pow_pos _), h.length, h.out_lt, h.number, ?_⟩
  rw [← hPadded]
  simp only [convertBits, Bool.false_eq_true, if_false]
  split
  case isTrue hFails =>
      refine ⟨fun hTrue => absurd hTrue (by simp), fun hHolds => ?_⟩
      rcases hFails with hMany | hNonzero
      · exact absurd hMany (Nat.not_le.mpr hHolds.1)
      · exact absurd hHolds.2 hNonzero
  case isFalse hHolds =>
      simp only [not_or, Nat.not_le, not_not] at hHolds
      exact ⟨fun _ => hHolds, fun _ => rfl⟩

end OpenCbdc

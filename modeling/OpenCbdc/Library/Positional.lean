import Mathlib.Data.Nat.Digits.Defs

/-! Numbers by their digits in a base, the most significant digit first. -/
namespace Positional

variable {base : Nat} {digits others : List Nat}

def value (base : Nat) (digits : List Nat) : Nat := Nat.ofDigits base digits.reverse

@[simp] theorem value_nil : value base [] = 0 := rfl

theorem value_concat (digits : List Nat) (digit : Nat) :
    value base (digits ++ [digit]) = value base digits * base + digit := by
  rw [value, List.reverse_append, List.reverse_singleton, List.singleton_append, Nat.ofDigits_cons,
    value, Nat.add_comm, Nat.mul_comm]

theorem value_cons (digit : Nat) (digits : List Nat) :
    value base (digit :: digits) = digit * base ^ digits.length + value base digits := by
  rw [value, List.reverse_cons, Nat.ofDigits_append, List.length_reverse, Nat.ofDigits_singleton,
    value, Nat.add_comm, Nat.mul_comm]

theorem value_lt (hBase : 1 < base) (h : ∀ digit ∈ digits, digit < base) :
    value base digits < base ^ digits.length := by
  have hReverse : ∀ digit ∈ digits.reverse, digit < base := by simpa using h
  simpa [value] using Nat.ofDigits_lt_base_pow_length hBase hReverse

/-- Digits of the same number are the same, if there are as many. -/
theorem eq_of_value_eq (hBase : 1 < base) (hLength : digits.length = others.length)
    (hDigits : ∀ digit ∈ digits, digit < base) (hOthers : ∀ digit ∈ others, digit < base)
    (h : value base digits = value base others) : digits = others := by
  apply List.reverse_inj.mp
  exact Nat.ofDigits_inj_of_len_eq hBase (by simpa using hLength) (by simpa using hDigits)
    (by simpa using hOthers) h

/-- The same for elements that have a digit each. -/
theorem eq_of_value_map_eq {α : Type} {digitOf : α → Nat} (hDigitOf : Function.Injective digitOf)
    {first second : List α} (hBase : 1 < base) (hLength : first.length = second.length)
    (hFirst : ∀ digit ∈ first.map digitOf, digit < base)
    (hSecond : ∀ digit ∈ second.map digitOf, digit < base)
    (h : value base (first.map digitOf) = value base (second.map digitOf)) : first = second := by
  have hMaps := eq_of_value_eq hBase (by simpa using hLength) hFirst hSecond h
  exact (List.map_inj_right fun _ _ hSame => hDigitOf hSame).mp hMaps

end Positional

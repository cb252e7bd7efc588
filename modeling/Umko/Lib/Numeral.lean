import Mathlib.Data.Nat.Digits.Lemmas

/-!
# Numerals

Numbers in a base as lists of digits, the highest digit first, as a routine that writes a number
from the end of a buffer leaves them there.
-/

namespace Lib.Numeral

/-- The digits of a number; none for `0`. -/
def numeral (b n : ℕ) : List ℕ := (Nat.digits b n).reverse

/-- The number of some digits. -/
def value (b : ℕ) (l : List ℕ) : ℕ := Nat.ofDigits b l.reverse

section Numeral

variable {b n k : ℕ} {l m : List ℕ}

@[simp] theorem numeral_zero (b : ℕ) : numeral b 0 = [] := by simp [numeral]

theorem numeral_eq (hb : 1 < b) (hn : n ≠ 0) : numeral b n = numeral b (n / b) ++ [n % b] := by
  rw [numeral, Nat.digits_def' hb (Nat.pos_of_ne_zero hn), List.reverse_cons]
  rfl

theorem lt_of_mem_numeral (hb : 1 < b) {d : ℕ} (hd : d ∈ numeral b n) : d < b :=
  Nat.digits_lt_base hb (List.mem_reverse.mp hd)

theorem length_numeral_le_iff (hb : 1 < b) : (numeral b n).length ≤ k ↔ n < b ^ k := by
  rw [numeral, List.length_reverse, Nat.digits_length_le_iff hb]

theorem numeral_ne_nil (hn : n ≠ 0) : numeral b n ≠ [] := by
  rw [numeral, Ne, List.reverse_eq_nil_iff, Nat.digits_eq_nil_iff_eq_zero]
  exact hn

/-- **Digits read back as their number.** -/
@[simp] theorem value_numeral (b n : ℕ) : value b (numeral b n) = n := by
  rw [value, numeral, List.reverse_reverse, Nat.ofDigits_digits]

theorem value_append (b : ℕ) (l m : List ℕ) :
    value b (l ++ m) = value b m + b ^ m.length * value b l := by
  rw [value, List.reverse_append, Nat.ofDigits_append, List.length_reverse]
  rfl

@[simp] theorem value_zeros (b k : ℕ) : value b (List.replicate k 0) = 0 := by
  rw [value, List.reverse_replicate, Nat.ofDigits_replicate_zero]

theorem value_zeros_append (b k : ℕ) (l : List ℕ) :
    value b (List.replicate k 0 ++ l) = value b l := by
  rw [value_append, value_zeros, Nat.mul_zero, Nat.add_zero]

theorem value_append_zeros (b k : ℕ) (l : List ℕ) :
    value b (l ++ List.replicate k 0) = b ^ k * value b l := by
  rw [value_append, value_zeros, List.length_replicate, Nat.zero_add]

end Numeral

end Lib.Numeral

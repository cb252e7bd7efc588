import Mathlib

/-!
# Bit fields of words and signed ranges

`setField w s n v` is the word `w` with its `n` bits from bit `s` on replaced by the low bits of
`v`: what `(w & ~(mask << s)) | ((v & mask) << s)` computes. The second half is about the sign
tests of relocation code: an arithmetic shift divides, and a value fits a signed field when all
bits from the field's sign bit on are equal.
-/

namespace Lib.BitField

variable {w u : ℕ}

/-! ### Fields -/

/-- The word `x` with the `n` bits from bit `s` on replaced by the low bits of `v`. -/
def setField (x : BitVec w) (s n : ℕ) (v : BitVec u) : BitVec w :=
  BitVec.ofFnLE fun i : Fin w =>
    if s ≤ i.val ∧ i.val < s + n then v.getLsbD (i - s) else x.getLsbD i

theorem getLsbD_setField (x : BitVec w) (s n : ℕ) (v : BitVec u) {i : ℕ} (h : i < w) :
    (setField x s n v).getLsbD i =
      if s ≤ i ∧ i < s + n then v.getLsbD (i - s) else x.getLsbD i := by
  rw [BitVec.getLsbD_eq_getElem h, setField, BitVec.getElem_ofFnLE]

theorem setField_congr (x : BitVec w) {s n : ℕ} {u' : ℕ} {v : BitVec u} {v' : BitVec u'}
    (h : ∀ i < n, v.getLsbD i = v'.getLsbD i) : setField x s n v = setField x s n v' := by
  apply BitVec.eq_of_getLsbD_eq
  intro i hi
  rw [getLsbD_setField x s n v hi, getLsbD_setField x s n v' hi]
  split
  · exact h _ (by omega)
  · rfl

theorem extract_setField (x : BitVec w) {s n : ℕ} (v : BitVec u) (h : s + n ≤ w) :
    (setField x s n v).extractLsb' s n = v.setWidth n := by
  apply BitVec.eq_of_getLsbD_eq
  intro i hi
  rw [BitVec.getLsbD_extractLsb', BitVec.getLsbD_setWidth, getLsbD_setField x s n v (by omega),
    if_pos (by omega), Nat.add_sub_cancel_left]

theorem extract_setField_of_disjoint (x : BitVec w) {s n s' n' : ℕ} (v : BitVec u)
    (h : s' + n' ≤ s ∨ s + n ≤ s') (hw : s' + n' ≤ w) :
    (setField x s n v).extractLsb' s' n' = x.extractLsb' s' n' := by
  apply BitVec.eq_of_getLsbD_eq
  intro i hi
  rw [BitVec.getLsbD_extractLsb', BitVec.getLsbD_extractLsb',
    getLsbD_setField x s n v (by omega), if_neg (by omega)]

theorem getLsbD_mask {n i : ℕ} (hn : n < w) : ((1#w <<< n) - 1#w).getLsbD i = decide (i < n) := by
  have h1 : (1#w <<< n).toNat = 2 ^ n := by
    rw [BitVec.toNat_shiftLeft, BitVec.toNat_ofNat,
      Nat.mod_eq_of_lt (Nat.one_lt_two_pow (by omega)), Nat.one_shiftLeft,
      Nat.mod_eq_of_lt (Nat.pow_lt_pow_right (by omega) hn)]
  have h2 : (1#w).toNat = 1 := by
    rw [BitVec.toNat_ofNat, Nat.mod_eq_of_lt (Nat.one_lt_two_pow (by omega))]
  rw [← BitVec.testBit_toNat, BitVec.toNat_sub_of_le (by
    rw [BitVec.le_def, h1, h2]; exact Nat.one_le_two_pow), h1, h2, Nat.testBit_two_pow_sub_one]

/-! ### Masks -/

theorem and_or_eq_iff (x a b : BitVec w) :
    x &&& (a ||| b) = a ||| b ↔ x &&& a = a ∧ x &&& b = b := by
  refine ⟨fun h => ⟨?_, ?_⟩, fun ⟨h1, h2⟩ => ?_⟩
  · have ha : a = (a ||| b) &&& a := by
      apply BitVec.eq_of_getLsbD_eq
      intro i hi
      simp only [BitVec.getLsbD_and, BitVec.getLsbD_or]
      grind
    rw [ha, ← BitVec.and_assoc, h]
  · have hb : b = (a ||| b) &&& b := by
      apply BitVec.eq_of_getLsbD_eq
      intro i hi
      simp only [BitVec.getLsbD_and, BitVec.getLsbD_or]
      grind
    rw [hb, ← BitVec.and_assoc, h]
  · rw [BitVec.and_or_distrib_left, h1, h2]

theorem and_twoPow_eq_iff (x : BitVec w) {i : ℕ} (hi : i < w) :
    x &&& BitVec.twoPow w i = BitVec.twoPow w i ↔ x.getLsbD i = true := by
  have h0 : (0#w) ≠ BitVec.twoPow w i := fun h => by
    have := congrArg (·.getLsbD i) h
    simp [hi] at this
  rw [BitVec.and_twoPow]
  split <;> simp_all

theorem and_twoPow_eq_zero_iff (x : BitVec w) {i : ℕ} (hi : i < w) :
    x &&& BitVec.twoPow w i = 0#w ↔ x.getLsbD i = false := by
  have h0 : BitVec.twoPow w i ≠ 0#w := fun h => by
    have := congrArg (·.getLsbD i) h
    simp [hi] at this
  rw [BitVec.and_twoPow]
  split <;> simp_all

/-! ### Signed ranges -/

theorem toInt_sshiftRight (x : BitVec w) (s : ℕ) : (x.sshiftRight s).toInt = x.toInt / 2 ^ s := by
  rw [BitVec.toInt_sshiftRight, Int.shiftRight_eq_div_pow]
  norm_cast

theorem sshiftRight_mem (x : BitVec w) (s : ℕ) (a b : ℤ) :
    (a ≤ (x.sshiftRight s).toInt ∧ (x.sshiftRight s).toInt < b) ↔
      (a * 2 ^ s ≤ x.toInt ∧ x.toInt < b * 2 ^ s) := by
  have h : (0 : ℤ) < 2 ^ s := by positivity
  rw [toInt_sshiftRight, Int.le_ediv_iff_mul_le h, Int.ediv_lt_iff_lt_mul h]

/-- An unsigned bound on a word that is read as signed: below half the range the two readings of
the bound agree, and a negative word is above it. -/
theorem toNat_le_iff {n : ℕ} (x : BitVec 64) (hn : n < 2 ^ 63) :
    x.toNat ≤ n ↔ 0 ≤ x.toInt ∧ x.toInt < n + 1 := by
  have := x.isLt
  rw [BitVec.toInt_eq_toNat_cond]
  split <;> omega

theorem toNat_lt_of_toInt {x : BitVec 64} {n : ℕ} (h0 : 0 ≤ x.toInt) (h : x.toInt < 2 ^ n) :
    x.toNat < 2 ^ n := by
  have hx : x.toInt = x.toNat := by
    have := x.isLt
    rw [BitVec.toInt_eq_toNat_cond] at h0 ⊢
    split at h0 <;> split <;> omega
  rw [hx] at h
  exact_mod_cast h

theorem toNat_lt_iff_toInt {x : BitVec 64} {n : ℕ} (h : 0 ≤ x.toInt) :
    x.toNat < 2 ^ n ↔ -2 ^ n ≤ x.toInt ∧ x.toInt < 2 ^ n := by
  refine ⟨fun hlt => ?_, fun hlt => toNat_lt_of_toInt h hlt.2⟩
  have hpow : (0 : ℤ) < 2 ^ n := by positivity
  have hx : x.toInt ≤ x.toNat := by
    rw [BitVec.toInt_eq_toNat_cond]
    split <;> omega
  have hcast : (x.toNat : ℤ) < 2 ^ n := by exact_mod_cast hlt
  exact ⟨by omega, by omega⟩

theorem toInt_not (x : BitVec 64) : (~~~x).toInt = -x.toInt - 1 := by
  have := x.isLt
  rw [BitVec.toInt_eq_toNat_cond, BitVec.toInt_eq_toNat_cond, BitVec.toNat_not]
  split <;> split <;> omega

/-- **The sign test**: a word is `0` or `-1` when its successor is below `2`. -/
theorem toNat_add_one_lt_two (x : BitVec 64) :
    (x + 1#64).toNat < 2 ↔ -1 ≤ x.toInt ∧ x.toInt < 1 := by
  have := x.isLt
  rw [BitVec.toInt_eq_toNat_cond, BitVec.toNat_add, BitVec.toNat_ofNat]
  split <;> omega

theorem sshiftRight_and_not (x m : BitVec 64) {s : ℕ} (hm : ∀ i, m.getLsbD i = decide (i < s))
    (hs : s < 64) : (x &&& ~~~m).sshiftRight s = x.sshiftRight s := by
  apply BitVec.eq_of_getLsbD_eq
  intro i hi
  have hmsb : (x &&& ~~~m).msb = x.msb := by
    simp only [BitVec.msb_eq_getLsbD_last, BitVec.getLsbD_and, BitVec.getLsbD_not, hm]
    simp [show ¬ 63 < s by omega]
  simp only [BitVec.getLsbD_sshiftRight, hmsb, BitVec.getLsbD_and, BitVec.getLsbD_not, hm]
  split
  · simp [*]
  · rfl

/-! ### Values that fit a field -/

theorem eq_zeroExtend_iff (x : BitVec 64) {n : ℕ} (hn : n ≤ 64) :
    x = (x.setWidth n).setWidth 64 ↔ x.toNat < 2 ^ n := by
  have hle : 2 ^ n ≤ 2 ^ 64 := Nat.pow_le_pow_right (by omega) hn
  have hx := Nat.mod_lt x.toNat (show 0 < 2 ^ n by positivity)
  rw [← BitVec.toNat_inj, BitVec.toNat_setWidth, BitVec.toNat_setWidth,
    Nat.mod_eq_of_lt (Nat.lt_of_lt_of_le hx hle)]
  exact ⟨fun h => h ▸ hx, fun h => (Nat.mod_eq_of_lt h).symm⟩

theorem eq_signExtend_iff (x : BitVec 64) {n : ℕ} (h0 : 0 < n) (hn : n ≤ 64) :
    x = (x.setWidth n).signExtend 64 ↔ -2 ^ (n - 1) ≤ x.toInt ∧ x.toInt < 2 ^ (n - 1) := by
  rw [← BitVec.toInt_inj, BitVec.toInt_signExtend_of_le hn]
  constructor
  · intro h
    rw [h]
    exact ⟨BitVec.le_toInt _, BitVec.toInt_lt⟩
  · rintro ⟨h1, h2⟩
    have hb : (x.setWidth n).toInt = x.toInt.bmod (2 ^ n) := by
      rw [BitVec.toInt_setWidth, BitVec.toInt_eq_toNat_bmod,
        Int.bmod_bmod_of_dvd (pow_dvd_pow 2 hn)]
    obtain ⟨k, rfl⟩ : ∃ k, n = k + 1 := ⟨n - 1, by omega⟩
    have hp : ((2 ^ (k + 1) : ℕ) : ℤ) = 2 * 2 ^ k := by push_cast; ring
    simp only [Nat.add_sub_cancel] at h1 h2
    rw [hb, Int.bmod_eq_of_le] <;> rw [hp] <;> omega

end Lib.BitField

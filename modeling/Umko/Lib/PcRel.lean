import Umko.Lib.A64

/-!
# PC-relative operands

An operand that is a signed displacement from the address of its word, in units of `2 ^ scale`
bytes. It holds the displacement to an address exactly when that displacement is in reach: a
multiple of the unit, and in the signed range of the operand. The operands are those of the branches
and literals of A64, of ADR, and a whole word.
-/

namespace Lib.PcRel

open Lib.BitField Lib.A64

/-! ### Displacements -/

section Disp

variable {n k : ℕ}

/-- The displacement of an immediate, in units of `2 ^ k` bytes. -/
def disp (k : ℕ) (imm : BitVec n) : BitVec 64 := imm.signExtend 64 * BitVec.ofNat 64 (2 ^ k)

/-- The displacements of `n` bits in units of `2 ^ k` bytes. -/
def InReach (n k : ℕ) (d : BitVec 64) : Prop :=
  2 ^ k ∣ d.toNat ∧ -2 ^ (n + k - 1) ≤ d.toInt ∧ d.toInt < 2 ^ (n + k - 1)

instance (n k : ℕ) (d : BitVec 64) : Decidable (InReach n k d) :=
  inferInstanceAs (Decidable (_ ∧ _ ∧ _))

theorem disp_eq_ofInt (imm : BitVec n) : disp k imm = BitVec.ofInt 64 (imm.toInt * 2 ^ k) := by
  rw [BitVec.ofInt_mul]
  refine congrArg (BitVec.ofInt 64 imm.toInt * ·) ?_
  rw [← BitVec.ofInt_natCast]
  norm_cast

theorem toInt_disp (h0 : 0 < n) (h : n + k ≤ 64) (imm : BitVec n) :
    (disp k imm).toInt = imm.toInt * 2 ^ k ∧
      -2 ^ (n + k - 1) ≤ imm.toInt * 2 ^ k ∧ imm.toInt * 2 ^ k < 2 ^ (n + k - 1) := by
  have hk : (0 : ℤ) < 2 ^ k := by positivity
  have hpow : (2 : ℤ) ^ (n + k - 1) = 2 ^ (n - 1) * 2 ^ k := by
    rw [← pow_add]
    congr 1
    omega
  have hlo := mul_le_mul_of_nonneg_right (BitVec.le_toInt imm) hk.le
  have hhi := mul_lt_mul_of_pos_right (@BitVec.toInt_lt n imm) hk
  rw [neg_mul, ← hpow] at hlo
  rw [← hpow] at hhi
  have hle : (2 : ℤ) ^ (n + k - 1) ≤ 2 ^ 63 := pow_le_pow_right₀ (by norm_num) (by omega)
  refine ⟨?_, hlo, hhi⟩
  rw [disp_eq_ofInt, BitVec.toInt_ofInt, Int.bmod_eq_of_le]
  · norm_num at hle ⊢
    omega
  · norm_num at hle ⊢
    omega

theorem dvd_toNat_iff (hk : k ≤ 64) (d : BitVec 64) : 2 ^ k ∣ d.toNat ↔ (2 : ℤ) ^ k ∣ d.toInt := by
  have hdvd : (2 : ℤ) ^ k ∣ ((2 ^ 64 : ℕ) : ℤ) := by
    push_cast
    exact pow_dvd_pow 2 hk
  have hnat : 2 ^ k ∣ d.toNat ↔ (2 : ℤ) ^ k ∣ (d.toNat : ℤ) := by
    rw [← Int.natCast_dvd_natCast]
    norm_cast
  rw [hnat, BitVec.toInt_eq_toNat_cond]
  split
  · rfl
  · exact (dvd_sub_left hdvd).symm

/-- **A displacement is what its bits hold** exactly when it is in reach. -/
theorem disp_extract_eq_iff (h0 : 0 < n) (h : n + k ≤ 64) (d : BitVec 64) :
    disp k (d.extractLsb' k n) = d ↔ InReach n k d := by
  constructor
  · intro hd
    obtain ⟨heq, hlo, hhi⟩ := toInt_disp h0 h (d.extractLsb' k n)
    rw [hd] at heq
    rw [← heq] at hlo hhi
    exact ⟨(dvd_toNat_iff (by omega) d).mpr ⟨_, heq.trans (mul_comm ..)⟩, hlo, hhi⟩
  · rintro ⟨hdvd, hlo, hhi⟩
    have hk : (0 : ℤ) < 2 ^ k := by positivity
    have hpow : (2 : ℤ) ^ (n + k - 1) = 2 ^ (n - 1) * 2 ^ k := by
      rw [← pow_add]
      congr 1
      omega
    have hshift : d.extractLsb' k n = (d.sshiftRight k).setWidth n := by
      apply BitVec.eq_of_getLsbD_eq
      intro i hi
      rw [BitVec.getLsbD_extractLsb', BitVec.getLsbD_setWidth, BitVec.getLsbD_sshiftRight]
      simp [hi, show ¬ 64 ≤ i by omega, show k + i < 64 by omega]
    -- no bit above the immediate is lost
    have hfit : d.sshiftRight k = ((d.sshiftRight k).setWidth n).signExtend 64 := by
      refine (eq_signExtend_iff _ h0 (by omega)).mpr ((sshiftRight_mem d k _ _).mpr ?_)
      rw [neg_mul, ← hpow]
      exact ⟨hlo, hhi⟩
    apply BitVec.eq_of_toInt_eq
    have himm : ((d.sshiftRight k).setWidth n).toInt = d.toInt / 2 ^ k := by
      have := congrArg BitVec.toInt hfit
      rw [toInt_sshiftRight, BitVec.toInt_signExtend_of_le (by omega)] at this
      exact this.symm
    rw [(toInt_disp h0 h _).1, hshift, himm]
    exact Int.ediv_mul_cancel ((dvd_toNat_iff (by omega) d).mp hdvd)

end Disp

/-! ### Operands -/

/-- An operand of a 32-bit word: the bits of its immediate and where they are, and its unit. -/
structure Operand where
  bits : ℕ
  scale : ℕ
  get : BitVec 32 → BitVec bits
  pos : 0 < bits
  fits : bits + scale ≤ 64

/-- The address of the operand of the word `w` at `pc`. -/
def Operand.target (o : Operand) (pc : BitVec 64) (w : BitVec 32) : BitVec 64 :=
  pc + disp o.scale (o.get w)

def imm26 : Operand := ⟨26, 2, fun w => w.extractLsb' 0 26, by omega, by omega⟩

/-- The 19-bit immediate of a conditional or comparing branch, or of the load of a literal. -/
def imm19 : Operand := ⟨19, 2, fun w => w.extractLsb' 5 19, by omega, by omega⟩

def imm14 : Operand := ⟨14, 2, fun w => w.extractLsb' 5 14, by omega, by omega⟩

def adr : Operand := ⟨21, 0, adrpImm, by omega, by omega⟩

def disp32 : Operand := ⟨32, 0, id, by omega, by omega⟩

def Operand.Reaches (o : Operand) (d : BitVec 64) : Prop := InReach o.bits o.scale d

instance (o : Operand) (d : BitVec 64) : Decidable (o.Reaches d) :=
  inferInstanceAs (Decidable (InReach _ _ _))

/-- **A word with the bits of the displacement to `val`** in its operand addresses `val` exactly when
the operand reaches it. -/
theorem Operand.target_eq_iff (o : Operand) {pc val : BitVec 64} {w : BitVec 32}
    (hw : o.get w = (val - pc).extractLsb' o.scale o.bits) :
    o.target pc w = val ↔ o.Reaches (val - pc) := by
  rw [Operand.target, Operand.Reaches, hw, ← disp_extract_eq_iff o.pos o.fits, @eq_comm _ _ val,
    ← sub_eq_iff_eq_add', eq_comm]

end Lib.PcRel

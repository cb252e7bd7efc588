import Umko.Reloc.AArch64
import Umko.Lib.Pages

/-!
# AArch64 relocation, type by type

What each type computes, the range it accepts and the field it writes, in a table of its own; and
that `do_relocate_add` does exactly this, whatever the value and the place. The parameters that the
switch passes to its three routines are checked against the table case by case; the work is in the
routines: their test for a cut value is a test of sign bits.
-/

namespace Umko.AArch64

open Lib.Memory Lib.Patch Lib.BitField

/-! ### The table -/

/-- The number `X` of a type: `S + A`, its distance from the place, or the distance of the pages. -/
def RelocType.x (t : RelocType) (place : Addr) (val : BitVec 64) : BitVec 64 :=
  match t with
  | .prel64 | .prel32 | .prel16 | .p32Prel32 | .p32Prel16
  | .movwPrelG0 | .movwPrelG0Nc | .movwPrelG1 | .movwPrelG1Nc | .movwPrelG2 | .movwPrelG2Nc
  | .movwPrelG3 | .p32MovwPrelG0 | .p32MovwPrelG0Nc | .p32MovwPrelG1
  | .ldPrelLo19 | .p32LdPrelLo19 | .adrPrelLo21 | .p32AdrPrelLo21
  | .tstbr14 | .p32Tstbr14 | .condbr19 | .p32Condbr19
  | .jump26 | .p32Jump26 | .call26 | .p32Call26 => val - place
  | .adrPrelPgHi21 | .adrPrelPgHi21Nc | .p32AdrPrelPgHi21 => pageOf val - pageOf place
  | _ => val

/-- The range of `X` that a type accepts, as signed bounds, the upper one not included; `none` for
the types without a check. -/
def RelocType.range : RelocType → Option (ℤ × ℤ)
  | .abs16 | .p32Abs16 => some (0, 2 ^ 16)
  | .abs32 | .p32Abs32 => some (0, 2 ^ 32)
  | .prel16 | .p32Prel16 => some (-2 ^ 15, 2 ^ 15)
  | .prel32 | .p32Prel32 => some (-2 ^ 31, 2 ^ 31)
  | .movwUabsG0 | .p32MovwUabsG0 => some (0, 2 ^ 16)
  | .movwUabsG1 | .p32MovwUabsG1 => some (0, 2 ^ 32)
  | .movwUabsG2 => some (0, 2 ^ 48)
  | .movwSabsG0 | .p32MovwSabsG0 | .movwPrelG0 | .p32MovwPrelG0 => some (-2 ^ 16, 2 ^ 16)
  | .movwSabsG1 | .movwPrelG1 | .p32MovwPrelG1 => some (-2 ^ 32, 2 ^ 32)
  | .movwSabsG2 | .movwPrelG2 => some (-2 ^ 48, 2 ^ 48)
  | .ldPrelLo19 | .p32LdPrelLo19 | .adrPrelLo21 | .p32AdrPrelLo21 | .condbr19 | .p32Condbr19 =>
    some (-2 ^ 20, 2 ^ 20)
  | .adrPrelPgHi21 | .p32AdrPrelPgHi21 => some (-2 ^ 32, 2 ^ 32)
  | .tstbr14 | .p32Tstbr14 => some (-2 ^ 15, 2 ^ 15)
  | .jump26 | .p32Jump26 | .call26 | .p32Call26 => some (-2 ^ 27, 2 ^ 27)
  | _ => Option.none

/-- What is written at the place. -/
inductive Field where
  /-- Nothing. -/
  | none
  /-- A little-endian number of `n` bits. -/
  | data (n : ℕ)
  /-- An instruction, whose `n` bits from bit `s` on become the `len` bits of `X` from `lsb` on. -/
  | imm (s n lsb len : ℕ)
  /-- An ADR or ADRP, whose bits 29 and 30 become the bits of `X` from `lsb` on and whose 19 bits
  from bit 5 on the next ones. -/
  | adr (lsb : ℕ)
  /-- A MOVZ or MOVN, rewritten to the one that the sign of `X` asks for, with the bits of `X`, or
  of its complement, from `lsb` on. -/
  | movw (lsb : ℕ)
  deriving DecidableEq

def RelocType.field : RelocType → Field
  | .none => .none
  | .abs64 | .prel64 => .data 64
  | .abs32 | .p32Abs32 | .prel32 | .p32Prel32 => .data 32
  | .abs16 | .p32Abs16 | .prel16 | .p32Prel16 => .data 16
  | .movwUabsG0 | .movwUabsG0Nc | .p32MovwUabsG0 | .p32MovwUabsG0Nc | .movwPrelG0Nc
  | .p32MovwPrelG0Nc => .imm 5 16 0 16
  | .movwUabsG1 | .movwUabsG1Nc | .p32MovwUabsG1 | .movwPrelG1Nc => .imm 5 16 16 16
  | .movwUabsG2 | .movwUabsG2Nc | .movwPrelG2Nc => .imm 5 16 32 16
  | .movwUabsG3 => .imm 5 16 48 16
  | .movwSabsG0 | .p32MovwSabsG0 | .movwPrelG0 | .p32MovwPrelG0 => .movw 0
  | .movwSabsG1 | .movwPrelG1 | .p32MovwPrelG1 => .movw 16
  | .movwSabsG2 | .movwPrelG2 => .movw 32
  | .movwPrelG3 => .movw 48
  | .ldPrelLo19 | .p32LdPrelLo19 | .condbr19 | .p32Condbr19 => .imm 5 19 2 19
  | .adrPrelLo21 | .p32AdrPrelLo21 => .adr 0
  | .adrPrelPgHi21 | .adrPrelPgHi21Nc | .p32AdrPrelPgHi21 => .adr 12
  | .addAbsLo12Nc | .p32AddAbsLo12Nc | .ldst8AbsLo12Nc => .imm 10 12 0 12
  | .ldst16AbsLo12Nc | .p32Ldst16AbsLo12Nc => .imm 10 12 1 11
  | .ldst32AbsLo12Nc | .p32Ldst32AbsLo12Nc => .imm 10 12 2 10
  | .ldst64AbsLo12Nc | .p32Ldst64AbsLo12Nc => .imm 10 12 3 9
  | .ldst128AbsLo12Nc | .p32Ldst128AbsLo12Nc => .imm 10 12 4 8
  | .tstbr14 | .p32Tstbr14 => .imm 5 14 2 14
  | .jump26 | .p32Jump26 | .call26 | .p32Call26 => .imm 0 26 2 26

def Field.isInsn : Field → Bool
  | .none | .data _ => false
  | _ => true

/-- The instruction `old` with the bits of `x` in the field. -/
def Field.insn (f : Field) (x : BitVec 64) (old : BitVec 32) : BitVec 32 :=
  match f with
  | .none | .data _ => old
  | .imm s n lsb len => setField old s n (x.extractLsb' lsb len)
  | .adr lsb => setField (setField old 29 2 (x.extractLsb' lsb 2)) 5 19 (x.extractLsb' (lsb + 2) 19)
  | .movw lsb =>
    if 0 ≤ x.toInt then setField (setField old 29 2 0b10#2) 5 16 (x.extractLsb' lsb 16)
    else setField (setField old 29 2 0b00#2) 5 16 ((~~~x).extractLsb' lsb 16)

/-- The memory with `x` written to the field at `place`. -/
def Field.write (f : Field) (x : BitVec 64) (place : Addr) (m : Mem) : Mem :=
  match f with
  | .none => m
  | .data n => store m place (x.setWidth n)
  | f => store m place (f.insn x (load 32 m place))

/-- A relocation result is exact: success for the numbers of the range and no others, and the field
written, with nothing else changed. -/
structure Exact (range : Option (ℤ × ℤ)) (f : Field) (x : BitVec 64) (place : Addr) (m : Mem)
    (r : ℤ × Mem) : Prop where
  verdict : r.1 = 0 ↔ ∀ b ∈ range, b.1 ≤ x.toInt ∧ x.toInt < b.2
  written : r.2 = f.write x place m

/-! ### The routines -/

theorem getLsbD_bit_sub {n i : ℕ} (hn : n < 64) : (bit n - 1#64).getLsbD i = decide (i < n) :=
  getLsbD_mask hn

theorem updateImm_eq_setField (insn : BitVec 32) (imm : BitVec 64) {s n : ℕ} (h : s + n ≤ 32) :
    updateImm insn ((bit n - 1#64).setWidth 32) s imm = setField insn s n imm := by
  apply BitVec.eq_of_getLsbD_eq
  intro i hi
  rw [getLsbD_setField insn s n imm hi]
  unfold updateImm
  simp only [BitVec.getLsbD_or, BitVec.getLsbD_and, BitVec.getLsbD_not, BitVec.getLsbD_setWidth,
    BitVec.getLsbD_shiftLeft, getLsbD_bit_sub (show n < 64 by omega), hi]
  by_cases h1 : i < s
  · simp [h1]
  · by_cases h2 : i < s + n
    · have h3 : i - s < n := by omega
      have h4 : i - s < 32 := by omega
      have h5 : i < 64 := by omega
      have h6 : i - s < 64 := by omega
      simp [h1, h2, h3, h4, h5, h6]
    · have h3 : ¬ i - s < n := by omega
      simp [h1, h2, h3]

theorem encodeImmediate_adr {insn : BitVec 32} (h : insn ≠ breakFault) (imm : BitVec 64) :
    encodeImmediate .adr insn imm =
      setField (setField insn 29 2 (imm.extractLsb' 0 2)) 5 19 (imm.extractLsb' 2 19) := by
  have hlo : ∀ i, adrImmLomask.getLsbD i = decide (i < 2) := fun i => getLsbD_mask (by omega)
  have hhi : ∀ i, adrImmHimask.getLsbD i = decide (i < 19) := fun i =>
    @getLsbD_mask 32 19 i (by omega)
  apply BitVec.eq_of_getLsbD_eq
  intro i hi
  rw [getLsbD_setField _ _ _ _ hi, getLsbD_setField _ _ _ _ hi]
  unfold encodeImmediate updateImm
  rw [if_neg h]
  have h64 : i < 64 := by omega
  simp only [BitVec.getLsbD_or, BitVec.getLsbD_and, BitVec.getLsbD_not, BitVec.getLsbD_setWidth,
    BitVec.getLsbD_shiftLeft, BitVec.getLsbD_ushiftRight, BitVec.getLsbD_extractLsb', hlo, hhi, hi,
    h64]
  grind

theorem encodeImmediate_field {type : ImmType} {s n : ℕ} {insn : BitVec 32}
    (ht : type ≠ .adr) (hm : getImmShiftMask type = some ((bit n - 1#64).setWidth 32, s))
    (hsn : s + n ≤ 32) (h : insn ≠ breakFault) (imm : BitVec 64) :
    encodeImmediate type insn imm = setField insn s n imm := by
  unfold encodeImmediate
  rw [if_neg h, hm]
  cases type with
  | adr => exact absurd rfl ht
  | _ => exact updateImm_eq_setField insn imm hsn

theorem getLsbD_imm (x : BitVec 64) {lsb len i : ℕ} (h : lsb + len < 64) :
    (x.sshiftRight lsb &&& ((bit (lsb + len) - 1#64) >>> lsb)).getLsbD i =
      (decide (i < len) && x.getLsbD (lsb + i)) := by
  rw [BitVec.getLsbD_and, BitVec.getLsbD_ushiftRight, getLsbD_bit_sub h,
    BitVec.getLsbD_sshiftRight]
  by_cases hi : i < len
  · have h1 : lsb + i < lsb + len := by omega
    have h2 : lsb + i < 64 := by omega
    have h3 : ¬ 64 ≤ i := by omega
    simp [hi, h2, h3]
  · have h1 : ¬ lsb + i < lsb + len := by omega
    simp [hi]

/-- **The overflow test of `reloc_insn_imm`**: the bits from the sign bit of the field on are not all
equal when the value is outside the range of the field. -/
theorem imm_overflow_iff (x : BitVec 64) {lsb len : ℕ} (h0 : 0 < len) (h : lsb + len < 64) :
    (((x.sshiftRight lsb &&& ~~~(((bit (lsb + len) - 1#64) >>> lsb) >>> (1 : ℕ))).sshiftRight
      (len - 1)) + 1).toNat ≥ 2 ↔
      ¬ (-2 ^ (lsb + len - 1) ≤ x.toInt ∧ x.toInt < 2 ^ (lsb + len - 1)) := by
  have hmask : ∀ i, (((bit (lsb + len) - 1#64) >>> lsb) >>> (1 : ℕ)).getLsbD i =
      decide (i < len - 1) := by
    intro i
    rw [BitVec.getLsbD_ushiftRight, BitVec.getLsbD_ushiftRight, getLsbD_bit_sub h]
    congr 1
    exact propext ⟨fun _ => by omega, fun _ => by omega⟩
  rw [sshiftRight_and_not _ _ hmask (by omega), ge_iff_le, ← not_lt,
    show (1 : BitVec 64) = 1#64 from rfl, toNat_add_one_lt_two, sshiftRight_mem, sshiftRight_mem]
  obtain ⟨k, rfl⟩ : ∃ k, len = k + 1 := ⟨len - 1, by omega⟩
  have hp : (2 : ℤ) ^ (lsb + (k + 1) - 1) = 2 ^ (k + 1 - 1) * 2 ^ lsb := by
    rw [← pow_add]
    congr 1
    omega
  rw [hp, neg_one_mul, one_mul, neg_mul]

section Routines

variable {op : RelocOp} {place : Addr} {val x : BitVec 64} {m : Mem} {lsb len : ℕ}

/-- The range that the fields of an instruction accept, as the result of a routine. -/
def rangeResult (lo hi : ℤ) (x : BitVec 64) : ℤ := if lo ≤ x.toInt ∧ x.toInt < hi then 0 else erange

theorem relocInsnImm_result (hx : doReloc op place val = x) (h0 : 0 < len) (h : lsb + len < 64)
    (type : ImmType) : relocInsnImm op place val lsb len type m =
      (rangeResult (-2 ^ (lsb + len - 1)) (2 ^ (lsb + len - 1)) x,
        store m place (encodeImmediate type (load 32 m place)
          (x.sshiftRight lsb &&& ((bit (lsb + len) - 1#64) >>> lsb)))) := by
  unfold relocInsnImm rangeResult
  rw [hx]
  dsimp only
  rw [if_congr (imm_overflow_iff x h0 h) rfl rfl, ite_not]

/-- **`reloc_insn_imm` on a field in one piece.** -/
theorem relocInsnImm_eq {type : ImmType} {s n : ℕ} (hx : doReloc op place val = x)
    (h0 : 0 < len) (h : lsb + len < 64) (ht : type ≠ .adr)
    (hm : getImmShiftMask type = some ((bit n - 1#64).setWidth 32, s)) (hsn : s + n ≤ 32)
    (hne : load 32 m place ≠ breakFault) : relocInsnImm op place val lsb len type m =
      (rangeResult (-2 ^ (lsb + len - 1)) (2 ^ (lsb + len - 1)) x,
        (Field.imm s n lsb len).write x place m) := by
  rw [relocInsnImm_result hx h0 h, encodeImmediate_field ht hm hsn hne]
  refine congrArg (fun w => (_, store m place w)) (setField_congr _ fun i hi => ?_)
  rw [getLsbD_imm x h, BitVec.getLsbD_extractLsb']

/-- **`reloc_insn_imm` on the field of ADR.** -/
theorem relocInsnImm_adr (hx : doReloc op place val = x) (h : lsb + 21 < 64)
    (hne : load 32 m place ≠ breakFault) : relocInsnImm op place val lsb 21 .adr m =
      (rangeResult (-2 ^ (lsb + 21 - 1)) (2 ^ (lsb + 21 - 1)) x,
        (Field.adr lsb).write x place m) := by
  rw [relocInsnImm_result hx (by omega) h, encodeImmediate_adr hne]
  have hlo : ∀ old : BitVec 32, setField old 29 2 ((x.sshiftRight lsb &&&
        ((bit (lsb + 21) - 1#64) >>> lsb)).extractLsb' 0 2) =
      setField old 29 2 (x.extractLsb' lsb 2) := by
    refine fun old => setField_congr _ fun i hi => ?_
    rw [BitVec.getLsbD_extractLsb', BitVec.getLsbD_extractLsb', getLsbD_imm x h, Nat.zero_add,
      decide_eq_true (show i < 21 by omega), Bool.true_and]
  have hhi : ∀ old : BitVec 32, setField old 5 19 ((x.sshiftRight lsb &&&
        ((bit (lsb + 21) - 1#64) >>> lsb)).extractLsb' 2 19) =
      setField old 5 19 (x.extractLsb' (lsb + 2) 19) := by
    refine fun old => setField_congr _ fun i hi => ?_
    rw [BitVec.getLsbD_extractLsb', BitVec.getLsbD_extractLsb', getLsbD_imm x h,
      decide_eq_true (show 2 + i < 21 by omega), Bool.true_and, Nat.add_assoc]
  rw [hlo, hhi]
  rfl

theorem setField_movw (old : BitVec 32) (x : BitVec 64) {lsb : ℕ} (h : lsb ≤ 48) :
    setField old 5 16 (x.sshiftRight lsb) = setField old 5 16 (x.extractLsb' lsb 16) := by
  refine setField_congr _ fun i hi => ?_
  have h1 : lsb + i < 64 := by omega
  have h2 : ¬ 64 ≤ i := by omega
  simp [BitVec.getLsbD_sshiftRight, h1, h2, hi]

theorem encodeImmediate_imm16 {insn : BitVec 32} (h : insn ≠ breakFault) (imm : BitVec 64) :
    encodeImmediate .imm16 insn imm = setField insn 5 16 imm :=
  encodeImmediate_field (by decide) rfl (by decide) h imm

theorem movkz_overflow_iff (x : BitVec 64) (lsb : ℕ) :
    (x.sshiftRight lsb).toNat > 65535 ↔ ¬ (0 ≤ x.toInt ∧ x.toInt < 2 ^ (16 + lsb)) := by
  rw [gt_iff_lt, ← not_le, toNat_le_iff _ (by omega)]
  have h := sshiftRight_mem x lsb 0 (2 ^ 16)
  rw [zero_mul, ← pow_add] at h
  rw [← h]
  norm_num

/-- **`reloc_insn_movw` without a change of the opcode.** -/
theorem relocInsnMovw_movkz (hx : doReloc op place val = x) (h : lsb ≤ 48)
    (hne : load 32 m place ≠ breakFault) : relocInsnMovw op place val lsb .movkz m =
      (rangeResult 0 (2 ^ (16 + lsb)) x, (Field.imm 5 16 lsb 16).write x place m) := by
  unfold relocInsnMovw movwInsnImm rangeResult
  rw [hx]
  dsimp only
  simp only [reduceCtorEq, if_false]
  rw [encodeImmediate_imm16 hne, setField_movw _ _ h, if_congr (movkz_overflow_iff x lsb) rfl rfl,
    ite_not]
  rfl

/-- The word differs from `AARCH64_BREAK_FAULT` beside the opcode bits 29 and 30. -/
def NotBreak (insn : BitVec 32) : Prop :=
  ∃ i < 32, i ≠ 29 ∧ i ≠ 30 ∧ insn.getLsbD i ≠ breakFault.getLsbD i

theorem NotBreak.ne {insn : BitVec 32} (h : NotBreak insn) : insn ≠ breakFault := by
  rintro rfl
  obtain ⟨i, -, -, -, hi⟩ := h
  exact hi rfl

theorem NotBreak.setField_ne {insn : BitVec 32} (h : NotBreak insn) (v : BitVec 2) :
    setField insn 29 2 v ≠ breakFault := by
  obtain ⟨i, hi, h29, h30, hne⟩ := h
  intro he
  have hbit := getLsbD_setField insn 29 2 v hi
  rw [he, if_neg (by omega)] at hbit
  exact hne hbit.symm

theorem getLsbD_opcodeMask (i : ℕ) :
    (3#32 <<< (29 : ℕ)).getLsbD i = decide (29 ≤ i ∧ i < 29 + 2) := by
  have h3 : (3#32).getLsbD (i - 29) = decide (i - 29 < 2) :=
    @getLsbD_mask 32 2 (i - 29) (by omega)
  rw [BitVec.getLsbD_shiftLeft, h3]
  grind

theorem opcode_movn (insn : BitVec 32) :
    insn &&& ~~~(3#32 <<< (29 : ℕ)) = setField insn 29 2 0b00#2 := by
  apply BitVec.eq_of_getLsbD_eq
  intro i hi
  rw [getLsbD_setField _ _ _ _ hi, BitVec.getLsbD_and, BitVec.getLsbD_not, getLsbD_opcodeMask]
  by_cases h : 29 ≤ i ∧ i < 29 + 2 <;> simp [h, hi]

theorem opcode_movz (insn : BitVec 32) :
    (insn &&& ~~~(3#32 <<< (29 : ℕ))) ||| (2#32 <<< (29 : ℕ)) = setField insn 29 2 0b10#2 := by
  have h2 : ∀ k, (2#32).getLsbD k = decide (1 = k) := by
    intro k
    rw [show 2#32 = BitVec.twoPow 32 1 by decide, BitVec.getLsbD_twoPow]
    simp
  have h2' : ∀ k, (0b10#2).getLsbD k = decide (1 = k) := by
    intro k
    rw [show 0b10#2 = BitVec.twoPow 2 1 by decide, BitVec.getLsbD_twoPow]
    simp
  rw [opcode_movn]
  apply BitVec.eq_of_getLsbD_eq
  intro i hi
  rw [BitVec.getLsbD_or, getLsbD_setField _ _ _ _ hi, getLsbD_setField _ _ _ _ hi,
    BitVec.getLsbD_shiftLeft, h2, h2']
  grind

theorem setField_movn (old : BitVec 32) (x : BitVec 64) {lsb : ℕ} (h : lsb ≤ 48) :
    setField old 5 16 (~~~(x.sshiftRight lsb)) = setField old 5 16 ((~~~x).extractLsb' lsb 16) := by
  refine setField_congr _ fun i hi => ?_
  have h1 : lsb + i < 64 := by omega
  have h2 : ¬ 64 ≤ i := by omega
  have h3 : i < 64 := by omega
  rw [BitVec.getLsbD_not, BitVec.getLsbD_extractLsb', BitVec.getLsbD_not,
    BitVec.getLsbD_sshiftRight]
  simp [h1, h2, h3, hi]

theorem movn_overflow_iff (x : BitVec 64) (lsb : ℕ) :
    (~~~(x.sshiftRight lsb)).toNat > 65535 ↔ ¬ (-2 ^ (16 + lsb) ≤ x.toInt ∧ x.toInt < 0) := by
  rw [gt_iff_lt, ← not_le, toNat_le_iff _ (by omega), toInt_not]
  have h := sshiftRight_mem x lsb (-2 ^ 16) 0
  rw [zero_mul, neg_mul, ← pow_add] at h
  rw [← h]
  push_cast
  omega

/-- **`reloc_insn_movw` with the opcode chosen by the sign.** -/
theorem relocInsnMovw_movnz (hx : doReloc op place val = x) (h : lsb ≤ 48)
    (hne : NotBreak (load 32 m place)) : relocInsnMovw op place val lsb .movnz m =
      (rangeResult (-2 ^ (16 + lsb)) (2 ^ (16 + lsb)) x, (Field.movw lsb).write x place m) := by
  have hpos : (0 : ℤ) < 2 ^ (16 + lsb) := by positivity
  unfold relocInsnMovw movwInsnImm rangeResult Field.write Field.insn
  rw [hx]
  simp only [if_true]
  by_cases hs : 0 ≤ x.toInt
  · have hr : (x.sshiftRight lsb).toNat > 65535 ↔
        ¬ (-2 ^ (16 + lsb) ≤ x.toInt ∧ x.toInt < 2 ^ (16 + lsb)) := by
      rw [movkz_overflow_iff]
      exact not_congr (and_congr_left fun _ => ⟨fun _ => by omega, fun _ => hs⟩)
    simp only [if_pos hs]
    rw [opcode_movz, encodeImmediate_imm16 (hne.setField_ne _), setField_movw _ _ h,
      if_congr hr rfl rfl, ite_not]
  · have hr : (~~~(x.sshiftRight lsb)).toNat > 65535 ↔
        ¬ (-2 ^ (16 + lsb) ≤ x.toInt ∧ x.toInt < 2 ^ (16 + lsb)) := by
      rw [movn_overflow_iff]
      exact not_congr (and_congr_right fun _ => ⟨fun _ => by omega, fun _ => by omega⟩)
    simp only [if_neg hs]
    rw [opcode_movn, encodeImmediate_imm16 (hne.setField_ne _), setField_movn _ _ h,
      if_congr hr rfl rfl, ite_not]

end Routines

/-! ### The switch -/

section Switch

variable {f : Field} {x : BitVec 64} {place : Addr} {m : Mem}

/-- What the switch returns for the number `x` of a type with this range. -/
def verdict (range : Option (ℤ × ℤ)) (x : BitVec 64) : ℤ :=
  match range with
  | some (lo, hi) => if lo ≤ x.toInt ∧ x.toInt < hi then 0 else noexec
  | none => 0

theorem verdict_eq_zero_iff {range : Option (ℤ × ℤ)} :
    verdict range x = 0 ↔ ∀ b ∈ range, b.1 ≤ x.toInt ∧ x.toInt < b.2 := by
  rcases range with _ | ⟨lo, hi⟩
  · simp [verdict]
  · by_cases hr : lo ≤ x.toInt ∧ x.toInt < hi
    · simp [verdict, hr]
    · simp [verdict, hr, noexec]

theorem finish_checked {lo hi : ℤ} {m' : Mem} :
    finish true (rangeResult lo hi x, m') = (verdict (some (lo, hi)) x, m') := by
  unfold finish rangeResult verdict
  by_cases hr : lo ≤ x.toInt ∧ x.toInt < hi
  · simp [hr, erange]
  · simp [hr]

theorem finish_unchecked {ovf : ℤ} {m' : Mem} : finish false (ovf, m') = (verdict none x, m') := by
  simp [finish, verdict]

theorem finishAdrp_eq {b : Bool} {lo hi : ℤ} {m' : Mem} :
    finishAdrp b (rangeResult lo hi x, m') = finish b (rangeResult lo hi x, m') := by
  unfold finishAdrp rangeResult
  refine if_neg fun h => ?_
  by_cases hr : lo ≤ x.toInt ∧ x.toInt < hi
  · exact h.1 (if_pos hr)
  · exact h.2 (if_neg hr)

/-- **`reloc_data` on 64 bits.** -/
theorem relocData_64 {op : RelocOp} {val : BitVec 64} (hx : doReloc op place val = x) :
    relocData op place val 64 m = (0, (Field.data 64).write x place m) := by
  show (0, store m place (doReloc op place val)) = (0, store m place (x.setWidth 64))
  rw [hx, BitVec.setWidth_eq]

theorem relocDataResult_abs (n : ℕ) : relocDataResult .abs x n = rangeResult 0 (2 ^ n) x := by
  have h : (x.toInt < 0 ∨ x.toInt > 2 ^ n - 1) ↔ ¬ (0 ≤ x.toInt ∧ x.toInt < 2 ^ n) := by omega
  rw [relocDataResult, if_congr h rfl rfl, ite_not]
  rfl

theorem relocDataResult_prel (n : ℕ) :
    relocDataResult .prel x n = rangeResult (-2 ^ (n - 1)) (2 ^ (n - 1)) x := by
  have h : (x.toInt < -2 ^ (n - 1) ∨ x.toInt > 2 ^ (n - 1) - 1) ↔
      ¬ (-2 ^ (n - 1) ≤ x.toInt ∧ x.toInt < 2 ^ (n - 1)) := by omega
  rw [relocDataResult, if_congr h rfl rfl, ite_not]
  rfl

/-- **`reloc_data` on 16 and 32 bits.** -/
theorem relocData_eq {op : RelocOp} {val : BitVec 64} {n : ℕ} (hn : n = 16 ∨ n = 32)
    (hx : doReloc op place val = x) : relocData op place val n m =
      (relocDataResult op x n, (Field.data n).write x place m) := by
  subst hx
  rcases hn with rfl | rfl <;> rfl

end Switch

/-- What `do_relocate_add` returns and the memory it leaves, for every type of the switch. -/
theorem doRelocateAdd_eq (t : RelocType) (place : Addr) (val : BitVec 64) (m : Mem)
    (hinsn : t.field.isInsn = true → NotBreak (load 32 m place)) :
    doRelocateAdd t.code place val m =
      (verdict t.range (t.x place val), t.field.write (t.x place val) place m) := by
  have hpage : doReloc .page place val = pageOf val - pageOf place := by
    rw [← and_not_low, ← and_not_low]
    rfl
  unfold doRelocateAdd
  rw [ofCode_code]
  cases t with
  | none => rfl
  | abs64 | prel64 =>
    show finish false (relocData _ _ _ 64 _) = _
    rw [relocData_64 rfl]
    exact finish_unchecked
  | abs32 | p32Abs32 =>
    show finish true (relocData .abs _ _ 32 _) = _
    rw [relocData_eq (.inr rfl) rfl, relocDataResult_abs]
    exact finish_checked
  | abs16 | p32Abs16 =>
    show finish true (relocData .abs _ _ 16 _) = _
    rw [relocData_eq (.inl rfl) rfl, relocDataResult_abs]
    exact finish_checked
  | prel32 | p32Prel32 =>
    show finish true (relocData .prel _ _ 32 _) = _
    rw [relocData_eq (.inr rfl) rfl, relocDataResult_prel]
    exact finish_checked
  | prel16 | p32Prel16 =>
    show finish true (relocData .prel _ _ 16 _) = _
    rw [relocData_eq (.inl rfl) rfl, relocDataResult_prel]
    exact finish_checked
  | movwUabsG0 | p32MovwUabsG0 | movwUabsG1 | p32MovwUabsG1 | movwUabsG2 =>
    show finish true (relocInsnMovw .abs _ _ _ .movkz _) = _
    rw [relocInsnMovw_movkz rfl (by omega) (hinsn rfl).ne]
    exact finish_checked
  | movwUabsG0Nc | p32MovwUabsG0Nc | movwUabsG1Nc | movwUabsG2Nc | movwUabsG3 =>
    show finish false (relocInsnMovw .abs _ _ _ .movkz _) = _
    rw [relocInsnMovw_movkz rfl (by omega) (hinsn rfl).ne]
    exact finish_unchecked
  | movwPrelG0Nc | p32MovwPrelG0Nc | movwPrelG1Nc | movwPrelG2Nc =>
    show finish false (relocInsnMovw .prel _ _ _ .movkz _) = _
    rw [relocInsnMovw_movkz rfl (by omega) (hinsn rfl).ne]
    exact finish_unchecked
  | movwSabsG0 | p32MovwSabsG0 | movwSabsG1 | movwSabsG2 =>
    show finish true (relocInsnMovw .abs _ _ _ .movnz _) = _
    rw [relocInsnMovw_movnz rfl (by omega) (hinsn rfl)]
    exact finish_checked
  | movwPrelG0 | p32MovwPrelG0 | movwPrelG1 | p32MovwPrelG1 | movwPrelG2 =>
    show finish true (relocInsnMovw .prel _ _ _ .movnz _) = _
    rw [relocInsnMovw_movnz rfl (by omega) (hinsn rfl)]
    exact finish_checked
  | movwPrelG3 =>
    show finish false (relocInsnMovw .prel _ _ _ .movnz _) = _
    rw [relocInsnMovw_movnz rfl (by omega) (hinsn rfl)]
    exact finish_unchecked
  | ldPrelLo19 | p32LdPrelLo19 | condbr19 | p32Condbr19 | tstbr14 | p32Tstbr14 | jump26
  | p32Jump26 | call26 | p32Call26 =>
    show finish true (relocInsnImm .prel _ _ _ _ _ _) = _
    rw [relocInsnImm_eq rfl (by decide) (by decide) (by decide) rfl (by decide) (hinsn rfl).ne]
    exact finish_checked
  | addAbsLo12Nc | p32AddAbsLo12Nc | ldst8AbsLo12Nc | ldst16AbsLo12Nc | p32Ldst16AbsLo12Nc
  | ldst32AbsLo12Nc | p32Ldst32AbsLo12Nc | ldst64AbsLo12Nc | p32Ldst64AbsLo12Nc
  | ldst128AbsLo12Nc | p32Ldst128AbsLo12Nc =>
    show finish false (relocInsnImm .abs _ _ _ _ _ _) = _
    rw [relocInsnImm_eq rfl (by decide) (by decide) (by decide) rfl (by decide) (hinsn rfl).ne]
    exact finish_unchecked
  | adrPrelLo21 | p32AdrPrelLo21 =>
    show finish true (relocInsnImm .prel _ _ _ _ .adr _) = _
    rw [relocInsnImm_adr rfl (by omega) (hinsn rfl).ne]
    exact finish_checked
  | adrPrelPgHi21 | p32AdrPrelPgHi21 =>
    show finishAdrp true (relocInsnImm .page _ _ _ _ .adr _) = _
    rw [relocInsnImm_adr hpage (by omega) (hinsn rfl).ne, finishAdrp_eq]
    exact finish_checked
  | adrPrelPgHi21Nc =>
    show finishAdrp false (relocInsnImm .page _ _ _ _ .adr _) = _
    rw [relocInsnImm_adr hpage (by omega) (hinsn rfl).ne, finishAdrp_eq]
    exact finish_unchecked

/-- **AArch64 relocation of one place is exact**: for every type of the switch and every value, the
result is success on the numbers that the type accepts and on no others, the field is written, and
nothing else. Instructions must not be `AARCH64_BREAK_FAULT` up to the opcode bits. -/
theorem doRelocateAdd_exact (t : RelocType) (place : Addr) (val : BitVec 64) (m : Mem)
    (hinsn : t.field.isInsn = true → NotBreak (load 32 m place)) :
    Exact t.range t.field (t.x place val) place m (doRelocateAdd t.code place val m) := by
  rw [doRelocateAdd_eq t place val m hinsn]
  exact ⟨verdict_eq_zero_iff, rfl⟩

/-- A branch `B` at `0x1000` to `0x2000`. -/
theorem doRelocateAdd_exact_jump26 :
    Exact (some (-2 ^ 27, 2 ^ 27)) (.imm 0 26 2 26) (0x2000 - 0x1000) 0x1000
      (store (fun _ => 0) 0x1000 0x14000000#32)
      (doRelocateAdd 282 0x1000 0x2000 (store (fun _ => 0) 0x1000 0x14000000#32)) :=
  doRelocateAdd_exact .jump26 0x1000 0x2000 _ fun _ => by
    rw [load_store _ (by omega) (by omega)]
    exact ⟨31, by decide, by decide, by decide, by decide⟩

end Umko.AArch64

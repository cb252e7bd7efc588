import Umko.Reloc.Defs
import Umko.Lib.BitField

/-!
# `do_relocate_add` for AArch64

The routines that the loader takes over from the Linux kernel: `do_reloc` for the value, then
`reloc_data`, `reloc_insn_movw` or `reloc_insn_imm` for the place. All three write the place before
they look whether the value was cut.
-/

namespace Umko

open Lib.Memory Lib.Patch

namespace AArch64

/-! ### Data -/

/-- `enum aarch64_reloc_op` -/
inductive RelocOp where
  | none | abs | prel | page
  deriving DecidableEq

/-- The bits above the low 12: `~0xfff`. -/
def pageMask : BitVec 64 := ~~~0xfff#64

def doReloc (op : RelocOp) (place : Addr) (val : BitVec 64) : BitVec 64 :=
  match op with
  | .none => 0
  | .abs => val
  | .prel => val - place
  | .page => (val &&& pageMask) - (place &&& pageMask)

/-- The bounds that `reloc_data` checks for 16 and 32 bits; `default` checks nothing. -/
def relocDataResult (op : RelocOp) (sval : BitVec 64) (len : ℕ) : ℤ :=
  match op with
  | .abs => if sval.toInt < 0 ∨ sval.toInt > 2 ^ len - 1 then erange else 0
  | .prel => if sval.toInt < -2 ^ (len - 1) ∨ sval.toInt > 2 ^ (len - 1) - 1 then erange else 0
  | _ => 0

def relocData (op : RelocOp) (place : Addr) (val : BitVec 64) (len : ℕ) (m : Mem) : ℤ × Mem :=
  let sval := doReloc op place val
  match len with
  | 16 => (relocDataResult op sval 16, store m place (sval.setWidth 16))
  | 32 => (relocDataResult op sval 32, store m place (sval.setWidth 32))
  | 64 => (0, store m place sval)
  | _ => (0, m)

/-! ### Instructions -/

/-- `enum aarch64_insn_imm_type` -/
inductive ImmType where
  | adr | imm26 | imm19 | imm16 | imm14 | imm12 | imm9 | imm7 | imm6 | immS | immR | immN | immMax
  deriving DecidableEq

/-- `AARCH64_BREAK_FAULT` -/
def breakFault : BitVec 32 := 0xd4200000#32 ||| (0x100#32 <<< (5 : ℕ))

/-- `BIT(nr)` -/
def bit (nr : ℕ) : BitVec 64 := 1#64 <<< nr

/-- `aarch64_get_imm_shift_mask`: the mask and the shift, `none` for `-EINVAL`. -/
def getImmShiftMask : ImmType → Option (BitVec 32 × ℕ)
  | .imm26 => some ((bit 26 - 1#64).setWidth 32, 0)
  | .imm19 => some ((bit 19 - 1#64).setWidth 32, 5)
  | .imm16 => some ((bit 16 - 1#64).setWidth 32, 5)
  | .imm14 => some ((bit 14 - 1#64).setWidth 32, 5)
  | .imm12 => some ((bit 12 - 1#64).setWidth 32, 10)
  | .imm9 => some ((bit 9 - 1#64).setWidth 32, 12)
  | .imm7 => some ((bit 7 - 1#64).setWidth 32, 15)
  | .imm6 | .immS => some ((bit 6 - 1#64).setWidth 32, 10)
  | .immR => some ((bit 6 - 1#64).setWidth 32, 16)
  | .immN => some (1, 22)
  | .adr | .immMax => none

/-- The end of `aarch64_insn_encode_immediate`: the immediate into its field. -/
def updateImm (insn mask : BitVec 32) (shift : ℕ) (imm : BitVec 64) : BitVec 32 :=
  (insn &&& ~~~(mask <<< shift)) ||| ((imm &&& mask.setWidth 64) <<< shift).setWidth 32

/-- `ADR_IMM_LOMASK` and `ADR_IMM_HIMASK` -/
def adrImmLomask : BitVec 32 := (1#32 <<< (2 : ℕ)) - 1#32
def adrImmHimask : BitVec 32 := (0x00200000#32 >>> (2 : ℕ)) - 1#32

/-- `aarch64_insn_encode_immediate` -/
def encodeImmediate (type : ImmType) (insn : BitVec 32) (imm : BitVec 64) : BitVec 32 :=
  if insn = breakFault then breakFault
  else
    match type with
    | .adr =>
      let immlo : BitVec 32 := ((imm &&& adrImmLomask.setWidth 64) <<< (29 : ℕ)).setWidth 32
      let imm := imm >>> (2 : ℕ)
      let immhi : BitVec 32 := ((imm &&& adrImmHimask.setWidth 64) <<< (5 : ℕ)).setWidth 32
      let imm : BitVec 64 := (immlo ||| immhi).setWidth 64
      updateImm insn ((adrImmLomask <<< (29 : ℕ)) ||| (adrImmHimask <<< (5 : ℕ))) 0 imm
    | _ =>
      match getImmShiftMask type with
      | none => breakFault
      | some (mask, shift) => updateImm insn mask shift imm

/-- `enum aarch64_insn_movw_imm_type` -/
inductive MovwImmType where
  | movnz | movkz
  deriving DecidableEq

/-- The part of `reloc_insn_movw` between reading and encoding: the instruction, with the opcode
that the sign asks for, and the immediate. -/
def movwInsnImm (insn : BitVec 32) (sval : BitVec 64) (lsb : ℕ) (immType : MovwImmType) :
    BitVec 32 × BitVec 64 :=
  let imm := sval.sshiftRight lsb
  if immType = .movnz then
    let insn := insn &&& ~~~(3#32 <<< (29 : ℕ))
    if 0 ≤ sval.toInt then (insn ||| (2#32 <<< (29 : ℕ)), imm) else (insn, ~~~imm)
  else (insn, imm)

def relocInsnMovw (op : RelocOp) (place : Addr) (val : BitVec 64) (lsb : ℕ)
    (immType : MovwImmType) (m : Mem) : ℤ × Mem :=
  let insn := load 32 m place
  let sval := doReloc op place val
  let r := movwInsnImm insn sval lsb immType
  let m := store m place (encodeImmediate .imm16 r.1 r.2)
  (if r.2.toNat > 65535 then erange else 0, m)

def relocInsnImm (op : RelocOp) (place : Addr) (val : BitVec 64) (lsb len : ℕ)
    (immType : ImmType) (m : Mem) : ℤ × Mem :=
  let insn := load 32 m place
  let sval := (doReloc op place val).sshiftRight lsb
  let immMask : BitVec 64 := (bit (lsb + len) - 1#64) >>> lsb
  let imm := sval &&& immMask
  let m := store m place (encodeImmediate immType insn imm)
  let sval := (sval &&& ~~~(immMask >>> (1 : ℕ))).sshiftRight (len - 1)
  (if (sval + 1).toNat ≥ 2 then erange else 0, m)

/-- `is_forbidden_offset_for_adrp` -/
def isForbiddenOffsetForAdrp (_place : Addr) : Bool := false

def relocInsnAdrp (place : Addr) (val : BitVec 64) (m : Mem) : ℤ × Mem :=
  if !isForbiddenOffsetForAdrp place then relocInsnImm .page place val 12 21 .adr m
  else
    let r := relocInsnImm .prel place (val &&& pageMask) 0 21 .adr m
    if r.1 = 0 then
      (0, store r.2 place (load 32 r.2 place &&& ~~~((bit 31).setWidth 32)))
    else (noexec, r.2)

/-! ### The switch -/

/-- The types that the switch of `do_relocate_add` knows: `R_AARCH64_…`, with `p32` for
`R_AARCH64_P32_…`. -/
inductive RelocType where
  | none | p32Abs32 | p32Abs16 | p32Prel32 | p32Prel16 | p32MovwUabsG0 | p32MovwUabsG0Nc
  | p32MovwUabsG1 | p32MovwSabsG0 | p32LdPrelLo19 | p32AdrPrelLo21 | p32AdrPrelPgHi21
  | p32AddAbsLo12Nc | p32Ldst16AbsLo12Nc | p32Ldst32AbsLo12Nc | p32Ldst64AbsLo12Nc
  | p32Ldst128AbsLo12Nc | p32Tstbr14 | p32Condbr19 | p32Jump26 | p32Call26 | p32MovwPrelG0
  | p32MovwPrelG0Nc | p32MovwPrelG1 | abs64 | abs32 | abs16 | prel64 | prel32 | prel16
  | movwUabsG0 | movwUabsG0Nc | movwUabsG1 | movwUabsG1Nc | movwUabsG2 | movwUabsG2Nc | movwUabsG3
  | movwSabsG0 | movwSabsG1 | movwSabsG2 | ldPrelLo19 | adrPrelLo21 | adrPrelPgHi21
  | adrPrelPgHi21Nc | addAbsLo12Nc | ldst8AbsLo12Nc | tstbr14 | condbr19 | jump26 | call26
  | ldst16AbsLo12Nc | ldst32AbsLo12Nc | ldst64AbsLo12Nc | movwPrelG0 | movwPrelG0Nc | movwPrelG1
  | movwPrelG1Nc | movwPrelG2 | movwPrelG2Nc | movwPrelG3 | ldst128AbsLo12Nc
  deriving DecidableEq

/-- The number of a type in the psABI. -/
def RelocType.code : RelocType → BitVec 32
  | .none => 0
  | .p32Abs32 => 1
  | .p32Abs16 => 2
  | .p32Prel32 => 3
  | .p32Prel16 => 4
  | .p32MovwUabsG0 => 5
  | .p32MovwUabsG0Nc => 6
  | .p32MovwUabsG1 => 7
  | .p32MovwSabsG0 => 8
  | .p32LdPrelLo19 => 9
  | .p32AdrPrelLo21 => 10
  | .p32AdrPrelPgHi21 => 11
  | .p32AddAbsLo12Nc => 12
  | .p32Ldst16AbsLo12Nc => 14
  | .p32Ldst32AbsLo12Nc => 15
  | .p32Ldst64AbsLo12Nc => 16
  | .p32Ldst128AbsLo12Nc => 17
  | .p32Tstbr14 => 18
  | .p32Condbr19 => 19
  | .p32Jump26 => 20
  | .p32Call26 => 21
  | .p32MovwPrelG0 => 22
  | .p32MovwPrelG0Nc => 23
  | .p32MovwPrelG1 => 24
  | .abs64 => 257
  | .abs32 => 258
  | .abs16 => 259
  | .prel64 => 260
  | .prel32 => 261
  | .prel16 => 262
  | .movwUabsG0 => 263
  | .movwUabsG0Nc => 264
  | .movwUabsG1 => 265
  | .movwUabsG1Nc => 266
  | .movwUabsG2 => 267
  | .movwUabsG2Nc => 268
  | .movwUabsG3 => 269
  | .movwSabsG0 => 270
  | .movwSabsG1 => 271
  | .movwSabsG2 => 272
  | .ldPrelLo19 => 273
  | .adrPrelLo21 => 274
  | .adrPrelPgHi21 => 275
  | .adrPrelPgHi21Nc => 276
  | .addAbsLo12Nc => 277
  | .ldst8AbsLo12Nc => 278
  | .tstbr14 => 279
  | .condbr19 => 280
  | .jump26 => 282
  | .call26 => 283
  | .ldst16AbsLo12Nc => 284
  | .ldst32AbsLo12Nc => 285
  | .ldst64AbsLo12Nc => 286
  | .movwPrelG0 => 287
  | .movwPrelG0Nc => 288
  | .movwPrelG1 => 289
  | .movwPrelG1Nc => 290
  | .movwPrelG2 => 291
  | .movwPrelG2Nc => 292
  | .movwPrelG3 => 293
  | .ldst128AbsLo12Nc => 299

def RelocType.all : List RelocType :=
  [.none, .p32Abs32, .p32Abs16, .p32Prel32, .p32Prel16, .p32MovwUabsG0, .p32MovwUabsG0Nc,
   .p32MovwUabsG1, .p32MovwSabsG0, .p32LdPrelLo19, .p32AdrPrelLo21, .p32AdrPrelPgHi21,
   .p32AddAbsLo12Nc, .p32Ldst16AbsLo12Nc, .p32Ldst32AbsLo12Nc, .p32Ldst64AbsLo12Nc,
   .p32Ldst128AbsLo12Nc, .p32Tstbr14, .p32Condbr19, .p32Jump26, .p32Call26, .p32MovwPrelG0,
   .p32MovwPrelG0Nc, .p32MovwPrelG1, .abs64, .abs32, .abs16, .prel64, .prel32, .prel16,
   .movwUabsG0, .movwUabsG0Nc, .movwUabsG1, .movwUabsG1Nc, .movwUabsG2, .movwUabsG2Nc, .movwUabsG3,
   .movwSabsG0, .movwSabsG1, .movwSabsG2, .ldPrelLo19, .adrPrelLo21, .adrPrelPgHi21,
   .adrPrelPgHi21Nc, .addAbsLo12Nc, .ldst8AbsLo12Nc, .tstbr14, .condbr19, .jump26, .call26,
   .ldst16AbsLo12Nc, .ldst32AbsLo12Nc, .ldst64AbsLo12Nc, .movwPrelG0, .movwPrelG0Nc, .movwPrelG1,
   .movwPrelG1Nc, .movwPrelG2, .movwPrelG2Nc, .movwPrelG3, .ldst128AbsLo12Nc]

/-- The `case` of a number, if there is one. -/
def RelocType.ofCode (c : BitVec 32) : Option RelocType := RelocType.all.find? fun t => t.code = c

/-- The end of `do_relocate_add`, where `ovf` is what the routine returned. -/
def finish (overflowCheck : Bool) (ovf : ℤ × Mem) : ℤ × Mem :=
  if overflowCheck && ovf.1 == erange then (noexec, ovf.2) else (0, ovf.2)

/-- The `case` of the ADRP types, which returns any other error at once. -/
def finishAdrp (overflowCheck : Bool) (ovf : ℤ × Mem) : ℤ × Mem :=
  if ovf.1 ≠ 0 ∧ ovf.1 ≠ erange then ovf else finish overflowCheck ovf

def doRelocateAdd (relocType : BitVec 32) (loc : Addr) (val : BitVec 64) (m : Mem) : ℤ × Mem :=
  match RelocType.ofCode relocType with
  | some .none => finish true (0, m)
  -- data relocations
  | some .abs64 => finish false (relocData .abs loc val 64 m)
  | some .p32Abs32 | some .abs32 => finish true (relocData .abs loc val 32 m)
  | some .p32Abs16 | some .abs16 => finish true (relocData .abs loc val 16 m)
  | some .prel64 => finish false (relocData .prel loc val 64 m)
  | some .p32Prel32 | some .prel32 => finish true (relocData .prel loc val 32 m)
  | some .p32Prel16 | some .prel16 => finish true (relocData .prel loc val 16 m)
  -- MOVW instruction relocations
  | some .p32MovwUabsG0Nc | some .movwUabsG0Nc =>
    finish false (relocInsnMovw .abs loc val 0 .movkz m)
  | some .p32MovwUabsG0 | some .movwUabsG0 => finish true (relocInsnMovw .abs loc val 0 .movkz m)
  | some .movwUabsG1Nc => finish false (relocInsnMovw .abs loc val 16 .movkz m)
  | some .p32MovwUabsG1 | some .movwUabsG1 => finish true (relocInsnMovw .abs loc val 16 .movkz m)
  | some .movwUabsG2Nc => finish false (relocInsnMovw .abs loc val 32 .movkz m)
  | some .movwUabsG2 => finish true (relocInsnMovw .abs loc val 32 .movkz m)
  | some .movwUabsG3 => finish false (relocInsnMovw .abs loc val 48 .movkz m)
  | some .p32MovwSabsG0 | some .movwSabsG0 => finish true (relocInsnMovw .abs loc val 0 .movnz m)
  | some .movwSabsG1 => finish true (relocInsnMovw .abs loc val 16 .movnz m)
  | some .movwSabsG2 => finish true (relocInsnMovw .abs loc val 32 .movnz m)
  | some .p32MovwPrelG0Nc | some .movwPrelG0Nc =>
    finish false (relocInsnMovw .prel loc val 0 .movkz m)
  | some .p32MovwPrelG0 | some .movwPrelG0 => finish true (relocInsnMovw .prel loc val 0 .movnz m)
  | some .movwPrelG1Nc => finish false (relocInsnMovw .prel loc val 16 .movkz m)
  | some .p32MovwPrelG1 | some .movwPrelG1 => finish true (relocInsnMovw .prel loc val 16 .movnz m)
  | some .movwPrelG2Nc => finish false (relocInsnMovw .prel loc val 32 .movkz m)
  | some .movwPrelG2 => finish true (relocInsnMovw .prel loc val 32 .movnz m)
  | some .movwPrelG3 => finish false (relocInsnMovw .prel loc val 48 .movnz m)
  -- immediate instruction relocations
  | some .p32LdPrelLo19 | some .ldPrelLo19 =>
    finish true (relocInsnImm .prel loc val 2 19 .imm19 m)
  | some .p32AdrPrelLo21 | some .adrPrelLo21 =>
    finish true (relocInsnImm .prel loc val 0 21 .adr m)
  | some .adrPrelPgHi21Nc => finishAdrp false (relocInsnAdrp loc val m)
  | some .p32AdrPrelPgHi21 | some .adrPrelPgHi21 => finishAdrp true (relocInsnAdrp loc val m)
  | some .p32AddAbsLo12Nc | some .addAbsLo12Nc | some .ldst8AbsLo12Nc =>
    finish false (relocInsnImm .abs loc val 0 12 .imm12 m)
  | some .p32Ldst16AbsLo12Nc | some .ldst16AbsLo12Nc =>
    finish false (relocInsnImm .abs loc val 1 11 .imm12 m)
  | some .p32Ldst32AbsLo12Nc | some .ldst32AbsLo12Nc =>
    finish false (relocInsnImm .abs loc val 2 10 .imm12 m)
  | some .p32Ldst64AbsLo12Nc | some .ldst64AbsLo12Nc =>
    finish false (relocInsnImm .abs loc val 3 9 .imm12 m)
  | some .p32Ldst128AbsLo12Nc | some .ldst128AbsLo12Nc =>
    finish false (relocInsnImm .abs loc val 4 8 .imm12 m)
  | some .p32Tstbr14 | some .tstbr14 => finish true (relocInsnImm .prel loc val 2 14 .imm14 m)
  | some .p32Condbr19 | some .condbr19 => finish true (relocInsnImm .prel loc val 2 19 .imm19 m)
  | some .p32Jump26 | some .p32Call26 | some .jump26 | some .call26 =>
    finish true (relocInsnImm .prel loc val 2 26 .imm26 m)
  | none => (noexec, m)

theorem ofCode_code (t : RelocType) : RelocType.ofCode t.code = some t := by
  cases t <;> rfl

theorem code_of_ofCode {c : BitVec 32} {t : RelocType} (h : RelocType.ofCode c = some t) :
    t.code = c := by simpa using List.find?_some h

theorem doRelocateAdd_unsupported {c : BitVec 32} (h : RelocType.ofCode c = none) (loc : Addr)
    (val : BitVec 64) (m : Mem) : doRelocateAdd c loc val m = (noexec, m) := by
  unfold doRelocateAdd
  rw [h]

end AArch64

end Umko

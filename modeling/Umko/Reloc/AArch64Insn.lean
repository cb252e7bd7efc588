import Umko.Lib.PcRel
import Umko.Reloc.AArch64Groups

/-!
# AArch64 instructions under relocation

The classes of instructions of `insn.h`, each one a mask and a value, and those that a relocation
type is for. A relocated word is an instruction of the same class with nothing changed beside the
field, but for the signed move-wide types, which choose between MOVZ and MOVN. A PC-relative
instruction addresses the number after its relocation exactly when the relocation succeeds and the
displacement is a multiple of the unit: a displacement that is not is cut without a report.
-/

namespace Umko.AArch64

open Lib.Memory Lib.BitField Lib.A64 Lib.PcRel

/-! ### Classes of instructions -/

/-- A class of `__AARCH64_INSN_FUNCS`; `covered` is its `BUILD_BUG_ON`. -/
structure InsnClass where
  mask : BitVec 32
  val : BitVec 32
  covered : ~~~mask &&& val = 0

/-- `aarch64_insn_is_…` of the class. -/
def InsnClass.is (c : InsnClass) (code : BitVec 32) : Bool := code &&& c.mask == c.val

namespace InsnClass

def adr : InsnClass := ⟨0x9F000000, 0x10000000, by decide⟩
def adrp : InsnClass := ⟨0x9F000000, 0x90000000, by decide⟩
def prfm : InsnClass := ⟨0x3FC00000, 0x39800000, by decide⟩
def prfmLit : InsnClass := ⟨0xFF000000, 0xD8000000, by decide⟩
def storeImm : InsnClass := ⟨0x3FC00000, 0x39000000, by decide⟩
def loadImm : InsnClass := ⟨0x3FC00000, 0x39400000, by decide⟩
def ldrLit : InsnClass := ⟨0xBF000000, 0x18000000, by decide⟩
def ldrswLit : InsnClass := ⟨0xFF000000, 0x98000000, by decide⟩
def addImm : InsnClass := ⟨0x7F000000, 0x11000000, by decide⟩
def movn : InsnClass := ⟨0x7F800000, 0x12800000, by decide⟩
def movz : InsnClass := ⟨0x7F800000, 0x52800000, by decide⟩
def movk : InsnClass := ⟨0x7F800000, 0x72800000, by decide⟩
def b : InsnClass := ⟨0xFC000000, 0x14000000, by decide⟩
def bl : InsnClass := ⟨0xFC000000, 0x94000000, by decide⟩
def cbz : InsnClass := ⟨0x7F000000, 0x34000000, by decide⟩
def cbnz : InsnClass := ⟨0x7F000000, 0x35000000, by decide⟩
def tbz : InsnClass := ⟨0x7F000000, 0x36000000, by decide⟩
def tbnz : InsnClass := ⟨0x7F000000, 0x37000000, by decide⟩
def bcond : InsnClass := ⟨0xFF000010, 0x54000000, by decide⟩

end InsnClass

section InsnClass

variable {c : InsnClass} {w w' : BitVec 32}

theorem InsnClass.is_iff :
    c.is w = true ↔ ∀ i < 32, c.mask.getLsbD i = true → w.getLsbD i = c.val.getLsbD i := by
  unfold InsnClass.is
  rw [beq_iff_eq]
  constructor
  · intro h i hi hm
    rw [← h, BitVec.getLsbD_and, hm, Bool.and_true]
  · intro h
    apply BitVec.eq_of_getLsbD_eq
    intro i hi
    have hcov : (~~~c.mask &&& c.val).getLsbD i = false := by
      rw [c.covered]
      exact BitVec.getLsbD_zero
    rw [BitVec.getLsbD_and, BitVec.getLsbD_not, decide_eq_true hi, Bool.true_and] at hcov
    rw [BitVec.getLsbD_and]
    cases hm : c.mask.getLsbD i with
    | true => rw [Bool.and_true, h i hi hm]
    | false =>
      rw [hm, Bool.not_false, Bool.true_and] at hcov
      rw [Bool.and_false, hcov]

end InsnClass

/-! ### The bits of a field -/

def Field.writes : Field → ℕ → Bool
  | .none, _ | .data _, _ => false
  | .imm s n _ _, i => s ≤ i ∧ i < s + n
  | .adr _, i => (29 ≤ i ∧ i < 31) ∨ (5 ≤ i ∧ i < 24)
  | .movw _, i => (29 ≤ i ∧ i < 31) ∨ (5 ≤ i ∧ i < 21)

theorem Field.getLsbD_insn (f : Field) (x : BitVec 64) (old : BitVec 32) {i : ℕ} (hi : i < 32)
    (h : f.writes i = false) : (f.insn x old).getLsbD i = old.getLsbD i := by
  cases f with
  | none | data n => rfl
  | imm s n lsb len =>
    have h' : ¬ (s ≤ i ∧ i < s + n) := of_decide_eq_false h
    rw [Field.insn, getLsbD_setField _ _ _ _ hi, if_neg h']
  | adr lsb =>
    have h' : ¬ ((29 ≤ i ∧ i < 31) ∨ (5 ≤ i ∧ i < 24)) := of_decide_eq_false h
    rw [Field.insn, getLsbD_setField _ _ _ _ hi, if_neg (by omega), getLsbD_setField _ _ _ _ hi,
      if_neg (by omega)]
  | movw lsb =>
    have h' : ¬ ((29 ≤ i ∧ i < 31) ∨ (5 ≤ i ∧ i < 21)) := of_decide_eq_false h
    unfold Field.insn
    dsimp only
    split
    all_goals
      rw [getLsbD_setField _ _ _ _ hi, if_neg (by omega), getLsbD_setField _ _ _ _ hi,
        if_neg (by omega)]

/-! ### The instructions of a type -/

/-- The classes that a type is for. -/
def RelocType.insns : RelocType → List InsnClass
  | .movwUabsG0 | .movwUabsG0Nc | .p32MovwUabsG0 | .p32MovwUabsG0Nc | .movwUabsG1 | .movwUabsG1Nc
  | .p32MovwUabsG1 | .movwUabsG2 | .movwUabsG2Nc | .movwUabsG3 | .movwPrelG0Nc | .p32MovwPrelG0Nc
  | .movwPrelG1Nc | .movwPrelG2Nc => [.movz, .movk]
  | .movwSabsG0 | .p32MovwSabsG0 | .movwSabsG1 | .movwSabsG2 | .movwPrelG0 | .p32MovwPrelG0
  | .movwPrelG1 | .p32MovwPrelG1 | .movwPrelG2 | .movwPrelG3 => [.movz, .movn]
  | .ldPrelLo19 | .p32LdPrelLo19 => [.ldrLit, .ldrswLit, .prfmLit]
  | .adrPrelLo21 | .p32AdrPrelLo21 => [.adr]
  | .adrPrelPgHi21 | .adrPrelPgHi21Nc | .p32AdrPrelPgHi21 => [.adrp]
  | .addAbsLo12Nc | .p32AddAbsLo12Nc => [.addImm]
  | .ldst8AbsLo12Nc | .ldst16AbsLo12Nc | .p32Ldst16AbsLo12Nc | .ldst32AbsLo12Nc
  | .p32Ldst32AbsLo12Nc => [.loadImm, .storeImm]
  | .ldst64AbsLo12Nc | .p32Ldst64AbsLo12Nc => [.loadImm, .storeImm, .prfm]
  | .tstbr14 | .p32Tstbr14 => [.tbz, .tbnz]
  | .condbr19 | .p32Condbr19 => [.bcond, .cbz, .cbnz]
  | .jump26 | .p32Jump26 => [.b]
  | .call26 | .p32Call26 => [.bl]
  | _ => []

/-- The class of the relocated word: the signed move-wide types rewrite the operation. -/
def RelocType.insnAfter (t : RelocType) (x : BitVec 64) (c : InsnClass) : InsnClass :=
  match t.field with
  | .movw _ => if 0 ≤ x.toInt then .movz else .movn
  | _ => c

/-- The PC-relative operand of the instructions of a type. -/
def RelocType.operand : RelocType → Option Operand
  | .jump26 | .p32Jump26 | .call26 | .p32Call26 => some imm26
  | .condbr19 | .p32Condbr19 | .ldPrelLo19 | .p32LdPrelLo19 => some imm19
  | .tstbr14 | .p32Tstbr14 => some imm14
  | .adrPrelLo21 | .p32AdrPrelLo21 => some Lib.PcRel.adr
  | _ => Option.none

/-! ### The relocated word -/

section Insns

variable {t : RelocType} {c : InsnClass} {o : Operand} {s : Site} {place : Addr} {val : BitVec 64}
  {m : Mem}

/-- **The PC-relative types**, on any word but `AARCH64_BREAK_FAULT`. -/
theorem doRelocateAdd_operand (ho : t.operand = some o) (h : load 32 m place ≠ breakFault) :
    doRelocateAdd t.code place val m =
      (verdict t.range (t.x place val), t.field.write (t.x place val) place m) := by
  unfold doRelocateAdd
  rw [ofCode_code]
  cases t
  case ldPrelLo19 | p32LdPrelLo19 | condbr19 | p32Condbr19 | tstbr14 | p32Tstbr14 | jump26 |
      p32Jump26 | call26 | p32Call26 =>
    show finish true (relocInsnImm .prel _ _ _ _ _ _) = _
    rw [relocInsnImm_eq rfl (by decide) (by decide) (by decide) rfl (by decide) h]
    exact finish_checked
  case adrPrelLo21 | p32AdrPrelLo21 =>
    show finish true (relocInsnImm .prel _ _ _ _ .adr _) = _
    rw [relocInsnImm_adr rfl (by omega) h]
    exact finish_checked
  all_goals cases ho

theorem ne_breakFault_of_mem_insns (hc : c ∈ t.insns) {w : BitVec 32} (h : c.is w = true) :
    w ≠ breakFault := by
  have hbit : ∀ c ∈ t.insns, c.is breakFault = false := by
    cases t <;> decide
  rintro rfl
  rw [hbit c hc] at h
  cases h

theorem notBreak_of_mem_insns (ho : t.operand = none) (hc : c ∈ t.insns) {w : BitVec 32}
    (h : c.is w = true) : NotBreak w := by
  have hbit : ∀ c ∈ t.insns, ∃ i < 29, c.mask.getLsbD i = true ∧
      c.val.getLsbD i = !breakFault.getLsbD i := by
    cases t <;> first | cases ho; done | decide
  obtain ⟨i, hi, hm, hv⟩ := hbit c hc
  exact notBreak_of_bit hi ((InsnClass.is_iff.mp h i (by omega) hm).trans hv)

/-- **What `do_relocate_add` makes of an instruction** of a class that the type is for. -/
theorem doRelocateAdd_insn (hc : c ∈ t.insns) (h : c.is (load 32 m place) = true) :
    doRelocateAdd t.code place val m =
      (verdict t.range (t.x place val), t.field.write (t.x place val) place m) := by
  cases ho : t.operand with
  | none => exact doRelocateAdd_eq t place val m fun _ => notBreak_of_mem_insns ho hc h
  | some o => exact doRelocateAdd_operand ho (ne_breakFault_of_mem_insns hc h)

theorem Site.patched_insn (hc : c ∈ t.insns) (h : c.is s.word = true) :
    s.patched t val = t.field.insn (t.x s.place val) s.word := by
  have hi : t.field.isInsn = true := by
    cases t <;> first | rfl | cases hc
  rw [Site.patched, doRelocateAdd_insn hc h]
  generalize t.field = f at hi
  cases f with
  | none | data _ => simp [Field.isInsn] at hi
  | _ => exact load_store _ (by omega) (by omega)

theorem writes_of_mem_insns (hc : c ∈ t.insns) (ht : ∀ lsb, t.field ≠ .movw lsb) :
    ∀ i < 32, c.mask.getLsbD i = true → t.field.writes i = false := by
  revert c
  cases t
  case movwSabsG0 | p32MovwSabsG0 | movwSabsG1 | movwSabsG2 | movwPrelG0 | p32MovwPrelG0 |
    movwPrelG1 | p32MovwPrelG1 | movwPrelG2 | movwPrelG3 => exact absurd rfl (ht _)
  all_goals decide

theorem getLsbD_movw (hc : c = .movz ∨ c = .movn) {w : BitVec 32} (h : c.is w = true) {i : ℕ}
    (h23 : 23 ≤ i) (h29 : i < 29) : w.getLsbD i = InsnClass.movz.val.getLsbD i := by
  have hbits : ∀ i < 29, 23 ≤ i → c.mask.getLsbD i = true ∧
      c.val.getLsbD i = InsnClass.movz.val.getLsbD i := by
    rcases hc with rfl | rfl <;> decide
  obtain ⟨hm, hv⟩ := hbits i h29 h23
  rw [← hv]
  exact InsnClass.is_iff.mp h i (by omega) hm

theorem is_setField_movw (hc : c = .movz ∨ c = .movn) {w : BitVec 32} (h : c.is w = true)
    {d : InsnClass} {v : BitVec 2} (imm : BitVec 16)
    (hd : ∀ i < 32, d.mask.getLsbD i = true → (23 ≤ i ∧ i < 31) ∧
      d.val.getLsbD i = if 29 ≤ i then v.getLsbD (i - 29) else InsnClass.movz.val.getLsbD i) :
    d.is (setField (setField w 29 2 v) 5 16 imm) = true := by
  refine InsnClass.is_iff.mpr fun i hi hm => ?_
  obtain ⟨⟨h23, h31⟩, hv⟩ := hd i hi hm
  rw [getLsbD_setField _ _ _ _ hi, if_neg (by omega), getLsbD_setField _ _ _ _ hi, hv]
  by_cases h29 : 29 ≤ i
  · rw [if_pos (by omega), if_pos h29]
  · rw [if_neg (by omega), if_neg h29]
    exact getLsbD_movw hc h h23 (by omega)

theorem is_insn_movw {lsb : ℕ} (hc : c = .movz ∨ c = .movn) {w : BitVec 32} (h : c.is w = true)
    (x : BitVec 64) : (if 0 ≤ x.toInt then InsnClass.movz else .movn).is
      ((Field.movw lsb).insn x w) = true := by
  unfold Field.insn
  dsimp only
  by_cases hx : 0 ≤ x.toInt
  · rw [if_pos hx, if_pos hx]
    exact is_setField_movw hc h _ (by decide)
  · rw [if_neg hx, if_neg hx]
    exact is_setField_movw hc h _ (by decide)

/-- **A relocated instruction is the same instruction**: a word of a class that the type is for stays
in its class, or becomes the MOVZ or MOVN that the sign of the number asks for, and nothing beside
the field is changed. -/
theorem insn_kept (t : RelocType) (c : InsnClass) (s : Site) (val : BitVec 64) (hc : c ∈ t.insns)
    (h : c.is s.word = true) :
    (t.insnAfter (t.x s.place val) c).is (s.patched t val) = true ∧
      ∀ i < 32, t.field.writes i = false → (s.patched t val).getLsbD i = s.word.getLsbD i := by
  rw [Site.patched_insn hc h]
  refine ⟨?_, fun i hi hout => Field.getLsbD_insn _ _ _ hi hout⟩
  by_cases ht : ∃ lsb, t.field = .movw lsb
  · obtain ⟨lsb, hf⟩ := ht
    have hmov : c = .movz ∨ c = .movn := by
      cases t
      all_goals first | cases hf; done | simpa [RelocType.insns] using hc
    rw [RelocType.insnAfter, hf]
    exact is_insn_movw hmov h _
  · have hafter : t.insnAfter (t.x s.place val) c = c := by
      unfold RelocType.insnAfter
      split
      · rename_i lsb hf
        exact absurd ⟨lsb, hf⟩ ht
      · rfl
    rw [hafter]
    refine InsnClass.is_iff.mpr fun i hi hm => ?_
    rw [Field.getLsbD_insn _ _ _ hi (writes_of_mem_insns hc (fun lsb hf => ht ⟨lsb, hf⟩) i hi hm)]
    exact InsnClass.is_iff.mp h i hi hm

theorem operand_insn (ho : t.operand = some o) (w : BitVec 32) :
    t.x place val = val - place ∧
      o.get (t.field.insn (val - place) w) = (val - place).extractLsb' o.scale o.bits ∧
      t.range = some (-2 ^ (o.bits + o.scale - 1), 2 ^ (o.bits + o.scale - 1)) := by
  cases t
  case ldPrelLo19 | p32LdPrelLo19 | condbr19 | p32Condbr19 | tstbr14 | p32Tstbr14 | jump26 |
      p32Jump26 | call26 | p32Call26 =>
    obtain rfl := Option.some.inj ho
    refine ⟨rfl, ?_, rfl⟩
    exact (extract_setField w _ (by decide)).trans (BitVec.setWidth_eq _)
  case adrPrelLo21 | p32AdrPrelLo21 =>
    obtain rfl := Option.some.inj ho
    exact ⟨rfl, adrpImm_setField w _ 0, rfl⟩
  all_goals cases ho

/-- **A PC-relative instruction addresses the number** after its relocation exactly when the
relocation succeeds and the displacement is a multiple of the unit. -/
theorem pcRelative_exact (t : RelocType) (o : Operand) (c : InsnClass) (s : Site) (val : BitVec 64)
    (ho : t.operand = some o) (hc : c ∈ t.insns) (h : c.is s.word = true) :
    o.target s.place (s.patched t val) = val ↔
      s.ret t val = 0 ∧ 2 ^ o.scale ∣ (val - s.place).toNat := by
  obtain ⟨hx, hget, hrange⟩ := @operand_insn t o s.place val ho s.word
  have hret : s.ret t val = verdict t.range (val - s.place) := by
    rw [Site.ret, doRelocateAdd_insn hc h, hx]
  rw [Site.patched_insn hc h, hx, o.target_eq_iff hget, hret, verdict_eq_zero_iff, hrange]
  simp [Operand.Reaches, InReach, and_comm]

end Insns

/-- `mov x0, #0` with a negative number becomes a MOVN. -/
theorem insn_kept_movn : InsnClass.movn.is ((siteOf 0xd2800000#32).patched .movwSabsG0 (-5)) = true :=
  (insn_kept .movwSabsG0 .movz (siteOf 0xd2800000#32) (-5) (.head _)
    (by rw [siteOf_word]; decide)).1

/-- A call from `0x1000` to `0x2000`. -/
theorem pcRelative_exact_bl :
    imm26.target 0x1000 ((siteOf 0x94000000#32).patched .call26 0x2000) = 0x2000 := by
  refine (pcRelative_exact .call26 imm26 .bl (siteOf 0x94000000#32) 0x2000 rfl (.head _) ?_).mpr ?_
  · rw [siteOf_word]
    decide
  · decide +kernel

end Umko.AArch64

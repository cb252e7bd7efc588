import Umko.Reloc.Simultaneous

/-!
# Relocating twice

A pass over an image that is already relocated changes nothing. The two architectures differ in what
the second pass reports: AArch64 overwrites its fields with what they hold, and reports the same as
before; x86-64 finds them occupied, and refuses.
-/

namespace Umko

open Lib.Memory Lib.Patch Lib.Local Lib.BitField

/-! ### AArch64 -/

namespace AArch64

theorem updateImm_updateImm (insn mask : BitVec 32) (shift : ℕ) (imm : BitVec 64) :
    updateImm (updateImm insn mask shift imm) mask shift imm = updateImm insn mask shift imm := by
  unfold updateImm
  apply BitVec.eq_of_getLsbD_eq
  intro i hi
  simp only [BitVec.getLsbD_or, BitVec.getLsbD_and, BitVec.getLsbD_not, hi, decide_true,
    Bool.true_and]
  grind

theorem encodeImmediate_again (type : ImmType) (insn : BitVec 32) (imm : BitVec 64) :
    encodeImmediate type (encodeImmediate type insn imm) imm = encodeImmediate type insn imm := by
  have hupd : ∀ mask shift (imm : BitVec 64),
      (if updateImm insn mask shift imm = breakFault then breakFault
        else updateImm (updateImm insn mask shift imm) mask shift imm) =
          updateImm insn mask shift imm := by
    intro mask shift imm
    split
    · exact Eq.symm ‹_›
    · exact updateImm_updateImm insn mask shift imm
  unfold encodeImmediate
  by_cases h : insn = breakFault
  · simp [h]
  · rw [if_neg h]
    cases type with
    | adr => exact hupd _ _ _
    | immMax => simp [getImmShiftMask]
    | _ => exact hupd _ _ _

theorem movwInsnImm_fst (insn : BitVec 32) (sval : BitVec 64) (lsb : ℕ) (type : MovwImmType) :
    (movwInsnImm insn sval lsb type).1 = match type with
      | .movkz => insn
      | .movnz => setField insn 29 2 (if 0 ≤ sval.toInt then 0b10#2 else 0b00#2) := by
  unfold movwInsnImm
  cases type with
  | movkz => rfl
  | movnz =>
    rw [if_pos rfl]
    split
    · exact opcode_movz insn
    · exact opcode_movn insn

theorem movwInsnImm_snd (insn insn' : BitVec 32) (sval : BitVec 64) (lsb : ℕ) (type : MovwImmType) :
    (movwInsnImm insn sval lsb type).2 = (movwInsnImm insn' sval lsb type).2 := by
  unfold movwInsnImm
  cases type with
  | movkz => rfl
  | movnz =>
    rw [if_pos rfl, if_pos rfl]
    split <;> rfl

theorem movwInsnImm_again (insn : BitVec 32) (sval imm : BitVec 64) (lsb : ℕ) (type : MovwImmType) :
    (movwInsnImm (encodeImmediate .imm16 (movwInsnImm insn sval lsb type).1 imm) sval lsb type).1 =
      encodeImmediate .imm16 (movwInsnImm insn sval lsb type).1 imm := by
  rw [movwInsnImm_fst, movwInsnImm_fst]
  cases type with
  | movkz => rfl
  | movnz =>
    generalize (if 0 ≤ sval.toInt then 0b10#2 else 0b00#2) = c
    show setField (encodeImmediate .imm16 (setField insn 29 2 c) imm) 29 2 c = _
    have hop : ∀ y : BitVec 32, (∀ i, 29 ≤ i ∧ i < 31 → y.getLsbD i = c.getLsbD (i - 29)) →
        setField y 29 2 c = y := by
      intro y hy
      apply BitVec.eq_of_getLsbD_eq
      intro i hi
      rw [getLsbD_setField _ _ _ _ hi]
      split
      · exact (hy i ‹_›).symm
      · rfl
    refine hop _ fun i hi => ?_
    by_cases hb : setField insn 29 2 c = breakFault
    · have hbit := getLsbD_setField insn 29 2 c (show i < 32 by omega)
      rw [if_pos hi, hb] at hbit
      rw [hb]
      exact hbit
    · rw [encodeImmediate_imm16 hb, getLsbD_setField _ _ _ _ (by omega), if_neg (by omega),
        getLsbD_setField _ _ _ _ (by omega), if_pos hi]

section Again

variable {g : Mem → ℤ × Mem} {place : Addr}

/-- Repeating a call gives its result again, and leaves the memory as it is. -/
def Repeats (g : Mem → ℤ × Mem) : Prop := ∀ m, g (g m).2 = g m

theorem snd_finish (b : Bool) (r : ℤ × Mem) : (finish b r).2 = r.2 := by
  unfold finish
  split <;> rfl

theorem snd_finishAdrp (b : Bool) (r : ℤ × Mem) : (finishAdrp b r).2 = r.2 := by
  unfold finishAdrp
  split
  · rfl
  · exact snd_finish b r

theorem Repeats.finish (h : Repeats g) (b : Bool) : Repeats fun m => finish b (g m) := by
  intro m
  dsimp only
  rw [snd_finish, h m]

theorem Repeats.finishAdrp (h : Repeats g) (b : Bool) : Repeats fun m => finishAdrp b (g m) := by
  intro m
  dsimp only
  rw [snd_finishAdrp, h m]

theorem repeats_relocData (op : RelocOp) (val : BitVec 64) {len : ℕ}
    (h : len = 16 ∨ len = 32 ∨ len = 64) : Repeats (relocData op place val len) := by
  intro m
  rcases h with rfl | rfl | rfl
  · exact congrArg (Prod.mk _) (store_store _ _)
  · exact congrArg (Prod.mk _) (store_store _ _)
  · exact congrArg (Prod.mk _) (store_store _ _)

theorem repeats_relocInsnImm (op : RelocOp) (val : BitVec 64) (lsb len : ℕ) (type : ImmType) :
    Repeats (relocInsnImm op place val lsb len type) := by
  intro m
  unfold relocInsnImm
  dsimp only
  rw [load_store _ (by omega) (by omega), store_store, encodeImmediate_again]

theorem repeats_relocInsnMovw (op : RelocOp) (val : BitVec 64) (lsb : ℕ) (type : MovwImmType) :
    Repeats (relocInsnMovw op place val lsb type) := by
  intro m
  have himm := movwInsnImm_snd (load 32 m place) (encodeImmediate .imm16
    (movwInsnImm (load 32 m place) (doReloc op place val) lsb type).1
    (movwInsnImm (load 32 m place) (doReloc op place val) lsb type).2) (doReloc op place val) lsb type
  unfold relocInsnMovw
  dsimp only
  rw [load_store _ (by omega) (by omega), store_store, movwInsnImm_again, ← himm,
    encodeImmediate_again]

/-- **Every type**, supported or not, does the same the second time. -/
theorem repeats_doRelocateAdd (type : BitVec 32) (loc : Addr) (val : BitVec 64) :
    Repeats (doRelocateAdd type loc val) := by
  have hadrp : Repeats (relocInsnAdrp loc val) := repeats_relocInsnImm .page val 12 21 .adr
  unfold doRelocateAdd
  cases RelocType.ofCode type with
  | none => exact fun _ => rfl
  | some t =>
    cases t with
    | none => exact fun _ => rfl
    | abs64 | prel64 | abs32 | p32Abs32 | prel32 | p32Prel32 | abs16 | p32Abs16 | prel16
    | p32Prel16 => exact (repeats_relocData _ val (by decide)).finish _
    | movwUabsG0 | p32MovwUabsG0 | movwUabsG1 | p32MovwUabsG1 | movwUabsG2 | movwUabsG0Nc
    | p32MovwUabsG0Nc | movwUabsG1Nc | movwUabsG2Nc | movwUabsG3 | movwPrelG0Nc | p32MovwPrelG0Nc
    | movwPrelG1Nc | movwPrelG2Nc | movwSabsG0 | p32MovwSabsG0 | movwSabsG1 | movwSabsG2
    | movwPrelG0 | p32MovwPrelG0 | movwPrelG1 | p32MovwPrelG1 | movwPrelG2 | movwPrelG3 =>
      exact (repeats_relocInsnMovw _ val _ _).finish _
    | adrPrelPgHi21 | p32AdrPrelPgHi21 | adrPrelPgHi21Nc => exact hadrp.finishAdrp _
    | _ => exact (repeats_relocInsnImm _ val _ _ _).finish _

end Again

end AArch64

/-! ### x86-64 -/

namespace X86

/-- **A second relocation** writes nothing new. It is refused when the field is now occupied. -/
theorem doRelocateAdd_again (type : BitVec 32) (loc : Addr) (val : BitVec 64) (m : Mem) :
    doRelocateAdd type loc val (doRelocateAdd type loc val m).2 =
      (if load (Arch.width .x86_64 type) (doRelocateAdd type loc val m).2 loc ≠ 0 then noexec
        else (doRelocateAdd type loc val m).1, (doRelocateAdd type loc val m).2) := by
  cases ht : RelocType.ofCode type with
  | none =>
    rw [doRelocateAdd_unsupported ht, doRelocateAdd_unsupported ht]
    exact congrArg (·, m) (ite_self _).symm
  | some t =>
    obtain rfl := code_of_ofCode ht
    have hwidth : Arch.width .x86_64 t.code = t.width := by
      unfold Arch.width
      rw [ht]
      rfl
    have hw := t.width_mem
    simp only [List.mem_cons, List.not_mem_nil, or_false] at hw
    rw [hwidth, doRelocateAdd_eq_patch, doRelocateAdd_eq_patch, patchWord_patchField,
      patchWord_patchField]
    generalize t.value loc val = v
    generalize t.cut v = cut
    by_cases hold : load t.width m loc = 0
    · rw [if_neg (not_not.mpr hold)]
      dsimp only
      rw [load_store _ (by omega) (by omega), store_store]
      by_cases hv : v.setWidth t.width = 0
      · rw [if_neg (not_not.mpr hv), if_neg (not_not.mpr hv)]
      · rw [if_pos hv, if_pos hv]
    · rw [if_pos hold]
      dsimp only
      rw [if_pos hold, if_pos hold]

end X86

/-! ### The pass -/

/-- What a call reports when it is made once more, after it has reported `r` and left `m`. -/
def RelocEntry.resultAgain (e : RelocEntry) (m : Mem) (r : ℤ) : Arch → ℤ
  | .x86_64 => if load (Arch.width .x86_64 e.rela.type) m e.loc ≠ 0 then noexec else r
  | .aarch64 => r

theorem relocCall_again (arch : Arch) (e : RelocEntry) (m : Mem) :
    relocCall arch e (relocCall arch e m).2 =
      (e.resultAgain (relocCall arch e m).2 (relocCall arch e m).1 arch,
        (relocCall arch e m).2) := by
  cases arch with
  | x86_64 => exact X86.doRelocateAdd_again _ _ _ m
  | aarch64 => exact AArch64.repeats_doRelocateAdd _ _ _ m

theorem load_relocAll {arch : Arch} {l : List RelocEntry}
    (hd : l.Pairwise (Indep (RelocEntry.field arch) (RelocEntry.field arch))) (mem : Mem)
    {e : RelocEntry} (he : e ∈ l) :
    load (arch.width e.rela.type) (relocAll arch l ⟨mem, []⟩).mem e.loc =
      load (arch.width e.rela.type) (relocCall arch e mem).2 e.loc := by
  have hw := arch.width_mem e.rela.type
  simp only [List.mem_cons, List.not_mem_nil, or_false] at hw
  exact load_congr (by omega) (by omega) fun _ hx => relocAll_field hd mem he hx

/-- **The pass twice**: the second one returns too, and leaves the image as it is. On AArch64 it
reports what the first one has reported; on x86-64 it fails at every field that does not hold zero
now, and at the others it reports what the first one has. -/
theorem relocateSymbol_again {arch : Arch} {mod : Module} (h : FieldsApart arch mod)
    (hfit : RelasFit mod.elf) (mem : Mem) : ∃ st, relocateSymbol arch mod mem = some st ∧
      relocateSymbol arch mod st.mem =
        some ⟨st.mem, st.calls.map fun c => (c.1, c.1.resultAgain st.mem c.2 arch)⟩ := by
  have hd := entries_indep h
  have hlocal : ∀ e ∈ mod.entries, LocalTo (e.field arch) (e.field arch) (relocCall arch e) :=
    fun e _ => relocCall_local arch e
  refine ⟨_, relocateSymbol_eq hfit mem, ?_⟩
  rw [relocateSymbol_eq hfit]
  refine congrArg some ?_
  rw [calls_relocAll hd mem, List.map_map]
  have hmem : (relocAll arch mod.entries
      ⟨(relocAll arch mod.entries ⟨mem, []⟩).mem, []⟩).mem =
        (relocAll arch mod.entries ⟨mem, []⟩).mem := by
    rw [relocAll_eq_runAll, relocAll_eq_runAll]
    exact runAll_again hlocal hd (fun _ _ => subset_rfl)
      (fun e _ m => by rw [relocCall_again]) mem
  have hcalls : (relocAll arch mod.entries
      ⟨(relocAll arch mod.entries ⟨mem, []⟩).mem, []⟩).calls =
        mod.entries.map fun e => (e, e.resultAgain (relocAll arch mod.entries ⟨mem, []⟩).mem
          (relocCall arch e mem).1 arch) := by
    rw [calls_relocAll hd]
    refine List.map_congr_left fun e he => Prod.ext rfl ?_
    have hsame : (relocCall arch e (relocAll arch mod.entries ⟨mem, []⟩).mem).1 =
        (relocCall arch e (relocCall arch e mem).2).1 :=
      (relocCall_local arch e).result _ _ fun _ hx => relocAll_field hd mem he hx
    dsimp only
    rw [hsame, relocCall_again]
    cases arch with
    | x86_64 =>
      unfold RelocEntry.resultAgain
      dsimp only
      rw [load_relocAll hd mem he]
    | aarch64 => rfl
  exact congrArg₂ RelocState.mk hmem hcalls

theorem relocateSymbol_again_sampleReloc :
    ∃ st, relocateSymbol .x86_64 (sampleReloc sampleRelas) (fun _ => 0) = some st ∧
      relocateSymbol .x86_64 (sampleReloc sampleRelas) st.mem =
        some ⟨st.mem, st.calls.map fun c => (c.1, c.1.resultAgain st.mem c.2 .x86_64)⟩ :=
  relocateSymbol_again fieldsApart_sampleReloc (by
    intro i hi _
    match i, hi with
    | 0, _ | 1, _ | 2, _ | 3, _ => decide) _

end Umko

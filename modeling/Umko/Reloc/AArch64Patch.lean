import Umko.Reloc.AArch64Spec

/-!
# AArch64 relocations as patches

Every type reads and writes one word, and what it does with the word depends on its number `X`
alone; for the types of the low 12 bits of an address, on these bits.
-/

namespace Umko.AArch64

open Lib.Memory Lib.Patch Lib.BitField

def RelocType.width (t : RelocType) : ℕ :=
  match t.field with
  | .none => 0
  | .data n => n
  | _ => 32

theorem RelocType.width_mem (t : RelocType) : t.width ∈ [0, 16, 32, 64] := by
  cases t <;> decide

section Patch

variable {loc loc' : Addr} {val val' : BitVec 64} {w : ℕ} {g g' : Mem → ℤ × Mem}

/-! ### The routines -/

theorem samePatch_finish (h : SamePatch loc loc' w g g') (b : Bool) :
    SamePatch loc loc' w (fun m => finish b (g m)) fun m => finish b (g' m) := by
  obtain ⟨f, hf, hf'⟩ := h
  have hfin : ∀ a m, finish b (patchWord a f m) = patchWord a
      (fun old => (if b && (f old).1 == erange then noexec else 0, (f old).2)) m := by
    intro a m
    unfold finish patchWord
    dsimp only
    split <;> rfl
  exact ⟨_, fun m => (congrArg (finish b) (hf m)).trans (hfin loc m),
    fun m => (congrArg (finish b) (hf' m)).trans (hfin loc' m)⟩

theorem samePatch_finishAdrp (h : SamePatch loc loc' w g g') (b : Bool) :
    SamePatch loc loc' w (fun m => finishAdrp b (g m)) fun m => finishAdrp b (g' m) := by
  obtain ⟨f, hf, hf'⟩ := h
  have hfin : ∀ a m, finishAdrp b (patchWord a f m) = patchWord a
      (fun old => if (f old).1 ≠ 0 ∧ (f old).1 ≠ erange then f old
        else (if b && (f old).1 == erange then noexec else 0, (f old).2)) m := by
    intro a m
    unfold finishAdrp finish patchWord
    dsimp only
    split
    · rfl
    · split <;> rfl
  exact ⟨_, fun m => (congrArg (finishAdrp b) (hf m)).trans (hfin loc m),
    fun m => (congrArg (finishAdrp b) (hf' m)).trans (hfin loc' m)⟩

theorem samePatch_relocData {op : RelocOp} (hx : doReloc op loc val = doReloc op loc' val') {n : ℕ}
    (hn : n = 16 ∨ n = 32 ∨ n = 64) :
    SamePatch loc loc' n (relocData op loc val n) (relocData op loc' val' n) := by
  unfold relocData
  rw [← hx]
  rcases hn with rfl | rfl | rfl <;> exact ⟨fun _ => (_, some _), fun _ => rfl, fun _ => rfl⟩

theorem samePatch_relocInsnMovw {op : RelocOp} (hx : doReloc op loc val = doReloc op loc' val')
    (lsb : ℕ) (type : MovwImmType) : SamePatch loc loc' 32 (relocInsnMovw op loc val lsb type)
      (relocInsnMovw op loc' val' lsb type) := by
  unfold relocInsnMovw
  rw [← hx]
  refine ⟨fun insn => ?_, fun _ => ?_, fun _ => ?_⟩
  · let r := movwInsnImm insn (doReloc op loc val) lsb type
    exact (if r.2.toNat > 65535 then erange else 0, some (encodeImmediate .imm16 r.1 r.2))
  · rfl
  · rfl

theorem samePatch_relocInsnImm {op : RelocOp} (hx : doReloc op loc val = doReloc op loc' val')
    (lsb len : ℕ) (type : ImmType) : SamePatch loc loc' 32 (relocInsnImm op loc val lsb len type)
      (relocInsnImm op loc' val' lsb len type) := by
  unfold relocInsnImm
  rw [← hx]
  exact ⟨fun insn => (_, some (encodeImmediate type insn _)), fun _ => rfl, fun _ => rfl⟩

theorem samePatch_relocInsnImm_low {lsb len : ℕ} (h : lsb + len < 64)
    (hlow : ∀ i < lsb + len, val.getLsbD i = val'.getLsbD i) (type : ImmType) :
    SamePatch loc loc' 32 (fun m => finish false (relocInsnImm .abs loc val lsb len type m))
      fun m => finish false (relocInsnImm .abs loc' val' lsb len type m) := by
  have himm : val.sshiftRight lsb &&& ((bit (lsb + len) - 1#64) >>> lsb) =
      val'.sshiftRight lsb &&& ((bit (lsb + len) - 1#64) >>> lsb) := by
    apply BitVec.eq_of_getLsbD_eq
    intro i _
    rw [getLsbD_imm val h, getLsbD_imm val' h]
    by_cases hi : i < len
    · rw [hlow _ (by omega)]
    · simp [hi]
  refine ⟨fun insn => (0, some (encodeImmediate type insn
    (val.sshiftRight lsb &&& ((bit (lsb + len) - 1#64) >>> lsb)))), fun _ => rfl, fun _ => ?_⟩
  rw [himm]
  rfl

/-! ### The switch -/

/-- **A type patches its field by its number `X`**, wherever the place is. -/
theorem samePatch_doRelocateAdd (t : RelocType) (hx : t.x loc val = t.x loc' val') :
    SamePatch loc loc' t.width (doRelocateAdd t.code loc val) (doRelocateAdd t.code loc' val') := by
  have hpage : ∀ a v, doReloc .page a v = pageOf v - pageOf a := by
    intro a v
    rw [← and_not_low, ← and_not_low]
    rfl
  unfold doRelocateAdd
  rw [ofCode_code]
  cases t with
  | none => exact ⟨fun _ => (0, none), fun _ => rfl, fun _ => rfl⟩
  | abs64 | prel64 | abs32 | p32Abs32 | prel32 | p32Prel32 | abs16 | p32Abs16 | prel16
  | p32Prel16 =>
    refine samePatch_finish (samePatch_relocData ?_ (by decide)) _
    exact hx
  | movwUabsG0 | p32MovwUabsG0 | movwUabsG1 | p32MovwUabsG1 | movwUabsG2 | movwUabsG0Nc
  | p32MovwUabsG0Nc | movwUabsG1Nc | movwUabsG2Nc | movwUabsG3 | movwPrelG0Nc | p32MovwPrelG0Nc
  | movwPrelG1Nc | movwPrelG2Nc | movwSabsG0 | p32MovwSabsG0 | movwSabsG1 | movwSabsG2
  | movwPrelG0 | p32MovwPrelG0 | movwPrelG1 | p32MovwPrelG1 | movwPrelG2 | movwPrelG3 =>
    refine samePatch_finish (samePatch_relocInsnMovw ?_ _ _) _
    exact hx
  | adrPrelPgHi21 | p32AdrPrelPgHi21 | adrPrelPgHi21Nc =>
    have hx' : doReloc .page loc val = doReloc .page loc' val' := by
      rw [hpage, hpage]
      exact hx
    exact samePatch_finishAdrp (samePatch_relocInsnImm hx' 12 21 .adr) _
  | _ =>
    refine samePatch_finish (samePatch_relocInsnImm ?_ _ _ _) _
    exact hx

/-- **Every supported type is a patch of its field.** -/
theorem isPatch_doRelocateAdd (t : RelocType) (val : BitVec 64) :
    IsPatch loc t.width (doRelocateAdd t.code loc val) :=
  (samePatch_doRelocateAdd t rfl).left

end Patch

end Umko.AArch64

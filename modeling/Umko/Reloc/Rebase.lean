import Umko.Reloc.Pass

/-!
# Relocations and the base of the image

What becomes of one relocation when the place and the value both move by whole pages: for the types
relative to the place and those of the low 12 bits nothing, for the 64-bit absolute ones the value
in the field moves along. The other types store bits of an address that depend on the base.
-/

namespace Umko

open Lib.Memory Lib.Patch

/-- How a type depends on the base of the image. -/
inductive BaseKind where
  | absolute | relative | low12 | other
  deriving DecidableEq

def X86.RelocType.baseKind : X86.RelocType → BaseKind
  | .r64 => .absolute
  | .pc32 | .plt32 | .pc64 => .relative
  | .none | .r32 | .r32s => .other

def AArch64.RelocType.baseKind : AArch64.RelocType → BaseKind
  | .abs64 => .absolute
  | .prel64 | .prel32 | .prel16 | .p32Prel32 | .p32Prel16
  | .movwPrelG0 | .movwPrelG0Nc | .movwPrelG1 | .movwPrelG1Nc | .movwPrelG2 | .movwPrelG2Nc
  | .movwPrelG3 | .p32MovwPrelG0 | .p32MovwPrelG0Nc | .p32MovwPrelG1
  | .ldPrelLo19 | .p32LdPrelLo19 | .adrPrelLo21 | .p32AdrPrelLo21
  | .tstbr14 | .p32Tstbr14 | .condbr19 | .p32Condbr19
  | .jump26 | .p32Jump26 | .call26 | .p32Call26
  | .adrPrelPgHi21 | .adrPrelPgHi21Nc | .p32AdrPrelPgHi21 => .relative
  | .addAbsLo12Nc | .p32AddAbsLo12Nc | .ldst8AbsLo12Nc | .ldst16AbsLo12Nc | .p32Ldst16AbsLo12Nc
  | .ldst32AbsLo12Nc | .p32Ldst32AbsLo12Nc | .ldst64AbsLo12Nc | .p32Ldst64AbsLo12Nc
  | .ldst128AbsLo12Nc | .p32Ldst128AbsLo12Nc => .low12
  | _ => .other

def Arch.baseKind (arch : Arch) (type : BitVec 32) : BaseKind :=
  match arch with
  | .x86_64 => ((X86.RelocType.ofCode type).map X86.RelocType.baseKind).getD .other
  | .aarch64 => ((AArch64.RelocType.ofCode type).map AArch64.RelocType.baseKind).getD .other

section Rebase

variable {δ loc : Addr} {val : BitVec 64}

/-! ### Types that do not depend on the base -/

theorem X86.samePatch_rebase {t : X86.RelocType} (h : t.baseKind = .relative) :
    SamePatch loc (loc + δ) t.width (X86.doRelocateAdd t.code loc val)
      (X86.doRelocateAdd t.code (loc + δ) (val + δ)) := by
  have hv : t.value (loc + δ) (val + δ) = t.value loc val := by
    cases t with
    | pc32 | plt32 | pc64 => exact add_sub_add_right_eq_sub val loc δ
    | _ => cases h
  refine ⟨_, fun m => X86.doRelocateAdd_eq_patch t loc val m, fun m => ?_⟩
  rw [X86.doRelocateAdd_eq_patch t (loc + δ) (val + δ) m, hv]

theorem AArch64.x_rebase (hδ : 4096 ∣ δ.toNat) {t : AArch64.RelocType}
    (h : t.baseKind = .relative) : t.x (loc + δ) (val + δ) = t.x loc val := by
  have hpage : pageOf (val + δ) - pageOf (loc + δ) = pageOf val - pageOf loc := by
    rw [pageOf_add hδ, pageOf_add hδ, add_sub_add_right_eq_sub]
  have hrel : val + δ - (loc + δ) = val - loc := add_sub_add_right_eq_sub val loc δ
  cases t with
  | adrPrelPgHi21 | adrPrelPgHi21Nc | p32AdrPrelPgHi21 => exact hpage
  | prel64 | prel32 | prel16 | p32Prel32 | p32Prel16 | movwPrelG0 | movwPrelG0Nc | movwPrelG1
  | movwPrelG1Nc | movwPrelG2 | movwPrelG2Nc | movwPrelG3 | p32MovwPrelG0 | p32MovwPrelG0Nc
  | p32MovwPrelG1 | ldPrelLo19 | p32LdPrelLo19 | adrPrelLo21 | p32AdrPrelLo21 | tstbr14
  | p32Tstbr14 | condbr19 | p32Condbr19 | jump26 | p32Jump26 | call26 | p32Call26 => exact hrel
  | _ => cases h

theorem AArch64.samePatch_low12 (hδ : 4096 ∣ δ.toNat) {t : AArch64.RelocType}
    (h : t.baseKind = .low12) : SamePatch loc (loc + δ) t.width
      (AArch64.doRelocateAdd t.code loc val) (AArch64.doRelocateAdd t.code (loc + δ) (val + δ)) := by
  have hlow : ∀ i < 12, val.getLsbD i = (val + δ).getLsbD i := fun i hi =>
    (getLsbD_add_page hδ val hi).symm
  unfold AArch64.doRelocateAdd
  rw [AArch64.ofCode_code]
  cases t with
  | addAbsLo12Nc | p32AddAbsLo12Nc | ldst8AbsLo12Nc | ldst16AbsLo12Nc | p32Ldst16AbsLo12Nc
  | ldst32AbsLo12Nc | p32Ldst32AbsLo12Nc | ldst64AbsLo12Nc | p32Ldst64AbsLo12Nc
  | ldst128AbsLo12Nc | p32Ldst128AbsLo12Nc =>
    exact AArch64.samePatch_relocInsnImm_low (by omega) hlow .imm12
  | _ => cases h

/-- **A relocation that does not depend on the base** does the same to its word at both places. -/
theorem Arch.samePatch_rebase (arch : Arch) {type : BitVec 32} (hδ : 4096 ∣ δ.toNat)
    (h : arch.baseKind type = .relative ∨ arch.baseKind type = .low12) :
    SamePatch loc (loc + δ) (arch.width type) (arch.doRelocateAdd type loc val)
      (arch.doRelocateAdd type (loc + δ) (val + δ)) := by
  cases arch with
  | x86_64 =>
    unfold Arch.baseKind at h
    unfold Arch.width
    cases ht : X86.RelocType.ofCode type with
    | none => simp [ht] at h
    | some t =>
      obtain rfl := X86.code_of_ofCode ht
      rw [ht] at h
      rcases h with h | h
      · exact X86.samePatch_rebase h
      · cases t <;> cases h
  | aarch64 =>
    unfold Arch.baseKind at h
    unfold Arch.width
    cases ht : AArch64.RelocType.ofCode type with
    | none => simp [ht] at h
    | some t =>
      obtain rfl := AArch64.code_of_ofCode ht
      rw [ht] at h
      rcases h with h | h
      · exact AArch64.samePatch_doRelocateAdd t (AArch64.x_rebase hδ h).symm
      · exact AArch64.samePatch_low12 hδ h

/-! ### Absolute types -/

/-- **A 64-bit absolute relocation** that succeeds leaves the value in its field. -/
theorem Arch.load_absolute (arch : Arch) {type : BitVec 32} (h : arch.baseKind type = .absolute)
    {m : Mem} (hret : (arch.doRelocateAdd type loc val m).1 = 0) :
    arch.width type = 64 ∧ load 64 (arch.doRelocateAdd type loc val m).2 loc = val := by
  have hstore : load 64 (store m loc val) loc = val := load_store val (by omega) (by omega)
  cases arch with
  | x86_64 =>
    unfold Arch.baseKind at h
    unfold Arch.width
    cases ht : X86.RelocType.ofCode type with
    | none => simp [ht] at h
    | some t =>
      obtain rfl := X86.code_of_ofCode ht
      rw [ht] at h
      cases t with
      | r64 =>
        have hdef : Arch.x86_64.doRelocateAdd X86.RelocType.r64.code loc val m =
          if load 64 m loc ≠ 0 then (noexec, m) else (0, store m loc val) := rfl
        rw [hdef] at hret ⊢
        refine ⟨rfl, ?_⟩
        by_cases hz : load 64 m loc ≠ 0
        · rw [if_pos hz] at hret
          exact absurd hret noexec_ne_zero
        · rw [if_neg hz]
          exact hstore
      | _ => cases h
  | aarch64 =>
    unfold Arch.baseKind at h
    unfold Arch.width
    cases ht : AArch64.RelocType.ofCode type with
    | none => simp [ht] at h
    | some t =>
      obtain rfl := AArch64.code_of_ofCode ht
      rw [ht] at h
      cases t with
      | abs64 => exact ⟨rfl, hstore⟩
      | _ => cases h

end Rebase

end Umko

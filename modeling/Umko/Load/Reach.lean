import Umko.Load.Integrity
import Umko.Reloc.AArch64Insn

/-!
# What the code of the modules addresses

The branches, calls and literals of the loaded modules at the end of a run, as the processor reads
them: a PC-relative operand addresses the symbol that its relocation names, where the environment
has it at the end, exactly when the operand reaches that far. The loader itself only refuses what is
out of range on AArch64: `R_X86_64_PC32` and `_PLT32` are cut without a report.
-/

namespace Umko

open Lib.Memory Lib.Patch Lib.PcRel

/-! ### Operands -/

/-- The PC-relative operand of a type: the field is the displacement itself. -/
def X86.RelocType.operand : X86.RelocType → Option Operand
  | .pc32 | .plt32 => some disp32
  | _ => Option.none

/-- The PC-relative operand of a type that has one. -/
def Arch.operand (arch : Arch) (type : BitVec 32) : Option Operand :=
  match arch with
  | .x86_64 => (X86.RelocType.ofCode type).bind X86.RelocType.operand
  | .aarch64 => (AArch64.RelocType.ofCode type).bind AArch64.RelocType.operand

/-- The word that a compiler leaves at a place of the type: zero, or an instruction of a class that
the type is for. -/
def Arch.Takes (arch : Arch) (type w : BitVec 32) : Prop :=
  match arch with
  | .x86_64 => w = 0
  | .aarch64 => ∃ t, AArch64.RelocType.ofCode type = some t ∧ ∃ c ∈ t.insns, c.is w = true

section Operand

variable {arch : Arch} {type : BitVec 32} {o : Operand} {place : Addr} {val : BitVec 64} {m : Mem}

theorem width_of_operand (ho : arch.operand type = some o) : arch.width type = 32 := by
  unfold Arch.operand at ho
  unfold Arch.width
  cases arch with
  | x86_64 =>
    obtain ⟨t, ht, ho⟩ := Option.bind_eq_some_iff.mp ho
    dsimp only
    rw [ht]
    cases t
    all_goals first | rfl | cases ho
  | aarch64 =>
    obtain ⟨t, ht, ho⟩ := Option.bind_eq_some_iff.mp ho
    dsimp only
    rw [ht]
    cases t
    all_goals first | rfl | cases ho

/-- **`do_relocate_add` makes the operand address the number** exactly when the operand reaches it. -/
theorem target_doRelocateAdd (ho : arch.operand type = some o)
    (hw : arch.Takes type (load 32 m place)) :
    o.target place (load 32 (arch.doRelocateAdd type place val m).2 place) = val ↔
      o.Reaches (val - place) := by
  refine o.target_eq_iff ?_
  unfold Arch.operand at ho
  unfold Arch.Takes at hw
  cases arch with
  | x86_64 =>
    obtain ⟨t, ht, ho⟩ := Option.bind_eq_some_iff.mp ho
    obtain ⟨hwidth, hv, rfl⟩ : t.width = 32 ∧ t.value place val = val - place ∧ o = disp32 := by
      cases t
      case pc32 | plt32 => exact ⟨rfl, rfl, (Option.some.inj ho).symm⟩
      all_goals cases ho
    rw [← X86.code_of_ofCode ht]
    show load 32 (X86.doRelocateAdd t.code place val m).2 place = _
    rw [X86.doRelocateAdd_eq_patch, hv, hwidth, X86.patchWord_patchField, if_neg (not_not.mpr hw)]
    exact (load_store _ (by omega) (by omega)).trans (BitVec.setWidth_eq_extractLsb' (by omega))
  | aarch64 =>
    obtain ⟨t, ht, ho⟩ := Option.bind_eq_some_iff.mp ho
    obtain ⟨t', ht', c, hc, hw⟩ := hw
    obtain rfl := Option.some.inj (ht.symm.trans ht')
    rw [← AArch64.code_of_ofCode ht]
    obtain ⟨hx, hget, -⟩ := @AArch64.operand_insn t o place val ho (load 32 m place)
    have hpatched := @AArch64.Site.patched_insn t c ⟨place, m⟩ val hc hw
    rw [hx] at hpatched
    exact (congrArg o.get hpatched).trans hget

end Operand

/-! ### Runs -/

/-- Section `i` as the file has it, at the addresses of the section. -/
def Elfio.raw (elf : Elfio) (file : ℕ → Byte) (i : ℕ) : Mem :=
  fun x => elf.fileByte file i (x - (elf.sec i).address).toNat

theorem holdsFile_raw (elf : Elfio) (file : ℕ → Byte) (i : ℕ) :
    elf.HoldsFile file (elf.raw file i) i := by
  intro k hk
  have hlt := (elf.sec i).size.isLt
  rw [Elfio.raw, add_sub_cancel_left, BitVec.toNat_ofNat, Nat.mod_eq_of_lt (by omega)]

/-- The word of the file at the place of the entry `r` of section `j`. -/
def Elfio.fileWord (elf : Elfio) (file : ℕ → Byte) (j : ℕ) (r : Rela) : BitVec 32 :=
  load 32 (elf.raw file (elf.sec j).info.toNat) (elf.place j r)

/-- At the end of a run, the PC-relative operands in the code of every module that has been
protected, and that has found a definition of every name that it looks up, address the symbols
where the environment of the end has them, exactly when they reach them. -/
def OperandsReach (arch : Arch) (mc : Machine) (as : List Action) : Prop :=
  ∀ before mod w size p base symtab, before ++ [.loadModule mod w] <+: as →
    (run arch (.start mc) before).halted = false → LinkableLoad arch mod w size p base →
    w.protectOk = true → w.parsed.2.LastTable symtab → AllFound arch mc before mod w →
    let elf := (run arch (.start mc) before).linked mod w
    let st := run arch (.start mc) as
    ∀ j r S o, elf.NamesAt st.env symtab j r S →
      (elf.sec (elf.sec j).info.toNat).guarded = true → arch.operand r.type = some o →
      arch.Takes r.type (elf.fileWord w.file j r) →
      (o.target (elf.place j r) (load 32 st.mc.mem (elf.place j r)) = S + r.addend ↔
        o.Reaches (S + r.addend - elf.place j r))

/-- **Calls, branches and literals reach their symbols** at the end of a run, as far as their
operands do. -/
theorem operandsReach_of_bounded {arch : Arch} {mc : Machine} {as : List Action}
    (hfit : ∀ a ∈ as, a.Fits) (hbounded : BoundedRun arch (.start mc) as) (hkept : PagesKept as) :
    OperandsReach arch mc as := by
  intro before mod w size p base symtab hload hlive h hok ht hfound elf st j r S o hn hg ho htakes
  have himage := linkedImage_guarded hfit hbounded hkept hload hlive h hok ht hfound
  have hfield := himage.field j r S hn hg _ (holdsFile_raw elf w.file (elf.sec j).info.toNat)
  rw [width_of_operand ho] at hfield
  rw [load_congr (by omega) (by decide) hfield]
  exact target_doRelocateAdd ho htakes

/-! ### Samples -/

/-- 16 bytes of code with a BL, and an `R_AARCH64_CALL26` against the import `host`. -/
def branchObject : Elfio := (callerObject "f").modify 3 fun s =>
  { s with relas := ⟨1, fun i => if i = 0 then some ⟨8, 2, 283, 0⟩ else none⟩ }

def branchWorld : World :=
  { callerWorld with
    file := fun k => if k = 0x4b then 0x94 else 0
    parsed := (true, branchObject) }

def branchRun : List Action :=
  [.registerFunc "host" 0x1000, .loadModule (Module.fresh ⟨[], Nat.two_pow_pos 16⟩) branchWorld]

theorem relaAt_branchObject {i k : ℕ} {r : Rela} (h : branchObject.RelaAt i k r) :
    i = 3 ∧ k = 0 ∧ r = ⟨8, 2, 283, 0⟩ := by
  obtain ⟨hi, hr, hk, hentry⟩ := h
  match i, hi with
  | 3, _ =>
    obtain rfl : k = 0 := Nat.lt_one_iff.mp hk
    exact ⟨rfl, rfl, (Option.some.inj hentry).symm⟩
  | 0, _ | 1, _ | 2, _ => exact absurd hr.1 (by decide)

theorem linkableLoad_branch : LinkableLoad .aarch64 (Module.fresh ⟨[], by simp⟩) branchWorld 0x50
    0x100000000000 0x20000 where
  layout_zero := rfl
  fits := (by decide +kernel : LayoutFits branchObject)
  paged base hb := by
    obtain rfl := Option.some.inj hb
    decide
  unmapped h := by cases h
  opened := rfl
  fileSize := rfl
  fileAddr := rfl
  parsed := rfl
  image := rfl
  relas := (by decide +kernel : RelasFit branchObject)
  fields := by
    refine ⟨fun i k r hr => ?_, fun i k r i' k' r' hr hr' hne => ?_⟩
    · obtain ⟨rfl, -, rfl⟩ := relaAt_branchObject hr
      decide
    · obtain ⟨rfl, rfl, -⟩ := relaAt_branchObject hr
      obtain ⟨rfl, rfl, -⟩ := relaAt_branchObject hr'
      exact absurd rfl hne
  inFile := (by decide +kernel : ∀ i < branchObject.size, branchObject.Copies i →
    (branchObject.sec i).offset.toNat + (branchObject.sec i).size.toNat ≤ 0x50)
  apart := disjoint_range (by decide +kernel) (by decide +kernel) (by decide +kernel)

theorem boundedRun_branch : BoundedRun .aarch64 (.start startMachine) branchRun := by
  refine ⟨fun a ha => ?_, fun before a hpre => ?_⟩
  · rcases List.mem_pair.mp ha with rfl | rfl
    · trivial
    · refine ⟨linkableLoad_branch.toPagedLoad, ?_, fun h => by cases h⟩
      intro i hi hr j hj r hentry _
      obtain ⟨rfl, -, rfl⟩ := @relaAt_branchObject i j.toNat r
        ⟨hi, hr, hj, (congrArg _ (BitVec.ofNat_toNat ..)).trans hentry⟩
      exact .inr (by decide)
  · have ha : a ∈ branchRun := hpre.subset (List.mem_append_right _ (List.mem_singleton_self _))
    rcases List.mem_pair.mp ha with rfl | rfl
    · trivial
    · exact fun _ _ _ _ => rfl

/-- The call at `0x20008` reaches the host at `0x1000`. -/
theorem operandsReach_of_bounded_branch :
    imm26.target 0x20008 (load 32 (run .aarch64 (.start startMachine) branchRun).mc.mem 0x20008) =
      0x1000 := by
  have hfit : ∀ a ∈ branchRun, a.Fits := by
    intro a ha
    rcases List.mem_pair.mp ha with rfl | rfl
    · trivial
    · show TablesFit branchObject
      decide +kernel
  have htable : branchObject.LastTable 2 := by
    refine ⟨by decide, rfl, fun j hj hlt => ?_⟩
    match j, hj with
    | 3, _ => decide
  have hfound : AllFound .aarch64 startMachine [.registerFunc "host" 0x1000]
      (Module.fresh ⟨[], by simp⟩) branchWorld := by
    unfold AllFound
    decide +kernel
  have hkept : PagesKept branchRun := by
    refine ⟨fun a ha => (boundedRun_branch.contained a ha).paged, ?_⟩
    exact List.pairwise_pair.mpr (Set.empty_disjoint _)
  refine (operandsReach_of_bounded hfit boundedRun_branch hkept _ _ _ _ _ _ _ (List.prefix_refl _)
    rfl linkableLoad_branch rfl htable hfound 3 ⟨8, 2, 283, 0⟩ 0x1000 imm26 ?_ ?_ ?_ ?_).mpr ?_
  · exact ⟨⟨0, by decide, by decide +kernel, by decide +kernel, by decide +kernel⟩,
      by decide +kernel, _, rfl, by decide +kernel⟩
  · decide +kernel
  · rfl
  · exact ⟨.call26, by decide +kernel, .bl, .head _, by decide +kernel⟩
  · decide +kernel

end Umko

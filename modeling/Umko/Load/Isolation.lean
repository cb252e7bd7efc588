import Umko.Load.Run
import Umko.Reloc.Isolation

/-!
# Isolation of the modules of a run

Each load of a run relocates its own sections and nothing else, as long as the offsets in the RELA
tables of the objects fit: the memory of the host and of the modules loaded before is not touched.
-/

namespace Umko

open Lib.Memory

/-! ### One load -/

section Load

variable {arch : Arch} {mod : Module} {env : SysEnv} {w : World} {mc : Machine}

/-- The table of the symbols that the entries of an object name. -/
def Elfio.lastSymbols (elf : Elfio) (ix : BitVec 32) : SymbolTable :=
  (elf.sec (elf.symtabBelow ix elf.size).toNat).symbols

/-- The offsets in the object that is loaded fit. -/
def Confined (arch : Arch) (mod : Module) (w : World) : Prop :=
  OffsetsFit arch (mod.object w) ((mod.object w).lastSymbols mod.symSecIndex)

theorem symtabBelow_readdressed {elf elf' : Elfio} (h : Elfio.Readdressed elf elf')
    (ix : BitVec 32) (n : ℕ) : elf'.symtabBelow ix n = elf.symtabBelow ix n := by
  induction n with
  | zero => rfl
  | succ n ih =>
    obtain ⟨a, ha⟩ := h.exists_sec n
    rw [Elfio.symtabBelow, Elfio.symtabBelow, ha, ih]

theorem symSecIndex_link : (link mod env w mc).mod.symSecIndex =
    (mod.object w).symtabBelow mod.symSecIndex (mod.object w).size := by
  have hr := @readdressed_prepare mod w mc
  refine (layoutSymbolAddr_linked (prepare mod w mc).1 env w.junk).symSecIndex.trans ?_
  rw [prepare_keeps.1, symtabBelow_readdressed hr, hr.size]

theorem Confined.offsetsFit (h : Confined arch mod w) : OffsetsFit arch (link mod env w mc).mod.elf
    ((link mod env w mc).mod.elf.sec (link mod env w mc).mod.symSecIndex.toNat).symbols := by
  have hlink : Elfio.Relinked (mod.object w) (link mod env w mc).mod.elf :=
    readdressed_prepare.relinked.trans (relinked_layoutSymbolAddr (prepare mod w mc).1 env w.junk)
  refine hlink.offsetsFit h fun x hx => ?_
  obtain ⟨a, ha⟩ := (@readdressed_prepare mod w mc).exists_sec
    (link mod env w mc).mod.symSecIndex.toNat
  obtain ⟨t, ht, hsome⟩ := @sec_link mod env w mc (link mod env w mc).mod.symSecIndex.toNat
  rw [ht] at hx
  rw [ha] at hsome
  rw [hsome, symSecIndex_link] at hx
  exact hx

end Load

/-! ### Runs -/

/-- The offsets in the object that the action loads, if it is a load, fit. -/
def Action.Confined (arch : Arch) : Action → Prop
  | .registerFunc .. => True
  | .loadModule mod w => Umko.Confined arch mod w

end Umko

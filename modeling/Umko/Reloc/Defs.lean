import Umko.Elf
import Umko.Lib.Patch

/-!
# Results of `do_relocate_add`

Zero, or an error number negated.
-/

namespace Umko

/-- `-ENOEXEC` -/
def noexec : ℤ := -8

/-- `-ERANGE` -/
def erange : ℤ := -34

theorem noexec_ne_zero : noexec ≠ 0 := by decide

end Umko

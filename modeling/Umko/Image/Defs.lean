import Umko.Module
import Umko.Layout.Defs
import Umko.Lib.Pages

/-!
# The image of a module

`init_section_addr`, `move_module` and `mod_protect`: the sections in the mapping of the file, their
copies in the image, and the protection of the image.

What the calls `mmap` and `mprotect` answer is a parameter. An anonymous mapping is readable and
writable; its bytes beyond the length asked for are left open.
-/

namespace Umko

open Lib.Memory

/-- The memory of the process. -/
structure Machine where
  mem : Mem
  prot : PageTable

def initSectionAddr (mod : Module) : Module :=
  { mod with elf := mod.elf.map fun sec => { sec with address := mod.elfAddr + sec.offset } }

/-- The body of the loop of `move_module` at section `i`. -/
def moveStep (base : Addr) (vsec : List SectionLayout) (st : Mem × Elfio) (i : ℕ) : Mem × Elfio :=
  let sec := st.2.sec i
  let shFlag := sec.flags.setWidth 32
  if shFlag &&& shfAlloc = 0 then st
  else
    let dest := base + (vsec.getD i ⟨0⟩).offset
    let mem := if sec.type ≠ shtNobits then memcpy st.1 dest sec.address sec.size.toNat else st.1
    (mem, st.2.setAddress i dest)

/-- `move_module`, where `ptr` is what `mmap` returns, `none` for `MAP_FAILED`. -/
def moveModule (mod : Module) (ptr : Option Addr) (mc : Machine) : ℤ × Module × Machine :=
  match ptr with
  | none => (-1, mod, mc)
  | some ptr =>
    let prot := setProt mc.prot ptr mod.layout.totalSize.toNat Prot.readWrite
    let mem := memset mc.mem ptr 0 mod.layout.totalSize.toNat
    let st := (List.range mod.elf.size).foldl (moveStep ptr mod.secLayout) (mem, mod.elf)
    (0, { mod with layout := { mod.layout with base := ptr }, elf := st.2 }, ⟨st.1, prot⟩)

/-- `mod_protect`, where `ok` tells whether `mprotect` succeeds. -/
def modProtect (mod : Module) (ok : Bool) (mc : Machine) : BitVec 32 × Machine :=
  if ok then
    let prot := setProt mc.prot mod.layout.base mod.layout.roAfterInitSize.toNat Prot.readExec
    (0, { mc with prot := prot })
  else (-1, mc)

end Umko

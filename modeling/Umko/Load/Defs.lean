import Umko.Image.Defs
import Umko.Symbols.Defs
import Umko.Reloc.Pass

/-!
# Loading a module

`load_reloc_elf`, `mod_init_and_construct` and `load_module`, which carries out its eight stages one
after another and looks at the result of none.

What the system calls answer, what ELFIO makes of the file and what the code of the module does to
the memory are given by a `World`. The code of a module does not touch the objects of the loader.
-/

namespace Umko

open Lib.Memory

/-- What a load finds outside the loader. -/
structure World where
  /-- whether `open` gives a descriptor -/
  openOk : Bool
  /-- `sb.st_size`, `none` where `fstat` fails -/
  fileSize : Option (BitVec 64)
  /-- the mapping of the file, `none` for `MAP_FAILED` -/
  fileAddr : Option Addr
  /-- the bytes of the file -/
  file : ℕ → Byte
  /-- the result of `elf.load(stream)`, and the object after it -/
  parsed : Bool × Elfio
  /-- the mapping of the image, `none` for `MAP_FAILED` -/
  image : Option Addr
  /-- whether `mprotect` succeeds -/
  protectOk : Bool
  /-- what `newValue` holds when the table of a section is reached -/
  junk : ℕ → Addr
  /-- what the code at an address does to the memory when it is called -/
  code : Addr → Mem → Mem

/-! ### The object file -/

def loadRelocElf (mod : Module) (w : World) (mc : Machine) : BitVec 32 × Module × Machine :=
  if w.openOk = false then (-1, mod, mc)
  else
    match w.fileSize with
    | none => (-1, mod, mc)
    | some size =>
      match w.fileAddr with
      | none => (-1, mod, mc)
      | some p =>
        let mc := ⟨writeBytes mc.mem p size.toNat w.file,
          setProt mc.prot p size.toNat Prot.readWrite⟩
        let mod := { mod with elf := w.parsed.2 }
        if w.parsed.1 = false then (-1, mod, mc) else (0, { mod with elfAddr := p }, mc)

/-! ### The code of the module -/

/-- A call into the module: the pointer `j` of the init array in section `i`, or the recorded
`Construct`. -/
inductive Call where
  | init (i j : ℕ) (fn : Addr)
  | construct (fn : Addr)
  deriving DecidableEq

def Call.fn : Call → Addr
  | .init _ _ fn => fn
  | .construct fn => fn

/-- The state of `mod_init_and_construct`: the memory, and the calls made so far. -/
structure InitState where
  mem : Mem
  calls : List Call

def InitState.call (code : Addr → Mem → Mem) (st : InitState) (c : Call) : InitState :=
  ⟨code c.fn st.mem, st.calls ++ [c]⟩

/-- `fn[j]()`, for the array at `addr` in section `i`. -/
def initCall (code : Addr → Mem → Mem) (i : ℕ) (addr : Addr) (st : InitState) (j : ℕ) :
    InitState :=
  st.call code (.init i j (load 64 st.mem (addr + 8 * BitVec.ofNat 64 j)))

/-- The body of the loop of `mod_init_and_construct` at section `i`: an error where it divides by
zero, which kills the process. -/
def initStep (code : Addr → Mem → Mem) (elf : Elfio) (st : InitState) (i : ℕ) :
    Except InitState InitState :=
  let sec := elf.sec i
  if sec.type = shtInitArray then
    if sec.entrySize = 0 then .error st
    else
      let num := sec.size / sec.entrySize
      .ok ((List.range num.toNat).foldl (initCall code i sec.address) st)
  else .ok st

/-- `mod_init_and_construct`, but for its result, which is always `0`. -/
def modInitAndConstruct (mod : Module) (code : Addr → Mem → Mem) (mem : Mem) :
    Except InitState InitState :=
  match (List.range mod.elf.size).foldlM (initStep code mod.elf) (⟨mem, []⟩ : InitState) with
  | .error st => .error st
  | .ok st =>
    let func := mod.func
    .ok (if func.consructFunc ≠ 0 then st.call code (.construct func.consructFunc) else st)

/-! ### `load_module` -/

/-- What a call of `load_module` leaves. The result is `none` when it does not return: the
relocation pass never ends, or the initialisation divides by zero. The three lists are the lookups
of undefined symbols, the calls of `do_relocate_add` of a pass that ends, and the calls into the
module. -/
structure Loaded where
  ret : Option (BitVec 32)
  mod : Module
  env : SysEnv
  mc : Machine
  imports : List (ℕ × Import)
  relocs : List (RelocEntry × ℤ)
  calls : List Call

/-- The stages of `load_module` up to the image. -/
def prepare (mod : Module) (w : World) (mc : Machine) : Module × Machine :=
  let r := loadRelocElf mod w mc
  let mod := initSectionAddr r.2.1
  let mod := layoutSections mod
  (moveModule mod w.image r.2.2).2

/-- The stages up to the symbols. -/
def link (mod : Module) (env : SysEnv) (w : World) (mc : Machine) : LinkState :=
  layoutSymbolAddr (prepare mod w mc).1 env w.junk

def loadModule (arch : Arch) (mod : Module) (env : SysEnv) (w : World) (mc : Machine) : Loaded :=
  let l := link mod env w mc
  let mc := (prepare mod w mc).2
  match relocateSymbol arch l.mod mc.mem with
  | none => ⟨none, l.mod, l.env, mc, l.imports, [], []⟩
  | some rel =>
    let mc := (modProtect l.mod w.protectOk ⟨rel.mem, mc.prot⟩).2
    match modInitAndConstruct l.mod w.code mc.mem with
    | .error st => ⟨none, l.mod, l.env, ⟨st.mem, mc.prot⟩, l.imports, rel.calls, st.calls⟩
    | .ok st => ⟨some 0, l.mod, l.env, ⟨st.mem, mc.prot⟩, l.imports, rel.calls, st.calls⟩

/-- An object with a section of code and a table of `num` symbols: a `Construct` in the code, an
import, and null symbols. -/
def sampleObject (num : BitVec 64) : Elfio := ⟨[default,
  { (default : Section) with type := 8, flags := 6, size := 16 },
  { (default : Section) with
    type := 2
    offset := 0x1000
    size := 24 * num
    entrySize := 24
    symbols := sampleTable num
      [⟨"Construct", 4, 0, 1, 2, 1, 0⟩, ⟨"missing", 0, 0, 1, 0, 0, 0⟩] }], by simp⟩

/-- A world in which all calls succeed, with the object of `num` symbols. -/
def sampleWorld (num : BitVec 64) : World where
  openOk := true
  fileSize := some (0x1000 + 24 * num)
  fileAddr := some 0x100000000000
  file _ := 0
  parsed := (true, sampleObject num)
  image := some 0x20000
  protectOk := true
  junk _ := 0
  code _ m := m

end Umko

import Umko.Elf
import Umko.Lib.FirstDef

/-!
# The environment and the module

`SysEnv`, the name-to-address map all modules are linked against, and `Module`, what the loader
keeps of one object: its ELF tables, its layout and the recorded `Construct`.
-/

namespace Umko

open Lib.Memory Lib.FirstDef

/-! ### `SysEnv` -/

/-- The map of a `SysEnv`: `add_symbol` is `emplace` on it and `get_symbol` is `find`. -/
structure SysEnv where
  map : String → Option Addr

namespace SysEnv

/-- The map of a new `SysEnv`. -/
def empty : SysEnv := ⟨fun _ => none⟩

def addSymbol (env : SysEnv) (name : String) (addr : Addr) : SysEnv :=
  ⟨emplace env.map name addr⟩

/-- `none` where `get_symbol` returns `-1`. -/
def getSymbol (env : SysEnv) (name : String) : Option Addr := env.map name

def getEntry (env : SysEnv) : Addr :=
  match env.map "_start" with
  | some a => a
  | none =>
    match env.map "APP_Root" with
    | some a => a
    | none => 0

def addAll (env : SysEnv) (l : List (String × Addr)) : SysEnv := ⟨emplaceAll env.map l⟩

@[simp] theorem addAll_nil (env : SysEnv) : env.addAll [] = env := rfl

theorem addAll_append (env : SysEnv) (l l' : List (String × Addr)) :
    env.addAll (l ++ l') = (env.addAll l).addAll l' := by
  simp [addAll, emplaceAll_append]

theorem addAll_singleton (env : SysEnv) (name : String) (addr : Addr) :
    env.addAll [(name, addr)] = env.addSymbol name addr := rfl

theorem getSymbol_addAll (env : SysEnv) (l : List (String × Addr)) (name : String) :
    (env.addAll l).getSymbol name = (env.getSymbol name).or (l.lookup name) :=
  emplaceAll_apply _ _ _

end SysEnv

/-! ### `Module` -/

structure Layout where
  totalSize : BitVec 64
  textSize : BitVec 64
  roSize : BitVec 64
  roAfterInitSize : BitVec 64
  base : Addr

/-- `Layout layout = {}` -/
def Layout.zero : Layout := ⟨0, 0, 0, 0, 0⟩

structure SectionLayout where
  offset : BitVec 64

/-- `app_root_func` is never read or written. -/
structure FuncAddr where
  consructFunc : Addr

/-- A `Module`, without its path: the path is what `open` is called with, and printed. -/
@[ext]
structure Module where
  symSecIndex : BitVec 32
  layout : Layout
  elf : Elfio
  secLayout : List SectionLayout
  func : FuncAddr
  elfAddr : Addr

/-- A module as constructed, with the `elfio` object that its constructor makes. -/
def Module.fresh (elf : Elfio) : Module := ⟨0, Layout.zero, elf, [], ⟨0⟩, 0⟩

/-- `vsec[i].offset` -/
def Module.offset (mod : Module) (i : ℕ) : BitVec 64 := (mod.secLayout.getD i ⟨0⟩).offset

end Umko

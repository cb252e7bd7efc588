import Umko.Module

/-!
# Fixing the symbols

`update_symbol_addr` on one symbol table, and `layout_symbol_addr` on all tables of a module. The
local variable `newValue` of the former has no initial value of its own: what it holds then is a
parameter.

The state keeps a log of the lookups in the environment, each with its answer; those without one
are reported as undefined symbols.
-/

namespace Umko

open Lib.Memory

/-! ### One symbol table -/

/-- A lookup of an undefined symbol in the environment. -/
structure Import where
  index : BitVec 32
  name : String
  answer : Option Addr
  deriving DecidableEq

/-- The state of the loop of `update_symbol_addr`. -/
structure SymState where
  symbols : SymbolTable
  env : SysEnv
  func : FuncAddr
  newValue : Addr
  imports : List Import

/-- `symbols.update_symbol(i, newValue, size, bind, type, section_index, other)`, the fields being
those read at `i`. -/
def SymState.update (st : SymState) (i : BitVec 32) (s : Symbol) : SymState :=
  { st with symbols := (st.symbols.updateSymbol (i.setWidth 64) st.newValue s.size s.bind s.type
      s.sectionIndex s.other).1 }

/-- The body of the loop at symbol `i`. The `continue` branches leave the state alone; the last
branch of all writes the `newValue` of an earlier symbol. -/
def symbolStep (elf : Elfio) (st : SymState) (i : BitVec 32) : SymState :=
  match st.symbols.getSymbol (i.setWidth 64) with
  | none => st
  | some s =>
    if s.type = sttSection then
      if s.sectionIndex = shnUndef ∨ s.sectionIndex ≥ shnLoreserve ∨
          s.sectionIndex.toNat ≥ elf.size then st
      else
        let st := { st with newValue := (elf.sec s.sectionIndex.toNat).address }
        st.update i s
    else if s.sectionIndex ≠ shnUndef ∧ s.sectionIndex < shnLoreserve then
      if s.sectionIndex.toNat ≥ elf.size then st
      else
        let newValue := s.value + (elf.sec s.sectionIndex.toNat).address
        let st := { st with newValue := newValue }
        let st := if s.bind = stbGlobal then
            { st with
              env := st.env.addSymbol s.name newValue
              func := if s.name = "Construct" then ⟨newValue⟩ else st.func }
          else st
        st.update i s
    else if s.sectionIndex = shnUndef ∧ s.bind = stbGlobal then
      let answer := st.env.getSymbol s.name
      let st := { st with imports := st.imports ++ [⟨i, s.name, answer⟩] }
      match answer with
      | none => st
      | some newValue =>
        let st := { st with newValue := newValue }
        st.update i s
    else st.update i s

/-- `update_symbol_addr`: `sym_num` is a `uint32_t`, `get_symbols_num()` has 64 bits. -/
def updateSymbolAddr (elf : Elfio) (func : FuncAddr) (env : SysEnv) (symbols : SymbolTable)
    (newValue : Addr) : SymState :=
  let symNum : BitVec 32 := symbols.num.setWidth 32
  (List.range symNum.toNat).foldl (fun st i => symbolStep elf st (BitVec.ofNat 32 i))
    ⟨symbols, env, func, newValue, []⟩

/-! ### All tables of a module -/

/-- The state of the loop of `layout_symbol_addr`: the log now has the section of each lookup. -/
structure LinkState where
  mod : Module
  env : SysEnv
  imports : List (ℕ × Import)

/-- The body of the loop at section `i`; `junk` is what `newValue` holds at first. -/
def linkStep (junk : ℕ → Addr) (st : LinkState) (i : ℕ) : LinkState :=
  let sec := st.mod.elf.sec i
  if sec.type = shtSymtab then
    let r := updateSymbolAddr st.mod.elf st.mod.func st.env sec.symbols (junk i)
    { mod := { st.mod with
        elf := st.mod.elf.setSymbols i r.symbols, func := r.func, symSecIndex := BitVec.ofNat 32 i }
      env := r.env
      imports := st.imports ++ r.imports.map fun m => (i, m) }
  else st

/-- `layout_symbol_addr` -/
def layoutSymbolAddr (mod : Module) (env : SysEnv) (junk : ℕ → Addr) : LinkState :=
  (List.range mod.elf.size).foldl (linkStep junk) ⟨mod, env, []⟩

end Umko

import Umko.Symbols.Defs
import Umko.Reloc.Pass

/-!
# Which entries the table loops visit

The loops over the entries of a RELA table and over the symbols of a symbol table, with a log of the
indices they ask for. The counters have 32 bits and the counts of ELFIO 64: one loop compares them as
they are and never ends on a large table, the other one narrows the count and leaves entries out.
-/

namespace Umko

open Lib.Memory Lib.Loop

/-! ### The loops with a log -/

/-- The loop of `apply_relocate_add`, and the values of the counter at which `get_entry` is
asked. -/
def entriesAsked (arch : Arch) (relsec : RelaTable) (base : Addr) (symbols : SymbolTable)
    (fixedSec : ℕ) (st : RelocState) : Option (RelocState × List (BitVec 32)) :=
  forU32 relsec.num (logged (relocStep arch relsec base symbols fixedSec)) (st, [])

/-- The loop of `update_symbol_addr`, and the values of the counter at which `get_symbol` is
asked. -/
def symbolsAsked (elf : Elfio) (func : FuncAddr) (env : SysEnv) (symbols : SymbolTable)
    (newValue : Addr) : SymState × List (BitVec 32) :=
  (List.range (symbols.num.setWidth 32).toNat).foldl
    (fun p i => logged (fun i st => symbolStep elf st i) (BitVec.ofNat 32 i) p)
    (⟨symbols, env, func, newValue, []⟩, [])

section Loops

variable {arch : Arch} {relsec : RelaTable} {base : Addr} {symbols : SymbolTable} {fixedSec : ℕ}
  {st : RelocState} {elf : Elfio} {func : FuncAddr} {env : SysEnv} {newValue : Addr}

theorem entriesAsked_fst : (entriesAsked arch relsec base symbols fixedSec st).map
    (fun p => ((0 : ℤ), p.1)) = applyRelocateAdd arch relsec base symbols fixedSec st := by
  unfold entriesAsked applyRelocateAdd
  rw [← forU32_logged_fst st [], Option.map_map]
  rfl

theorem symbolsAsked_fst : (symbolsAsked elf func env symbols newValue).1 =
    updateSymbolAddr elf func env symbols newValue := by
  unfold symbolsAsked updateSymbolAddr
  rw [foldl_logged]

theorem symbolsAsked_snd : (symbolsAsked elf func env symbols newValue).2 =
    (List.range (symbols.num.setWidth 32).toNat).map (BitVec.ofNat 32) := by
  unfold symbolsAsked
  rw [foldl_logged, List.nil_append]

end Loops

/-! ### What is visited -/

/-- The indices `0 … n - 1` in order, as the values of a counter that is widened to 64 bits. -/
def EachOnce (asked : List (BitVec 32)) (n : BitVec 64) : Prop :=
  asked.map (fun i => (i.setWidth 64).toNat) = List.range n.toNat

/-- The loop of `apply_relocate_add` ends, and has asked for each entry once, in order. -/
def EntriesVisited (arch : Arch) (relsec : RelaTable) (base : Addr) (symbols : SymbolTable)
    (fixedSec : ℕ) (st : RelocState) : Prop :=
  ∃ p, entriesAsked arch relsec base symbols fixedSec st = some p ∧ EachOnce p.2 relsec.num

/-- The loop of `update_symbol_addr` has asked for each symbol once, in order. -/
def SymbolsVisited (elf : Elfio) (func : FuncAddr) (env : SysEnv) (symbols : SymbolTable)
    (newValue : Addr) : Prop :=
  EachOnce (symbolsAsked elf func env symbols newValue).2 symbols.num

theorem eachOnce_range {n : BitVec 64} (hn : n.toNat < 2 ^ 32) :
    EachOnce ((List.range n.toNat).map (BitVec.ofNat 32)) n := by
  unfold EachOnce
  rw [List.map_map]
  refine (List.map_congr_left fun i hi => ?_).trans (List.map_id _)
  have := List.mem_range.mp hi
  simp only [Function.comp_apply, BitVec.toNat_setWidth, BitVec.toNat_ofNat, id_eq]
  omega

/-- **When the loops visit their tables**: exactly when the tables have fewer than `2 ^ 32` entries,
whatever the entries. -/
theorem tablesVisited_iff (arch : Arch) (relsec : RelaTable) (base : Addr) (symbols : SymbolTable)
    (fixedSec : ℕ) (st : RelocState) (elf : Elfio) (func : FuncAddr) (env : SysEnv)
    (t : SymbolTable) (newValue : Addr) :
    (EntriesVisited arch relsec base symbols fixedSec st ↔ relsec.num.toNat < 2 ^ 32) ∧
    (SymbolsVisited elf func env t newValue ↔ t.num.toNat < 2 ^ 32) := by
  refine ⟨⟨?_, fun hn => ?_⟩, ⟨fun h => ?_, fun hn => ?_⟩⟩
  · rintro ⟨p, hp, -⟩
    by_contra hn
    rw [entriesAsked, forU32_eq_none (Nat.le_of_not_lt hn)] at hp
    cases hp
  · unfold EntriesVisited entriesAsked
    rw [forU32_eq_some hn, foldl_logged]
    exact ⟨_, rfl, eachOnce_range hn⟩
  · have hlen := congrArg List.length h
    rw [symbolsAsked_snd] at hlen
    simp only [List.length_map, List.length_range, BitVec.toNat_setWidth] at hlen
    omega
  · unfold SymbolsVisited
    rw [symbolsAsked_snd, BitVec.toNat_setWidth, Nat.mod_eq_of_lt hn]
    exact eachOnce_range hn

/-- **Tables of `2 ^ 32` entries**: one loop never ends, the other one visits nothing. -/
theorem huge_tables_not_visited :
    ¬ EntriesVisited .x86_64 ⟨0x100000000, fun _ => none⟩ 0 (sampleTable 0 []) 0
      ⟨fun _ => 0, []⟩ ∧
    ¬ SymbolsVisited ⟨[], by simp⟩ ⟨0⟩ SysEnv.empty (sampleTable 0x100000000 []) 0 := by
  refine ⟨?_, fun h => ?_⟩
  · rintro ⟨p, hp, -⟩
    rw [entriesAsked, forU32_eq_none (by simp)] at hp
    cases hp
  · have hlen := congrArg List.length h
    rw [symbolsAsked_snd] at hlen
    simp [sampleTable] at hlen

end Umko

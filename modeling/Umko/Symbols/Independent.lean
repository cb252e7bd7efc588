import Umko.Symbols.Link

/-!
# Modules that do not name each other's symbols

The environment enters the symbols of a module through the names that the module imports, and the
module enters the environment through the names that it defines. So a module is linked in the same
way before and after another one, as long as neither defines what the other one imports.
-/

namespace Umko

open Lib.Memory Lib.FirstDef Lib.Loop

/-! ### Names -/

/-- A symbol of one of the symbol tables of an object. -/
def Elfio.HasSymbol (elf : Elfio) (s : Symbol) : Prop :=
  ∃ i < elf.size, (elf.sec i).type = shtSymtab ∧
    ∃ k < (elf.sec i).symbols.num, (elf.sec i).symbols.entry k = some s

/-- A name that an object has an `STB_GLOBAL` definition of. -/
def Elfio.Defines (elf : Elfio) (name : String) : Prop :=
  ∃ s, elf.HasSymbol s ∧ s.name = name ∧
    s.type ≠ sttSection ∧ elf.Valid s.sectionIndex ∧ s.bind = stbGlobal

/-- The name of an undefined `STB_GLOBAL` symbol of an object. -/
def Elfio.Imports (elf : Elfio) (name : String) : Prop :=
  ∃ s, elf.HasSymbol s ∧ s.name = name ∧ s.IsImport

/-- No name is defined by both of two objects, and none that one of them imports by the other. -/
structure Independent (elf elf' : Elfio) : Prop where
  definitions : ∀ name, elf.Defines name → ¬ elf'.Defines name
  left : ∀ name, elf.Imports name → ¬ elf'.Defines name
  right : ∀ name, elf'.Imports name → ¬ elf.Defines name

theorem Independent.symm {elf elf' : Elfio} (h : Independent elf elf') : Independent elf' elf :=
  ⟨fun name h1 h2 => h.definitions name h2 h1, h.right, h.left⟩

section Readdressed

variable {elf elf' : Elfio} (h : Elfio.Readdressed elf elf')

include h

theorem Elfio.Readdressed.hasSymbol_iff (s : Symbol) : elf'.HasSymbol s ↔ elf.HasSymbol s := by
  unfold Elfio.HasSymbol
  rw [h.size]
  refine exists_congr fun i => and_congr_right fun hi => ?_
  obtain ⟨a, ha⟩ := h.sec i hi
  rw [ha]

theorem Elfio.Readdressed.defines_iff (name : String) : elf'.Defines name ↔ elf.Defines name := by
  unfold Elfio.Defines Elfio.Valid
  simp only [h.hasSymbol_iff, h.size]

theorem Elfio.Readdressed.imports_iff (name : String) : elf'.Imports name ↔ elf.Imports name := by
  unfold Elfio.Imports
  simp only [h.hasSymbol_iff]

end Readdressed

theorem Independent.readdressed {e e' elf elf' : Elfio} (h : Independent elf elf')
    (he : Elfio.Readdressed elf e) (he' : Elfio.Readdressed elf' e') : Independent e e' := by
  refine ⟨fun name => ?_, fun name => ?_, fun name => ?_⟩
  · rw [he.defines_iff, he'.defines_iff]
    exact h.definitions name
  · rw [he.imports_iff, he'.defines_iff]
    exact h.left name
  · rw [he'.imports_iff, he.defines_iff]
    exact h.right name

/-! ### The definitions of a module -/

section Definitions

variable {elf : Elfio} {n : ℕ}

theorem hasSymbol_of_lt_reach {i k : ℕ} {s : Symbol} (hi : i < elf.size)
    (ht : (elf.sec i).type = shtSymtab) (hk : k < (elf.sec i).symbols.reach)
    (hs : (elf.sec i).symbols.entry (BitVec.ofNat 64 k) = some s) : elf.HasSymbol s := by
  refine ⟨i, hi, ht, BitVec.ofNat 64 k, ?_, hs⟩
  have hle := (elf.sec i).symbols.reach_le
  have hlt := (elf.sec i).symbols.num.isLt
  rw [BitVec.lt_def, BitVec.toNat_ofNat, Nat.mod_eq_of_lt (by omega)]
  omega

theorem defines_of_mem {p : String × Addr} (hn : n ≤ elf.size)
    (hp : p ∈ elf.definitionsBelow n) : elf.Defines p.1 := by
  obtain ⟨i, hi, hp⟩ := List.mem_flatMap.mp hp
  have hi' := List.mem_range.mp hi
  unfold Elfio.tableDefinitions at hp
  split at hp
  · rename_i ht
    obtain ⟨k, hk, hp⟩ := List.mem_filterMap.mp hp
    obtain ⟨s, hs, hd⟩ := Option.bind_eq_some_iff.mp hp
    obtain ⟨hglobal, hd⟩ := Option.ite_none_right_eq_some.mp hd
    obtain rfl := Option.some.inj hd
    exact ⟨s, hasSymbol_of_lt_reach (by omega) ht (List.mem_range.mp hk) hs, rfl, hglobal⟩
  · cases hp

theorem lookup_definitionsBelow_eq_none {name : String} (hn : n ≤ elf.size)
    (h : ¬ elf.Defines name) : (elf.definitionsBelow n).lookup name = none := by
  refine List.lookup_eq_none_iff.mpr fun p hp => ?_
  refine bne_iff_ne.mpr ?_
  rintro rfl
  exact h (defines_of_mem hn hp)

end Definitions

/-! ### One module in two environments -/

/-- Environments in which the names that an object imports have the same bindings. -/
def SameImports (elf : Elfio) (env env' : SysEnv) : Prop :=
  ∀ name, elf.Imports name → env'.getSymbol name = env.getSymbol name

section Same

variable {elf : Elfio} {env env' : SysEnv} {i : ℕ}

theorem SameImports.addAll (h : SameImports elf env env') (l : List (String × Addr)) :
    SameImports elf (env.addAll l) (env'.addAll l) := by
  intro name hname
  rw [SysEnv.getSymbol_addAll, SysEnv.getSymbol_addAll, h name hname]

theorem SameImports.ownAddress_eq (h : SameImports elf env env') {s : Symbol}
    (hs : elf.HasSymbol s) : ownAddress elf env' s = ownAddress elf env s := by
  unfold ownAddress
  by_cases hi : s.IsImport
  · rw [h s.name ⟨s, hs, rfl, hi⟩]
  · rw [if_neg hi, if_neg hi]

section Table

variable (h : SameImports elf env env') (hi : i < elf.size) (ht : (elf.sec i).type = shtSymtab)

include h hi ht

theorem SameImports.lastAddress_eq (newValue : Addr) {k : ℕ}
    (hk : k ≤ (elf.sec i).symbols.reach) :
    lastAddress elf (elf.sec i).symbols env' newValue k =
      lastAddress elf (elf.sec i).symbols env newValue k := by
  induction k with
  | zero => rfl
  | succ k ih =>
    rw [lastAddress_succ, lastAddress_succ, ih (by omega)]
    cases hs : (elf.sec i).symbols.entry (BitVec.ofNat 64 k) with
    | none => rfl
    | some s =>
      have hown := (h.addAll (definitionsBefore elf (elf.sec i).symbols k)).ownAddress_eq
        (hasSymbol_of_lt_reach hi ht (by omega) hs)
      exact congrArg (Option.getD · _) hown

/-- **The table that is left.** -/
theorem SameImports.linkedTable_eq (newValue : Addr) :
    linkedTable elf (elf.sec i).symbols env' newValue =
      linkedTable elf (elf.sec i).symbols env newValue := by
  refine congrArg (SymbolTable.mk _) (funext fun j => ?_)
  by_cases hj : j.toNat < (elf.sec i).symbols.reach
  · rw [if_pos hj, if_pos hj]
    cases hs : (elf.sec i).symbols.entry j with
    | none => rfl
    | some s =>
      have hj' : BitVec.ofNat 64 j.toNat = j := by simp
      have hsym := hasSymbol_of_lt_reach hi ht hj (hj'.symm ▸ hs)
      have hown := (h.addAll (definitionsBefore elf (elf.sec i).symbols j.toNat)).ownAddress_eq hsym
      have hval : writtenValue elf (elf.sec i).symbols env' newValue j.toNat s =
          writtenValue elf (elf.sec i).symbols env newValue j.toNat s := by
        unfold writtenValue resolvedValue envBefore
        rw [h.lastAddress_eq hi ht newValue hj.le, hown]
      rw [Option.map_some, Option.map_some, hval]
  · rw [if_neg hj, if_neg hj]

/-- **The lookups**, with their answers. -/
theorem SameImports.importsBefore_eq :
    importsBefore elf (elf.sec i).symbols env' (elf.sec i).symbols.reach =
      importsBefore elf (elf.sec i).symbols env (elf.sec i).symbols.reach := by
  unfold importsBefore
  refine List.flatMap_congr fun k hk => ?_
  cases hs : (elf.sec i).symbols.entry (BitVec.ofNat 64 k) with
  | none => rfl
  | some s =>
    have hsym := hasSymbol_of_lt_reach hi ht (List.mem_range.mp hk) hs
    unfold importOf
    dsimp only
    split
    · rename_i himp
      have hget := h.addAll (definitionsBefore elf (elf.sec i).symbols k) s.name
        ⟨s, hsym, rfl, himp⟩
      unfold envBefore
      rw [hget]
    · rfl

end Table

end Same

section Link

variable {mod : Module} {env env' : SysEnv} {junk : ℕ → Addr}

theorem elfAddr_layoutSymbolAddr : (layoutSymbolAddr mod env junk).mod.elfAddr = mod.elfAddr := by
  refine foldl_range_inv (fun _ (st : LinkState) => st.mod.elfAddr = mod.elfAddr) _ rfl ?_
  intro n _ st hst
  unfold linkStep
  dsimp only
  split
  · exact hst
  · exact hst

/-- **A module is linked in the same way** in environments that agree on the names it imports. -/
theorem SameImports.layoutSymbolAddr_eq (h : SameImports mod.elf env env') :
    (layoutSymbolAddr mod env' junk).mod = (layoutSymbolAddr mod env junk).mod ∧
      (layoutSymbolAddr mod env' junk).imports = (layoutSymbolAddr mod env junk).imports := by
  have hl := layoutSymbolAddr_linked mod env junk
  have hl' := layoutSymbolAddr_linked mod env' junk
  have hbelow : ∀ i, SameImports mod.elf (mod.elf.envBelow env i) (mod.elf.envBelow env' i) :=
    fun i => h.addAll (mod.elf.definitionsBelow i)
  have helf : (layoutSymbolAddr mod env' junk).mod.elf = (layoutSymbolAddr mod env junk).mod.elf := by
    refine Elfio.ext_sec (hl'.size.trans hl.size.symm) fun i => ?_
    rw [hl.sec i, hl'.sec i]
    by_cases hc : i < mod.elf.size ∧ (mod.elf.sec i).type = shtSymtab
    · rw [if_pos hc, if_pos hc]
      unfold Elfio.linkedSymbols
      rw [(hbelow i).linkedTable_eq hc.1 hc.2]
    · rw [if_neg hc, if_neg hc]
  refine ⟨?_, ?_⟩
  · refine Module.ext (hl'.symSecIndex.trans hl.symSecIndex.symm)
      (hl'.layout.trans hl.layout.symm) helf (hl'.secLayout.trans hl.secLayout.symm)
      (hl'.func_eq.trans hl.func_eq.symm) ?_
    rw [elfAddr_layoutSymbolAddr, elfAddr_layoutSymbolAddr]
  · rw [hl.imports, hl'.imports]
    refine List.flatMap_congr fun i hi => ?_
    unfold Elfio.tableImports
    split
    · rename_i ht
      rw [(hbelow i).importsBefore_eq (List.mem_range.mp hi) ht]
    · rfl

end Link

/-! ### Two modules -/

section Two

variable {elf elf' : Elfio} (h : Independent elf elf') (env : SysEnv)

include h

theorem Independent.sameImports :
    SameImports elf' env (env.addAll (elf.definitionsBelow elf.size)) := by
  intro name hname
  rw [SysEnv.getSymbol_addAll, lookup_definitionsBelow_eq_none le_rfl (h.right name hname),
    Option.or_none]

/-- **The definitions of two objects commute.** -/
theorem Independent.addAll_comm :
    (env.addAll (elf.definitionsBelow elf.size)).addAll (elf'.definitionsBelow elf'.size) =
      (env.addAll (elf'.definitionsBelow elf'.size)).addAll (elf.definitionsBelow elf.size) := by
  refine congrArg SysEnv.mk (emplaceAll_comm env.map fun name => ?_)
  by_cases hd : elf.Defines name
  · exact .inr (lookup_definitionsBelow_eq_none le_rfl (h.definitions name hd))
  · exact .inl (lookup_definitionsBelow_eq_none le_rfl hd)

end Two

end Umko

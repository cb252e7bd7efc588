import Umko.Symbols.Resolve

/-!
# All symbol tables of a module

`layout_symbol_addr` resolves one symbol table after another, in the order of the sections, each in
the environment that the tables before it leave. Only the symbols change; the addresses of the
sections, on which a table depends, stay as they are.
-/

namespace Umko

open Lib.Memory Lib.Loop

/-! ### What one table makes -/

/-- The number of symbols that the 32-bit counter of `update_symbol_addr` reaches. -/
def SymbolTable.reach (t : SymbolTable) : ℕ := (t.num.setWidth 32).toNat

theorem SymbolTable.reach_le (t : SymbolTable) : t.reach ≤ t.num.toNat := by
  rw [SymbolTable.reach, BitVec.toNat_setWidth]
  exact Nat.mod_le _ _

theorem SymbolTable.reach_eq {t : SymbolTable} (h : t.num.toNat < 2 ^ 32) :
    t.reach = t.num.toNat := by
  rw [SymbolTable.reach, BitVec.toNat_setWidth, Nat.mod_eq_of_lt h]

/-- The table that `update_symbol_addr` leaves. -/
def linkedTable (elf : Elfio) (t : SymbolTable) (env : SysEnv) (newValue : Addr) : SymbolTable :=
  ⟨t.num, fun j => if j.toNat < t.reach
    then (t.entry j).map fun s => { s with value := writtenValue elf t env newValue j.toNat s }
    else t.entry j⟩

theorem symbols_updateSymbolAddr (elf : Elfio) (t : SymbolTable) (func : FuncAddr) (env : SysEnv)
    (newValue : Addr) :
    (updateSymbolAddr elf func env t newValue).symbols = linkedTable elf t env newValue := by
  have h := @updateSymbolAddr_linked elf t env newValue func
  rcases hst : (updateSymbolAddr elf func env t newValue).symbols with ⟨num, entry⟩
  have h1 := h.num
  have h2 := h.entry
  rw [hst] at h1 h2
  exact congrArg₂ SymbolTable.mk h1 (funext h2)

/-! ### The addresses of the sections -/

/-- Section tables of one size, with the same section addresses. -/
structure SameAddresses (elf elf' : Elfio) : Prop where
  size : elf'.size = elf.size
  address : ∀ i, (elf'.sec i).address = (elf.sec i).address

theorem SameAddresses.updateSymbolAddr {elf elf' : Elfio} (h : SameAddresses elf elf')
    (func : FuncAddr) (env : SysEnv) (t : SymbolTable) (newValue : Addr) :
    updateSymbolAddr elf' func env t newValue = updateSymbolAddr elf func env t newValue := by
  have hstep : symbolStep elf' = symbolStep elf := by
    funext st i
    unfold symbolStep
    simp only [h.size, h.address]
  unfold Umko.updateSymbolAddr
  rw [hstep]

/-! ### The tables below a section -/

section Below

variable (elf : Elfio) (env : SysEnv) (junk : ℕ → Addr)

/-- The definitions of the table in section `i`, if it is one, as far as the counter reaches. -/
def Elfio.tableDefinitions (i : ℕ) : List (String × Addr) :=
  if (elf.sec i).type = shtSymtab
    then definitionsBefore elf (elf.sec i).symbols (elf.sec i).symbols.reach else []

/-- The definitions of the tables below section `n`. -/
def Elfio.definitionsBelow (n : ℕ) : List (String × Addr) :=
  (List.range n).flatMap elf.tableDefinitions

/-- The environment when section `n` is reached. -/
def Elfio.envBelow (n : ℕ) : SysEnv := env.addAll (elf.definitionsBelow n)

/-- The lookups of the table in section `i`. -/
def Elfio.tableImports (i : ℕ) : List (ℕ × Import) :=
  if (elf.sec i).type = shtSymtab
    then (importsBefore elf (elf.sec i).symbols (elf.envBelow env i)
      (elf.sec i).symbols.reach).map fun m => (i, m)
    else []

/-- The table that is left in section `i`. -/
def Elfio.linkedSymbols (i : ℕ) : SymbolTable :=
  linkedTable elf (elf.sec i).symbols (elf.envBelow env i) (junk i)

/-- The last symbol table below section `n`, or what the index was before. -/
def Elfio.symtabBelow (ix : BitVec 32) : ℕ → BitVec 32
  | 0 => ix
  | n + 1 => if (elf.sec n).type = shtSymtab then BitVec.ofNat 32 n else symtabBelow ix n

theorem definitionsBelow_succ (n : ℕ) :
    elf.definitionsBelow (n + 1) = elf.definitionsBelow n ++ elf.tableDefinitions n := by
  rw [Elfio.definitionsBelow, List.range_succ, List.flatMap_append, List.flatMap_singleton]
  rfl

theorem envBelow_succ (n : ℕ) :
    elf.envBelow env (n + 1) = (elf.envBelow env n).addAll (elf.tableDefinitions n) := by
  rw [Elfio.envBelow, definitionsBelow_succ, SysEnv.addAll_append]
  rfl

theorem symtabBelow_eq {ix : BitVec 32} {i n : ℕ} (hi : i < n)
    (h : ∀ j < n, (elf.sec j).type = shtSymtab ↔ j = i) :
    elf.symtabBelow ix n = BitVec.ofNat 32 i := by
  induction n with
  | zero => exact absurd hi (Nat.not_lt_zero i)
  | succ n ih =>
    rw [Elfio.symtabBelow]
    by_cases hn : n = i
    · rw [if_pos ((h n (Nat.lt_succ_self n)).mpr hn), hn]
    · rw [if_neg fun h' => hn ((h n (Nat.lt_succ_self n)).mp h')]
      exact ih (by omega) fun j hj => h j (by omega)

/-- **The state of the loop of `layout_symbol_addr` at section `n`.** -/
structure LinkedBelow (mod : Module) (n : ℕ) (st : LinkState) : Prop where
  size : st.mod.elf.size = mod.elf.size
  sec : ∀ j, st.mod.elf.sec j = if j < n ∧ (mod.elf.sec j).type = shtSymtab
    then { mod.elf.sec j with symbols := mod.elf.linkedSymbols env junk j } else mod.elf.sec j
  func_eq : st.mod.func = constructAfter mod.func (mod.elf.definitionsBelow n)
  symSecIndex : st.mod.symSecIndex = mod.elf.symtabBelow mod.symSecIndex n
  layout : st.mod.layout = mod.layout
  secLayout : st.mod.secLayout = mod.secLayout
  env_eq : st.env = mod.elf.envBelow env n
  imports : st.imports = (List.range n).flatMap (mod.elf.tableImports env)

end Below

section Loop

variable {mod : Module} {env : SysEnv} {junk : ℕ → Addr}

theorem LinkedBelow.sameAddresses {n : ℕ} {st : LinkState} (h : LinkedBelow env junk mod n st) :
    SameAddresses mod.elf st.mod.elf := by
  refine ⟨h.size, fun i => ?_⟩
  rw [h.sec i]
  split <;> rfl

theorem linkStep_linked {n : ℕ} {st : LinkState} (hn : n < mod.elf.size)
    (h : LinkedBelow env junk mod n st) : LinkedBelow env junk mod (n + 1) (linkStep junk st n) := by
  have hsec : st.mod.elf.sec n = mod.elf.sec n := by rw [h.sec n, if_neg (by omega)]
  unfold linkStep
  simp only [hsec]
  by_cases ht : (mod.elf.sec n).type = shtSymtab
  · have hl := @updateSymbolAddr_linked mod.elf (mod.elf.sec n).symbols st.env (junk n) st.mod.func
    rw [if_pos ht, h.sameAddresses.updateSymbolAddr, symbols_updateSymbolAddr]
    refine ⟨?_, fun j => ?_, ?_, ?_, h.layout, h.secLayout, ?_, ?_⟩
    · exact (Elfio.size_setSymbols _ _).trans h.size
    · show (st.mod.elf.setSymbols n _).sec j = _
      rw [Elfio.sec_setSymbols (by rw [h.size]; exact hn), hsec, h.env_eq]
      by_cases hj : j = n
      · subst hj
        rw [if_pos rfl, if_pos ⟨Nat.lt_succ_self j, ht⟩]
        rfl
      · have : j < n + 1 ↔ j < n := by omega
        rw [if_neg hj, h.sec j]
        simp only [this]
    · refine hl.func_eq.trans ?_
      rw [h.func_eq, definitionsBelow_succ, constructAfter_append, Elfio.tableDefinitions, if_pos ht]
      rfl
    · rw [Elfio.symtabBelow, if_pos ht]
    · refine hl.env_eq.trans ?_
      rw [envBelow_succ, Elfio.tableDefinitions, if_pos ht, h.env_eq]
      rfl
    · rw [List.range_succ, List.flatMap_append, ← h.imports, List.flatMap_singleton,
        Elfio.tableImports, if_pos ht, ← h.env_eq]
      exact congrArg (st.imports ++ ·.map fun m => (n, m)) hl.imports_eq
  · rw [if_neg ht]
    refine ⟨h.size, fun j => ?_, ?_, ?_, h.layout, h.secLayout, ?_, ?_⟩
    · rw [h.sec j]
      by_cases hj : j = n
      · subst hj
        rw [if_neg (by simp), if_neg fun h' => ht h'.2]
      · have : j < n + 1 ↔ j < n := by omega
        simp only [this]
    · rw [definitionsBelow_succ, Elfio.tableDefinitions, if_neg ht, List.append_nil]
      exact h.func_eq
    · rw [Elfio.symtabBelow, if_neg ht]
      exact h.symSecIndex
    · rw [envBelow_succ, Elfio.tableDefinitions, if_neg ht]
      exact h.env_eq
    · rw [List.range_succ, List.flatMap_append, ← h.imports, List.flatMap_singleton,
        Elfio.tableImports, if_neg ht, List.append_nil]

/-- **The loop of `layout_symbol_addr`.** -/
theorem layoutSymbolAddr_linked (mod : Module) (env : SysEnv) (junk : ℕ → Addr) :
    LinkedBelow env junk mod mod.elf.size (layoutSymbolAddr mod env junk) := by
  refine foldl_range_inv (LinkedBelow env junk mod) _ ?_ fun n hn st hst => linkStep_linked hn hst
  exact ⟨rfl, fun j => by simp, rfl, rfl, rfl, rfl, rfl, rfl⟩

theorem relinked_layoutSymbolAddr (mod : Module) (env : SysEnv) (junk : ℕ → Addr) :
    Elfio.Relinked mod.elf (layoutSymbolAddr mod env junk).mod.elf := by
  have h := layoutSymbolAddr_linked mod env junk
  refine ⟨h.size, fun i => ?_⟩
  rw [h.sec i]
  split
  · exact ⟨_, _, rfl⟩
  · exact ⟨_, _, rfl⟩

end Loop

/-! ### The lookups -/

theorem mem_importsBefore {elf : Elfio} {t : SymbolTable} {env : SysEnv} {k : ℕ} {m : Import} :
    m ∈ importsBefore elf t env k ↔ ∃ j < k, ∃ s, t.entry (BitVec.ofNat 64 j) = some s ∧
      s.IsImport ∧ m = ⟨BitVec.ofNat 32 j, s.name, (envBefore elf t env j).getSymbol s.name⟩ := by
  unfold importsBefore
  simp only [List.mem_flatMap, List.mem_range]
  refine exists_congr fun j => and_congr_right fun _ => ?_
  cases t.entry (BitVec.ofNat 64 j) with
  | none => simp
  | some s =>
    by_cases hs : s.IsImport
    · simp [importOf, hs]
    · simp [importOf, hs]

theorem mem_imports {mod : Module} {env : SysEnv} {junk : ℕ → Addr} {i : ℕ} {m : Import} :
    (i, m) ∈ (layoutSymbolAddr mod env junk).imports ↔
      i < mod.elf.size ∧ (mod.elf.sec i).type = shtSymtab ∧
        m ∈ importsBefore mod.elf (mod.elf.sec i).symbols (mod.elf.envBelow env i)
          (mod.elf.sec i).symbols.reach := by
  rw [(layoutSymbolAddr_linked mod env junk).imports]
  simp only [List.mem_flatMap, List.mem_range, Elfio.tableImports]
  constructor
  · rintro ⟨j, hj, h⟩
    split at h
    · rename_i ht
      obtain ⟨m', hm', he⟩ := List.mem_map.mp h
      obtain ⟨rfl, rfl⟩ := Prod.mk.inj he
      exact ⟨hj, ht, hm'⟩
    · cases h
  · rintro ⟨hi, ht, hm⟩
    exact ⟨i, hi, by rw [if_pos ht]; exact List.mem_map_of_mem hm⟩

/-- What is written to an import: the answer of the lookup, if there is one. -/
theorem Symbol.IsImport.writtenValue_eq {s : Symbol} (h : s.IsImport) (elf : Elfio)
    (t : SymbolTable) (env : SysEnv) (newValue : Addr) (k : ℕ) :
    writtenValue elf t env newValue k s =
      ((envBefore elf t env k).getSymbol s.name).getD s.value := by
  have hv : ¬ elf.Valid s.sectionIndex := fun hv => hv.1 h.2.1
  rw [writtenValue, if_neg fun hf => hf.not_import h, resolvedValue, ownAddress, if_neg hv,
    if_pos h]

/-- **What an import ends up with.** -/
theorem entry_linkedSymbols_import {elf : Elfio} {env : SysEnv} {junk : ℕ → Addr} {i k : ℕ}
    {s : Symbol} (hk : k < (elf.sec i).symbols.reach)
    (hs : (elf.sec i).symbols.entry (BitVec.ofNat 64 k) = some s) (hi : s.IsImport) :
    (elf.linkedSymbols env junk i).entry (BitVec.ofNat 64 k) = some { s with
      value := ((envBefore elf (elf.sec i).symbols (elf.envBelow env i) k).getSymbol
        s.name).getD s.value } := by
  have hk64 : k < 2 ^ 64 := Nat.lt_of_lt_of_le hk ((SymbolTable.reach_le _).trans (BitVec.isLt _).le)
  have hnat : (BitVec.ofNat 64 k).toNat = k := by
    rw [BitVec.toNat_ofNat, Nat.mod_eq_of_lt hk64]
  unfold Elfio.linkedSymbols linkedTable
  simp only [hnat, if_pos hk, hs, Option.map_some, hi.writtenValue_eq]

end Umko

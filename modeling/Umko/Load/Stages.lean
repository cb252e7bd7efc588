import Umko.Load.Defs
import Umko.Image.Copy
import Umko.Symbols.Link

/-!
# The stages of a load

What the stages before the symbols do to the object: they set the addresses of its sections. What a
load does to the environment is then a matter of the symbol tables of the object alone.
-/

namespace Umko

open Lib.Memory

variable {arch : Arch} {mod : Module} {env : SysEnv} {w : World} {mc : Machine}

/-! ### The object -/

/-- The section table that `load_reloc_elf` leaves. -/
def Module.object (mod : Module) (w : World) : Elfio :=
  if w.openOk = true ∧ w.fileSize.isSome ∧ w.fileAddr.isSome then w.parsed.2 else mod.elf

theorem elf_loadRelocElf : (loadRelocElf mod w mc).2.1.elf = mod.object w := by
  unfold loadRelocElf Module.object
  cases w.openOk with
  | false => rfl
  | true =>
    cases w.fileSize with
    | none => rfl
    | some size =>
      cases w.fileAddr with
      | none => rfl
      | some p => cases h : w.parsed.1 <;> simp

theorem readdressed_initSectionAddr (mod : Module) :
    Elfio.Readdressed mod.elf (initSectionAddr mod).elf :=
  ⟨size_initSectionAddr mod, fun _ hi => ⟨_, sec_initSectionAddr mod hi⟩⟩

theorem readdressed_moveModule (mod : Module) (ptr : Option Addr) (mc : Machine) :
    Elfio.Readdressed mod.elf (moveModule mod ptr mc).2.1.elf := by
  cases ptr with
  | none => exact .refl _
  | some ptr =>
    have h := @moveLoop_moved mod.elf ptr mod.secLayout
      (memset mc.mem ptr 0 mod.layout.totalSize.toNat)
    refine ⟨h.size, fun i _ => ?_⟩
    by_cases hi : i < mod.elf.size ∧ (mod.elf.sec i).alloc = true
    · exact ⟨_, (h.sec i).trans (if_pos hi)⟩
    · exact ⟨(mod.elf.sec i).address, (h.sec i).trans (if_neg hi)⟩

/-- **The stages up to the image set section addresses.** -/
theorem readdressed_prepare : Elfio.Readdressed (mod.object w) (prepare mod w mc).1.elf := by
  rw [← @elf_loadRelocElf mod w mc]
  exact (readdressed_initSectionAddr _).trans
    (readdressed_moveModule (layoutSections (initSectionAddr _)) w.image _)

theorem prepare_keeps : (prepare mod w mc).1.symSecIndex = mod.symSecIndex ∧
    (prepare mod w mc).1.func = mod.func := by
  unfold prepare loadRelocElf
  repeat' split
  all_goals cases w.image <;> exact ⟨rfl, rfl⟩

theorem sec_link (i : ℕ) : ∃ t, (link mod env w mc).mod.elf.sec i =
    { (prepare mod w mc).1.elf.sec i with symbols := t } ∧
      ∀ x, (t.entry x).isSome = (((prepare mod w mc).1.elf.sec i).symbols.entry x).isSome := by
  have h := (layoutSymbolAddr_linked (prepare mod w mc).1 env w.junk).sec i
  by_cases hc : i < (prepare mod w mc).1.elf.size ∧
      ((prepare mod w mc).1.elf.sec i).type = shtSymtab
  · refine ⟨_, h.trans (if_pos hc), fun x => ?_⟩
    unfold Elfio.linkedSymbols linkedTable
    dsimp only
    split
    · exact Option.isSome_map
    · rfl
  · exact ⟨_, h.trans (if_neg hc), fun _ => rfl⟩

theorem size_link : (link mod env w mc).mod.elf.size = (prepare mod w mc).1.elf.size :=
  (layoutSymbolAddr_linked (prepare mod w mc).1 env w.junk).size

/-! ### The result of a load -/

/-- **A load returns `0` or not at all.** -/
theorem ret_loadModule : (loadModule arch mod env w mc).ret = none ∨
    (loadModule arch mod env w mc).ret = some 0 := by
  unfold loadModule
  dsimp only
  split
  · exact .inl rfl
  · split
    · exact .inl rfl
    · exact .inr rfl

theorem link_loadModule : (loadModule arch mod env w mc).mod = (link mod env w mc).mod ∧
    (loadModule arch mod env w mc).env = (link mod env w mc).env ∧
    (loadModule arch mod env w mc).imports = (link mod env w mc).imports := by
  unfold loadModule
  dsimp only
  split
  · exact ⟨rfl, rfl, rfl⟩
  · split
    · exact ⟨rfl, rfl, rfl⟩
    · exact ⟨rfl, rfl, rfl⟩

/-- **A load that returns** has come to the end of the relocation pass and of the initialisers. -/
theorem loadModule_returns (h : (loadModule arch mod env w mc).ret = some 0) :
    ∃ rel st, relocateSymbol arch (link mod env w mc).mod (prepare mod w mc).2.mem = some rel ∧
      modInitAndConstruct (link mod env w mc).mod w.code rel.mem = .ok st ∧
      (loadModule arch mod env w mc).calls = st.calls := by
  have hprotect : ∀ (m : Module) (ok : Bool) (mc : Machine), (modProtect m ok mc).2.mem = mc.mem := by
    intro m ok mc
    cases ok <;> rfl
  unfold loadModule at h ⊢
  dsimp only at h ⊢
  cases hrel : relocateSymbol arch (link mod env w mc).mod (prepare mod w mc).2.mem with
  | none =>
    rw [hrel] at h
    cases h
  | some rel =>
    rw [hrel] at h
    simp only [hprotect] at h ⊢
    cases hinit : modInitAndConstruct (link mod env w mc).mod w.code rel.mem with
    | error st =>
      rw [hinit] at h
      cases h
    | ok st => exact ⟨rel, st, rfl, hinit, rfl⟩

/-! ### The environment -/

/-- The definitions of all symbols of the tables below section `n`, in order. -/
def Elfio.allDefinitions (elf : Elfio) (n : ℕ) : List (String × Addr) :=
  (List.range n).flatMap fun i => if (elf.sec i).type = shtSymtab
    then definitionsBefore elf (elf.sec i).symbols (elf.sec i).symbols.num.toNat else []

theorem definitionsBefore_mono (elf : Elfio) (t : SymbolTable) {k n : ℕ} (h : k ≤ n) :
    definitionsBefore elf t k <+: definitionsBefore elf t n := by
  obtain ⟨d, rfl⟩ := Nat.exists_eq_add_of_le h
  rw [definitionsBefore, definitionsBefore, List.range_add, List.filterMap_append]
  exact List.prefix_append _ _

theorem allDefinitions_mono (elf : Elfio) {n n' : ℕ} (h : n ≤ n') :
    elf.allDefinitions n <+: elf.allDefinitions n' := by
  obtain ⟨d, rfl⟩ := Nat.exists_eq_add_of_le h
  rw [Elfio.allDefinitions, Elfio.allDefinitions, List.range_add, List.flatMap_append]
  exact List.prefix_append _ _

theorem allDefinitions_table_mono (elf : Elfio) {i k n : ℕ} (hi : i < n)
    (ht : (elf.sec i).type = shtSymtab) (hk : k ≤ (elf.sec i).symbols.num.toNat) :
    elf.allDefinitions i ++ definitionsBefore elf (elf.sec i).symbols k <+:
      elf.allDefinitions n := by
  have hsucc : elf.allDefinitions (i + 1) = elf.allDefinitions i ++
      definitionsBefore elf (elf.sec i).symbols (elf.sec i).symbols.num.toNat := by
    rw [Elfio.allDefinitions, List.range_succ, List.flatMap_append, List.flatMap_singleton,
      if_pos ht]
    rfl
  refine List.IsPrefix.trans ?_ (allDefinitions_mono elf (Nat.succ_le_of_lt hi))
  rw [hsucc]
  exact (List.prefix_append_right_inj _).mpr (definitionsBefore_mono _ _ hk)

/-- Every symbol table has fewer than `2 ^ 32` symbols. -/
def TablesFit (elf : Elfio) : Prop :=
  ∀ i < elf.size, (elf.sec i).type = shtSymtab → (elf.sec i).symbols.num.toNat < 2 ^ 32

instance (elf : Elfio) : Decidable (TablesFit elf) :=
  inferInstanceAs (Decidable (∀ i < elf.size, (elf.sec i).type = shtSymtab → _))

theorem TablesFit.readdressed {elf elf' : Elfio} (h : TablesFit elf)
    (hr : Elfio.Readdressed elf elf') : TablesFit elf' := by
  intro i hi ht
  rw [hr.size] at hi
  obtain ⟨a, ha⟩ := hr.sec i hi
  rw [ha] at ht ⊢
  exact h i hi ht

theorem TablesFit.definitionsBelow_eq {elf : Elfio} (h : TablesFit elf) {n : ℕ}
    (hn : n ≤ elf.size) : elf.definitionsBelow n = elf.allDefinitions n := by
  unfold Elfio.definitionsBelow Elfio.allDefinitions
  refine List.flatMap_congr fun i hi => ?_
  have hi' := List.mem_range.mp hi
  unfold Elfio.tableDefinitions
  by_cases ht : (elf.sec i).type = shtSymtab
  · rw [if_pos ht, if_pos ht, SymbolTable.reach_eq (h i (by omega) ht)]
  · rw [if_neg ht, if_neg ht]

/-- **The environment after a load.** -/
theorem env_link : (link mod env w mc).env =
    env.addAll ((prepare mod w mc).1.elf.definitionsBelow (prepare mod w mc).1.elf.size) :=
  (layoutSymbolAddr_linked _ env w.junk).env_eq

end Umko

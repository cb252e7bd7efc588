import Umko.Module
import Umko.Lib.Loop
import Umko.Reloc.X86
import Umko.Reloc.AArch64Patch

/-!
# The relocation pass

`apply_relocate_add` and `relocate_symbol`, for either `do_relocate_add`. The counter of the loop
over the entries has 32 bits and its bound has 64, so the pass ends when the tables it visits have
fewer than `2 ^ 32` entries; then it carries out one entry after another, in order.
-/

namespace Umko

open Lib.Memory Lib.Patch Lib.Local Lib.Loop

/-! ### The two architectures -/

/-- The directory of `arch` that is compiled in. -/
inductive Arch where
  | x86_64 | aarch64
  deriving DecidableEq

/-- `do_relocate_add`: the result, and the memory after it. -/
def Arch.doRelocateAdd : Arch → BitVec 32 → Addr → BitVec 64 → Mem → ℤ × Mem
  | .x86_64 => X86.doRelocateAdd
  | .aarch64 => AArch64.doRelocateAdd

/-- The bits that a type reads and writes, none for a type that is not supported. -/
def Arch.width (arch : Arch) (type : BitVec 32) : ℕ :=
  match arch with
  | .x86_64 => ((X86.RelocType.ofCode type).map X86.RelocType.width).getD 0
  | .aarch64 => ((AArch64.RelocType.ofCode type).map AArch64.RelocType.width).getD 0

theorem Arch.width_mem (arch : Arch) (type : BitVec 32) :
    arch.width type ∈ [0, 16, 32, 64] := by
  have h0 : 0 ∈ [0, 16, 32, 64] := by decide
  unfold Arch.width
  cases arch with
  | x86_64 =>
    cases X86.RelocType.ofCode type with
    | none => exact h0
    | some t => exact t.width_mem
  | aarch64 =>
    cases AArch64.RelocType.ofCode type with
    | none => exact h0
    | some t => exact t.width_mem

theorem Arch.width_pos (arch : Arch) {type : BitVec 32} (h : arch.width type ≠ 0) :
    0 < arch.width type / 8 := by
  have hw := arch.width_mem type
  simp only [List.mem_cons, List.not_mem_nil, or_false] at hw
  omega

/-- **Every type, supported or not, is a patch of its field.** -/
theorem Arch.isPatch (arch : Arch) (type : BitVec 32) (loc : Addr) (val : BitVec 64) :
    IsPatch loc (arch.width type) (arch.doRelocateAdd type loc val) := by
  have hnone : ∀ g : Mem → ℤ × Mem, (∀ m, g m = (noexec, m)) → IsPatch loc 0 g :=
    fun g hg => ⟨fun _ => (noexec, none), hg⟩
  cases arch with
  | x86_64 =>
    unfold Arch.width
    cases h : X86.RelocType.ofCode type with
    | none => exact hnone _ fun m => X86.doRelocateAdd_unsupported h loc val m
    | some t =>
      obtain rfl := X86.code_of_ofCode h
      exact ⟨_, fun m => X86.doRelocateAdd_eq_patch t loc val m⟩
  | aarch64 =>
    unfold Arch.width
    cases h : AArch64.RelocType.ofCode type with
    | none => exact hnone _ fun m => AArch64.doRelocateAdd_unsupported h loc val m
    | some t =>
      obtain rfl := AArch64.code_of_ofCode h
      exact AArch64.isPatch_doRelocateAdd t val

/-- **Locality**: a relocation reads and writes the bytes of its field only. -/
theorem Arch.doRelocateAdd_local (arch : Arch) (type : BitVec 32) (loc : Addr) (val : BitVec 64) :
    LocalTo (range loc (arch.width type / 8)) (range loc (arch.width type / 8))
      (arch.doRelocateAdd type loc val) := by
  have hw := arch.width_mem type
  simp only [List.mem_cons, List.not_mem_nil, or_false] at hw
  exact (arch.isPatch type loc val).isLocal (by omega) (by omega)

/-! ### The loops -/

/-- An entry that can be read, with its symbol: a call of `do_relocate_add` to be made for the
section `fixedSec`. -/
structure RelocEntry where
  fixedSec : ℕ
  rela : Rela
  loc : Addr
  val : BitVec 64
  deriving DecidableEq

/-- The state of the pass: the memory, and the calls made so far with their results; those that are
not zero are the "Reloc Fail" lines of the log. -/
structure RelocState where
  mem : Mem
  calls : List (RelocEntry × ℤ)

/-- `relsec.get_entry(i, …)` and then `symbols.get_symbol(symbol_index, …)`, for a section at
`base`; `none` where either one fails. -/
def readEntry (relsec : RelaTable) (base : Addr) (symbols : SymbolTable) (fixedSec : ℕ)
    (i : BitVec 64) : Option RelocEntry :=
  match relsec.getEntry i with
  | none => none
  | some rela =>
    match symbols.getSymbol (rela.symbol.setWidth 64) with
    | none => none
    | some s => some ⟨fixedSec, rela, base + rela.offset, s.value + rela.addend⟩

/-- `do_relocate_add(rel_type, loc, val)` -/
def relocCall (arch : Arch) (e : RelocEntry) : Mem → ℤ × Mem :=
  arch.doRelocateAdd e.rela.type e.loc e.val

/-- The call of an entry, and its result in the log. -/
def relocExec (arch : Arch) (st : RelocState) (e : RelocEntry) : RelocState :=
  let r := relocCall arch e st.mem
  ⟨r.2, st.calls ++ [(e, r.1)]⟩

/-- The body of the loop of `apply_relocate_add`. -/
def relocStep (arch : Arch) (relsec : RelaTable) (base : Addr) (symbols : SymbolTable)
    (fixedSec : ℕ) (i : BitVec 32) (st : RelocState) : RelocState :=
  match readEntry relsec base symbols fixedSec (i.setWidth 64) with
  | none => st
  | some e => relocExec arch st e

/-- `apply_relocate_add`, with its result, which is always `0`; `none` when it does not return. -/
def applyRelocateAdd (arch : Arch) (relsec : RelaTable) (base : Addr) (symbols : SymbolTable)
    (fixedSec : ℕ) (st : RelocState) : Option (ℤ × RelocState) :=
  (forU32 relsec.num (relocStep arch relsec base symbols fixedSec) st).map fun st => (0, st)

/-- The body of the loop of `relocate_symbol` at section `i`. -/
def relocateStep (arch : Arch) (elf : Elfio) (symbols : SymbolTable) (st : RelocState) (i : ℕ) :
    Option RelocState :=
  let sec := elf.sec i
  if sec.type ≠ shtRela then some st
  else if sec.info.toNat ≥ elf.size then some st
  else
    let secToFixed := elf.sec sec.info.toNat
    if secToFixed.flags &&& shfAlloc.setWidth 64 = 0 then some st
    else
      (applyRelocateAdd arch sec.relas secToFixed.address symbols sec.info.toNat st).map (·.2)

/-- `relocate_symbol`: `none` when it does not return. -/
def relocateSymbol (arch : Arch) (mod : Module) (mem : Mem) : Option RelocState :=
  let symbols := (mod.elf.sec mod.symSecIndex.toNat).symbols
  (List.range mod.elf.size).foldlM (relocateStep arch mod.elf symbols) ⟨mem, []⟩

/-! ### What the loops do -/

/-- The entries that can be read of a table, in order. -/
def tableEntries (relsec : RelaTable) (base : Addr) (symbols : SymbolTable) (fixedSec : ℕ) :
    List RelocEntry :=
  (List.range relsec.num.toNat).filterMap fun k =>
    readEntry relsec base symbols fixedSec (BitVec.ofNat 64 k)

/-- The sections whose entries are applied. -/
def Elfio.Relocates (elf : Elfio) (i : ℕ) : Prop :=
  (elf.sec i).type = shtRela ∧ (elf.sec i).info.toNat < elf.size ∧
    (elf.sec (elf.sec i).info.toNat).alloc = true

instance (elf : Elfio) (i : ℕ) : Decidable (elf.Relocates i) :=
  inferInstanceAs (Decidable (_ ∧ _))

/-- The entries that are applied of section `i`. -/
def Elfio.sectionEntries (elf : Elfio) (symbols : SymbolTable) (i : ℕ) : List RelocEntry :=
  if elf.Relocates i then
    tableEntries (elf.sec i).relas (elf.sec (elf.sec i).info.toNat).address symbols
      (elf.sec i).info.toNat
  else []

/-- The entries of the sections below `n`. -/
def Elfio.entriesBelow (elf : Elfio) (symbols : SymbolTable) (n : ℕ) : List RelocEntry :=
  (List.range n).flatMap (elf.sectionEntries symbols)

/-- The entries that `relocate_symbol` applies, in order. -/
def Module.entries (mod : Module) : List RelocEntry :=
  mod.elf.entriesBelow (mod.elf.sec mod.symSecIndex.toNat).symbols mod.elf.size

/-- The tables that are visited have fewer than `2 ^ 32` entries. -/
def RelasFit (elf : Elfio) : Prop :=
  ∀ i < elf.size, elf.Relocates i → (elf.sec i).relas.num.toNat < 2 ^ 32

instance (elf : Elfio) : Decidable (RelasFit elf) :=
  inferInstanceAs (Decidable (∀ i < elf.size, elf.Relocates i → _))

/-- The entry `k` of the RELA section `i` is applied. -/
def Elfio.RelaAt (elf : Elfio) (i k : ℕ) (r : Rela) : Prop :=
  i < elf.size ∧ elf.Relocates i ∧ k < (elf.sec i).relas.num.toNat ∧
    (elf.sec i).relas.entry (BitVec.ofNat 64 k) = some r

/-- The place of an entry of section `i`. -/
def Elfio.place (elf : Elfio) (i : ℕ) (r : Rela) : Addr :=
  (elf.sec (elf.sec i).info.toNat).address + r.offset

/-- The entry of section `i` with a symbol at `S`. -/
def Elfio.callAt (elf : Elfio) (i : ℕ) (r : Rela) (S : Addr) : RelocEntry :=
  ⟨(elf.sec i).info.toNat, r, elf.place i r, S + r.addend⟩

section Relinked

variable {elf elf' : Elfio} (h : Elfio.Relinked elf elf')

include h

theorem Elfio.Relinked.relocates_iff (i : ℕ) : elf'.Relocates i ↔ elf.Relocates i := by
  obtain ⟨a, t, ht⟩ := h.sec i
  obtain ⟨a', t', ht'⟩ := h.sec (elf.sec i).info.toNat
  unfold Elfio.Relocates
  rw [ht, h.size]
  show _ ∧ _ ∧ (elf'.sec (elf.sec i).info.toNat).alloc = true ↔ _
  rw [ht']
  rfl

theorem Elfio.Relinked.relasFit_iff : RelasFit elf' ↔ RelasFit elf := by
  unfold RelasFit
  rw [h.size]
  refine forall₂_congr fun i _ => ?_
  obtain ⟨a, t, ht⟩ := h.sec i
  rw [h.relocates_iff, ht]

theorem Elfio.Relinked.relaAt_iff (i k : ℕ) (r : Rela) :
    elf'.RelaAt i k r ↔ elf.RelaAt i k r := by
  obtain ⟨a, t, ht⟩ := h.sec i
  unfold Elfio.RelaAt
  rw [h.size, h.relocates_iff, ht]

end Relinked

section Entries

variable {mod : Module} {e : RelocEntry}

theorem readEntry_eq_some_iff {relsec : RelaTable} {base : Addr} {symbols : SymbolTable} {n : ℕ}
    {i : BitVec 64} : readEntry relsec base symbols n i = some e ↔ ∃ r s, relsec.entry i = some r ∧
      symbols.entry (r.symbol.setWidth 64) = some s ∧
      e = ⟨n, r, base + r.offset, s.value + r.addend⟩ := by
  unfold readEntry RelaTable.getEntry SymbolTable.getSymbol
  cases relsec.entry i with
  | none => simp
  | some r =>
    dsimp only
    cases hs : symbols.entry (r.symbol.setWidth 64) with
    | none => simp [hs]
    | some s => simp [hs, eq_comm]

theorem mem_sectionEntries {elf : Elfio} {t : SymbolTable} {i : ℕ} (hi : i < elf.size) :
    e ∈ elf.sectionEntries t i ↔ ∃ k r s, elf.RelaAt i k r ∧
      t.entry (r.symbol.setWidth 64) = some s ∧ e = elf.callAt i r s.value := by
  unfold Elfio.sectionEntries
  split
  · rename_i hr
    constructor
    · intro he
      obtain ⟨k, hk, he⟩ := List.mem_filterMap.mp he
      obtain ⟨r, s, hrela, hs, rfl⟩ := readEntry_eq_some_iff.mp he
      exact ⟨k, r, s, ⟨hi, hr, List.mem_range.mp hk, hrela⟩, hs, rfl⟩
    · rintro ⟨k, r, s, ⟨-, -, hk, hrela⟩, hs, rfl⟩
      refine List.mem_filterMap.mpr ⟨k, List.mem_range.mpr hk, ?_⟩
      exact readEntry_eq_some_iff.mpr ⟨r, s, hrela, hs, rfl⟩
  · rename_i hr
    constructor
    · intro he
      cases he
    · rintro ⟨k, r, s, hrela, -⟩
      exact absurd hrela.2.1 hr

/-- **The entries of an object**, from its RELA sections and its symbols. -/
theorem mem_entries_iff : e ∈ mod.entries ↔ ∃ i k r s, mod.elf.RelaAt i k r ∧
    (mod.elf.sec mod.symSecIndex.toNat).symbols.entry (r.symbol.setWidth 64) = some s ∧
      e = mod.elf.callAt i r s.value := by
  unfold Module.entries Elfio.entriesBelow
  rw [List.mem_flatMap]
  constructor
  · rintro ⟨i, hi, he⟩
    exact ⟨i, (mem_sectionEntries (List.mem_range.mp hi)).mp he⟩
  · rintro ⟨i, k, r, s, hr, hs⟩
    exact ⟨i, List.mem_range.mpr hr.1, (mem_sectionEntries hr.1).mpr ⟨k, r, s, hr, hs⟩⟩

end Entries

/-- The calls for a list of entries. -/
def relocAll (arch : Arch) (l : List RelocEntry) (st : RelocState) : RelocState :=
  l.foldl (relocExec arch) st

theorem relocAll_append (arch : Arch) (l l' : List RelocEntry) (st : RelocState) :
    relocAll arch (l ++ l') st = relocAll arch l' (relocAll arch l st) := List.foldl_append ..

/-- **The calls as a run of local updates.** -/
theorem relocAll_eq_runAll (arch : Arch) (l : List RelocEntry) (st : RelocState) :
    relocAll arch l st = ⟨(runAll (relocCall arch) l st.mem).2,
      st.calls ++ l.zip (runAll (relocCall arch) l st.mem).1⟩ := by
  induction l generalizing st with
  | nil => simp [relocAll]
  | cons e l ih =>
    rw [relocAll, List.foldl_cons]
    refine (ih _).trans ?_
    simp [relocExec, runAll_cons]

/-- **`apply_relocate_add` on a table below `2 ^ 32` entries.** -/
theorem applyRelocateAdd_eq {arch : Arch} {relsec : RelaTable} (h : relsec.num.toNat < 2 ^ 32)
    (base : Addr) (symbols : SymbolTable) (fixedSec : ℕ) (st : RelocState) :
    applyRelocateAdd arch relsec base symbols fixedSec st =
      some (0, relocAll arch (tableEntries relsec base symbols fixedSec) st) := by
  have hfold : ∀ n ≤ relsec.num.toNat,
      (List.range n).foldl (fun t i => relocStep arch relsec base symbols fixedSec
        (BitVec.ofNat 32 i) t) st = relocAll arch ((List.range n).filterMap fun k =>
          readEntry relsec base symbols fixedSec (BitVec.ofNat 64 k)) st := by
    intro n
    induction n with
    | zero => exact fun _ => rfl
    | succ n ih =>
      intro hn
      have hi : (BitVec.ofNat 32 n).setWidth 64 = BitVec.ofNat 64 n := by
        apply BitVec.eq_of_toNat_eq
        simp only [BitVec.toNat_setWidth, BitVec.toNat_ofNat]
        omega
      rw [List.range_succ, List.foldl_append, List.filterMap_append, relocAll_append,
        ← ih (by omega), List.foldl_cons, List.foldl_nil, List.filterMap_cons, List.filterMap_nil]
      unfold relocStep
      rw [hi]
      cases readEntry relsec base symbols fixedSec (BitVec.ofNat 64 n) <;> rfl
  unfold applyRelocateAdd
  rw [forU32_eq_some h, hfold _ le_rfl]
  rfl

theorem relocateStep_skip {arch : Arch} {elf : Elfio} {i : ℕ} (h : ¬ elf.Relocates i)
    (symbols : SymbolTable) (st : RelocState) : relocateStep arch elf symbols st i = some st := by
  unfold relocateStep
  by_cases h1 : (elf.sec i).type = shtRela
  · by_cases h2 : (elf.sec i).info.toNat < elf.size
    · have h3 : (elf.sec (elf.sec i).info.toNat).flags &&& shfAlloc.setWidth 64 = 0 := by
        by_contra h3
        exact h ⟨h1, h2, bne_iff_ne.mpr h3⟩
      simp [h1, h3]
    · simp [h1, Nat.not_lt.mp h2]
  · simp [h1]

theorem relocateStep_apply {arch : Arch} {elf : Elfio} {i : ℕ} (h : elf.Relocates i)
    (symbols : SymbolTable) (st : RelocState) : relocateStep arch elf symbols st i =
      (applyRelocateAdd arch (elf.sec i).relas (elf.sec (elf.sec i).info.toNat).address symbols
        (elf.sec i).info.toNat st).map (·.2) := by
  obtain ⟨h1, h2, h3⟩ := h
  unfold relocateStep
  rw [if_neg (not_not.mpr h1), if_neg (Nat.not_le.mpr h2), if_neg (bne_iff_ne.mp h3)]

/-- **A step of the pass**: the entries of the section, in order. -/
theorem relocateStep_eq {arch : Arch} {elf : Elfio} {i : ℕ}
    (h : elf.Relocates i → (elf.sec i).relas.num.toNat < 2 ^ 32) (symbols : SymbolTable)
    (st : RelocState) : relocateStep arch elf symbols st i =
      some (relocAll arch (elf.sectionEntries symbols i) st) := by
  unfold Elfio.sectionEntries
  by_cases hr : elf.Relocates i
  · rw [relocateStep_apply hr, applyRelocateAdd_eq (h hr), if_pos hr]
    rfl
  · rw [relocateStep_skip hr, if_neg hr]
    rfl

/-- **The pass ends** when the tables it visits are small enough: it makes the calls of all entries,
in order. -/
theorem relocateSymbol_eq {arch : Arch} {mod : Module} (h : RelasFit mod.elf) (mem : Mem) :
    relocateSymbol arch mod mem = some (relocAll arch mod.entries ⟨mem, []⟩) := by
  unfold relocateSymbol Module.entries
  generalize (mod.elf.sec mod.symSecIndex.toNat).symbols = symbols
  have hn : ∀ n ≤ mod.elf.size, (List.range n).foldlM (relocateStep arch mod.elf symbols)
      ⟨mem, []⟩ = some (relocAll arch (mod.elf.entriesBelow symbols n) ⟨mem, []⟩) := by
    intro n
    induction n with
    | zero => exact fun _ => rfl
    | succ n ih =>
      intro hn
      have hent : mod.elf.entriesBelow symbols (n + 1) =
          mod.elf.entriesBelow symbols n ++ mod.elf.sectionEntries symbols n := by
        rw [Elfio.entriesBelow, List.range_succ, List.flatMap_append, List.flatMap_singleton]
        rfl
      rw [List.range_succ, List.foldlM_append, ih (by omega), hent, relocAll_append]
      simp [relocateStep_eq (h n (by omega))]
  exact hn _ le_rfl

/-- **The pass never ends** when one of them is not. -/
theorem relocateSymbol_eq_none {arch : Arch} {mod : Module} (h : ¬ RelasFit mod.elf) (mem : Mem) :
    relocateSymbol arch mod mem = none := by
  unfold RelasFit at h
  push Not at h
  obtain ⟨i, hi, hr, hbig⟩ := h
  unfold relocateSymbol
  generalize (mod.elf.sec mod.symSecIndex.toNat).symbols = symbols
  have hstep : ∀ st, relocateStep arch mod.elf symbols st i = none := by
    intro st
    rw [relocateStep_apply hr, applyRelocateAdd, forU32_eq_none hbig]
    rfl
  obtain ⟨d, hd⟩ := Nat.exists_eq_add_of_lt hi
  have hsplit : List.range mod.elf.size = List.range i ++ i :: (List.range d).map (i + 1 + ·) := by
    rw [hd, show i + d + 1 = (i + 1) + d by omega, List.range_add, List.range_succ]
    simp
  rw [hsplit, List.foldlM_append]
  cases (List.range i).foldlM (relocateStep arch mod.elf symbols) ⟨mem, []⟩ with
  | none => rfl
  | some st => simp [List.foldlM_cons, hstep]

end Umko

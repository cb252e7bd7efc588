import Umko.Load.Stages
import Umko.Reloc.Rebase
import Umko.Reloc.Simultaneous

/-!
# The base of the image

An object whose relocations are relative to the place, to its page, or in the low 12 bits of an
address has the same image wherever it is loaded, and its 64-bit absolute fields move with the base.
The image, the symbols and the places all move by the difference of the bases.
-/

namespace Umko

open Lib.Memory Lib.Local

/-! ### An image at a base -/

/-- The module and the memory after `move_module` and `layout_symbol_addr`, for an image at
`base`. -/
def imageAt (mod : Module) (env : SysEnv) (junk : ℕ → Addr) (mc : Machine) (base : Addr) :
    Module × Mem :=
  let r := (moveModule mod (some base) mc).2
  ((layoutSymbolAddr r.1 env junk).mod, r.2.mem)

/-- The state after `relocate_symbol` on this image. -/
def relocatedAt (arch : Arch) (mod : Module) (env : SysEnv) (junk : ℕ → Addr) (mc : Machine)
    (base : Addr) : Option RelocState :=
  let r := imageAt mod env junk mc base
  relocateSymbol arch r.1 r.2

/-- An object with one symbol table, whose entries name symbols in sections of the image and have
types that the base does not enter, or enters as a whole; their fields lie in their sections, and
those of one section do not meet. -/
structure Rebasable (arch : Arch) (elf : Elfio) : Prop where
  symtab : ∃ i < elf.size, ∀ j < elf.size, (elf.sec j).type = shtSymtab ↔ j = i
  symbols : ∀ i k r, elf.RelaAt i k r → ∀ j < elf.size, (elf.sec j).type = shtSymtab →
    r.symbol.toNat < (elf.sec j).symbols.num.toNat ∧
    ∃ s, (elf.sec j).symbols.entry (r.symbol.setWidth 64) = some s ∧
      elf.Valid s.sectionIndex ∧ (elf.sec s.sectionIndex.toNat).alloc = true
  kinds : ∀ i k r, elf.RelaAt i k r → arch.baseKind r.type ≠ .other
  inside : ∀ i k r, elf.RelaAt i k r →
    r.offset.toNat + arch.width r.type / 8 ≤ (elf.sec (elf.sec i).info.toNat).size.toNat
  apart : ∀ i k r i' k' r', elf.RelaAt i k r → elf.RelaAt i' k' r' → (i, k) ≠ (i', k') →
    (elf.sec i).info = (elf.sec i').info →
    r.offset.toNat + arch.width r.type / 8 ≤ r'.offset.toNat ∨
      r'.offset.toNat + arch.width r'.type / 8 ≤ r.offset.toNat

/-- The counters of the loader reach the symbols that the entries name, and all entries; and the
layout is one. -/
structure InReach (mod : Module) : Prop where
  symbols : ∀ i k r, mod.elf.RelaAt i k r → ∀ j < mod.elf.size,
    (mod.elf.sec j).type = shtSymtab → r.symbol.toNat < (mod.elf.sec j).symbols.reach
  relas : RelasFit mod.elf
  layout : LaidOut mod

/-! ### The sections of the image -/

/-- The address of section `j`. -/
def Module.imageAddress (mod : Module) (base : Addr) (j : ℕ) : Addr :=
  if (mod.elf.sec j).alloc = true then base + mod.offset j else (mod.elf.sec j).address

/-- The value of symbol `s` of a section of the image. -/
def Module.imageValue (mod : Module) (base : Addr) (s : Symbol) : Addr :=
  (if s.type = sttSection then 0 else s.value) + (base + mod.offset s.sectionIndex.toNat)

section Sections

variable {mod : Module} {env : SysEnv} {junk : ℕ → Addr} {mc : Machine} {base : Addr}

theorem moved_moveModule (mod : Module) (mc : Machine) (base : Addr) :
    Moved mod.elf base mod.secLayout mod.elf.size (moveModule mod (some base) mc).2.1.elf :=
  moveLoop_moved _

theorem linked_imageAt (mod : Module) (env : SysEnv) (junk : ℕ → Addr) (mc : Machine)
    (base : Addr) : LinkedBelow env junk (moveModule mod (some base) mc).2.1 mod.elf.size
      (layoutSymbolAddr (moveModule mod (some base) mc).2.1 env junk) := by
  have h := layoutSymbolAddr_linked (moveModule mod (some base) mc).2.1 env junk
  rwa [(moved_moveModule mod mc base).size] at h

theorem sec_moveModule {j : ℕ} (hj : j < mod.elf.size) :
    (moveModule mod (some base) mc).2.1.elf.sec j =
      { mod.elf.sec j with address := mod.imageAddress base j } := by
  rw [(moved_moveModule mod mc base).sec j]
  unfold Module.imageAddress
  by_cases ha : (mod.elf.sec j).alloc = true
  · rw [if_pos ⟨hj, ha⟩, if_pos ha]
    rfl
  · rw [if_neg fun h => ha h.2, if_neg ha]

/-- **The sections of the image**: only addresses and symbols are new. -/
theorem sec_imageAt {j : ℕ} (hj : j < mod.elf.size) : ∃ t,
    (imageAt mod env junk mc base).1.elf.sec j =
      { mod.elf.sec j with address := mod.imageAddress base j, symbols := t } ∧
    ((mod.elf.sec j).type = shtSymtab →
      t = (moveModule mod (some base) mc).2.1.elf.linkedSymbols env junk j) := by
  have hl := (linked_imageAt mod env junk mc base).sec j
  rw [sec_moveModule hj] at hl
  by_cases ht : (mod.elf.sec j).type = shtSymtab
  · exact ⟨_, hl.trans (if_pos ⟨hj, ht⟩), fun _ => rfl⟩
  · exact ⟨_, hl.trans (if_neg fun h => ht h.2), fun h => absurd h ht⟩

theorem entry_linkedSymbols {i : ℕ} {x : BitVec 64} {s : Symbol} (hi : i < mod.elf.size)
    (hx : x.toNat < (mod.elf.sec i).symbols.reach) (hs : (mod.elf.sec i).symbols.entry x = some s)
    (hv : mod.elf.Valid s.sectionIndex) (ha : (mod.elf.sec s.sectionIndex.toNat).alloc = true) :
    ((moveModule mod (some base) mc).2.1.elf.linkedSymbols env junk i).entry x =
      some { s with value := mod.imageValue base s } := by
  have hm := moved_moveModule mod mc base
  have hv' : (moveModule mod (some base) mc).2.1.elf.Valid s.sectionIndex :=
    ⟨hv.1, hv.2.1, by rw [hm.size]; exact hv.2.2⟩
  have haddr : ((moveModule mod (some base) mc).2.1.elf.sec s.sectionIndex.toNat).address =
      base + mod.offset s.sectionIndex.toNat := by
    rw [sec_moveModule hv.2.2]
    exact if_pos ha
  have hval : ∀ t env' nv k, writtenValue (moveModule mod (some base) mc).2.1.elf t env' nv k s =
      mod.imageValue base s := by
    intro t env' nv k
    rw [writtenValue, if_neg fun hf => hf.not_valid _ hv', resolvedValue, ownAddress, if_pos hv',
      haddr, Module.imageValue]
    split
    · simp
    · rfl
  unfold Elfio.linkedSymbols linkedTable
  rw [sec_moveModule hi]
  simp only [if_pos hx, hs, Option.map_some, hval]

end Sections

/-! ### The entries -/

/-- The call for entry `r` of section `i`, which names the symbol `s`, in the image at `base`. -/
def Module.entryAt (mod : Module) (base : Addr) (i : ℕ) (r : Rela) (s : Symbol) : RelocEntry :=
  ⟨(mod.elf.sec i).info.toNat, r, base + mod.offset (mod.elf.sec i).info.toNat + r.offset,
    mod.imageValue base s + r.addend⟩

/-- The calls for section `i`, whose symbols are in `t`. -/
def Module.sectionEntriesAt (mod : Module) (base : Addr) (t : SymbolTable) (i : ℕ) :
    List RelocEntry :=
  if mod.elf.Relocates i then
    (List.range (mod.elf.sec i).relas.num.toNat).filterMap fun k =>
      ((mod.elf.sec i).relas.entry (BitVec.ofNat 64 k)).bind fun r =>
        (t.entry (r.symbol.setWidth 64)).map (mod.entryAt base i r)
  else []

/-- The calls for the image at `base`. -/
def Module.entriesAt (mod : Module) (base : Addr) (t : SymbolTable) : List RelocEntry :=
  (List.range mod.elf.size).flatMap (mod.sectionEntriesAt base t)

/-- A call with its place and its value moved by `δ`. -/
def RelocEntry.shift (δ : Addr) (e : RelocEntry) : RelocEntry :=
  { e with loc := e.loc + δ, val := e.val + δ }

theorem entryAt_shift (mod : Module) (base base' : Addr) (i : ℕ) (r : Rela) (s : Symbol) :
    mod.entryAt base' i r s = (mod.entryAt base i r s).shift (base' - base) := by
  unfold Module.entryAt RelocEntry.shift Module.imageValue
  congr 1 <;> ring

/-- **The calls move with the base.** -/
theorem entriesAt_shift (mod : Module) (base base' : Addr) (t : SymbolTable) :
    mod.entriesAt base' t = (mod.entriesAt base t).map (RelocEntry.shift (base' - base)) := by
  unfold Module.entriesAt
  rw [List.map_flatMap]
  refine List.flatMap_congr fun i _ => ?_
  unfold Module.sectionEntriesAt
  split
  · rw [List.map_filterMap]
    refine List.filterMap_congr fun k _ => ?_
    cases (mod.elf.sec i).relas.entry (BitVec.ofNat 64 k) with
    | none => rfl
    | some r =>
      have h : mod.entryAt base' i r =
          RelocEntry.shift (base' - base) ∘ mod.entryAt base i r :=
        funext fun s => entryAt_shift mod base base' i r s
      simp [h]
  · rfl

section Entries

variable {arch : Arch} {mod : Module} {env : SysEnv} {junk : ℕ → Addr} {mc : Machine} {base : Addr}

theorem relinked_imageAt : Elfio.Relinked mod.elf (imageAt mod env junk mc base).1.elf :=
  (readdressed_moveModule mod (some base) mc).relinked.trans (relinked_layoutSymbolAddr _ env junk)

theorem symbols_imageAt {i : ℕ} (hi : i < mod.elf.size)
    (h : ∀ j < mod.elf.size, (mod.elf.sec j).type = shtSymtab ↔ j = i) :
    ((imageAt mod env junk mc base).1.elf.sec
      (imageAt mod env junk mc base).1.symSecIndex.toNat).symbols =
      (moveModule mod (some base) mc).2.1.elf.linkedSymbols env junk i := by
  have hix : (imageAt mod env junk mc base).1.symSecIndex = BitVec.ofNat 32 i := by
    refine (linked_imageAt mod env junk mc base).symSecIndex.trans (symtabBelow_eq _ hi ?_)
    intro j hj
    rw [sec_moveModule hj]
    exact h j hj
  have hnat : (BitVec.ofNat 32 i).toNat = i := by
    have := mod.elf.size_lt
    have : i < mod.elf.sections.length := hi
    rw [BitVec.toNat_ofNat]
    omega
  obtain ⟨t, ht, hsym⟩ := @sec_imageAt mod env junk mc base i hi
  rw [hix, hnat, ht]
  exact hsym ((h i hi).mpr rfl)

/-- **The calls that the pass makes**, when the counters reach the symbols. -/
theorem entries_imageAt (hobj : Rebasable arch mod.elf) (hreach : InReach mod) {i : ℕ}
    (hi : i < mod.elf.size) (hone : ∀ j < mod.elf.size, (mod.elf.sec j).type = shtSymtab ↔ j = i) :
    (imageAt mod env junk mc base).1.entries = mod.entriesAt base (mod.elf.sec i).symbols := by
  unfold Module.entries Elfio.entriesBelow Module.entriesAt
  rw [relinked_imageAt.size, symbols_imageAt hi hone]
  refine List.flatMap_congr fun j hj => ?_
  have hj' := List.mem_range.mp hj
  obtain ⟨t, ht, -⟩ := @sec_imageAt mod env junk mc base j hj'
  unfold Elfio.sectionEntries Module.sectionEntriesAt
  by_cases hr : mod.elf.Relocates j
  · obtain ⟨t', ht', -⟩ := @sec_imageAt mod env junk mc base _ hr.2.1
    have haddr : ((imageAt mod env junk mc base).1.elf.sec (mod.elf.sec j).info.toNat).address =
        base + mod.offset (mod.elf.sec j).info.toNat := by
      rw [ht']
      exact if_pos hr.2.2
    rw [if_pos ((relinked_imageAt.relocates_iff j).mpr hr), if_pos hr, ht]
    dsimp only
    rw [haddr]
    refine List.filterMap_congr fun k hk => ?_
    unfold readEntry RelaTable.getEntry SymbolTable.getSymbol
    cases he : (mod.elf.sec j).relas.entry (BitVec.ofNat 64 k) with
    | none => rfl
    | some r =>
      have hrela : mod.elf.RelaAt j k r := ⟨hj', hr, List.mem_range.mp hk, he⟩
      obtain ⟨-, s, hs, hv, ha⟩ := hobj.symbols j k r hrela i hi ((hone i hi).mpr rfl)
      have hx : (r.symbol.setWidth 64).toNat < (mod.elf.sec i).symbols.reach := by
        rw [BitVec.toNat_setWidth, Nat.mod_eq_of_lt (by omega)]
        exact hreach.symbols j k r hrela i hi ((hone i hi).mpr rfl)
      rw [Option.bind_some, hs]
      dsimp only
      rw [entry_linkedSymbols hi hx hs hv ha]
      rfl
  · rw [if_neg fun h => hr ((relinked_imageAt.relocates_iff j).mp h), if_neg hr]

theorem entry_of_some {t : SymbolTable} {i k : ℕ} {e : RelocEntry} (hi : i < mod.elf.size)
    (hr : mod.elf.Relocates i) (hk : k < (mod.elf.sec i).relas.num.toNat)
    (he : (((mod.elf.sec i).relas.entry (BitVec.ofNat 64 k)).bind fun r =>
      (t.entry (r.symbol.setWidth 64)).map (mod.entryAt base i r)) = some e) :
    ∃ r s, mod.elf.RelaAt i k r ∧ e = mod.entryAt base i r s := by
  obtain ⟨r, hrela, he⟩ := Option.bind_eq_some_iff.mp he
  obtain ⟨s, -, rfl⟩ := Option.map_eq_some_iff.mp he
  exact ⟨r, s, ⟨hi, hr, hk, hrela⟩, rfl⟩

theorem mem_sectionEntriesAt {t : SymbolTable} {i : ℕ} {e : RelocEntry} (hi : i < mod.elf.size)
    (he : e ∈ mod.sectionEntriesAt base t i) :
    ∃ k r s, mod.elf.RelaAt i k r ∧ e = mod.entryAt base i r s := by
  unfold Module.sectionEntriesAt at he
  split at he
  · rename_i hr
    obtain ⟨k, hk, he⟩ := List.mem_filterMap.mp he
    exact ⟨k, entry_of_some hi hr (List.mem_range.mp hk) he⟩
  · cases he

theorem mem_entriesAt {t : SymbolTable} {e : RelocEntry} (he : e ∈ mod.entriesAt base t) :
    ∃ i k r s, mod.elf.RelaAt i k r ∧ e = mod.entryAt base i r s := by
  obtain ⟨i, hi, he⟩ := List.mem_flatMap.mp he
  exact ⟨i, mem_sectionEntriesAt (List.mem_range.mp hi) he⟩

/-! ### The fields -/

theorem place_inside (hobj : Rebasable arch mod.elf) (hlay : LaidOut mod) {i k : ℕ} {r : Rela}
    (hr : mod.elf.RelaAt i k r) :
    (mod.offset (mod.elf.sec i).info.toNat + r.offset).toNat =
        (mod.offset (mod.elf.sec i).info.toNat).toNat + r.offset.toNat ∧
      (mod.offset (mod.elf.sec i).info.toNat).toNat + r.offset.toNat +
        arch.width r.type / 8 ≤ mod.layout.totalSize.toNat := by
  have h1 := hobj.inside i k r hr
  have h2 := hlay.inside _ hr.2.1.2.1 hr.2.1.2.2
  have h3 := mod.layout.totalSize.isLt
  refine ⟨?_, by omega⟩
  rw [BitVec.toNat_add, Nat.mod_eq_of_lt (by omega)]

theorem field_entryAt (i : ℕ) (r : Rela) (s : Symbol) : (mod.entryAt base i r s).field arch =
    range (base + (mod.offset (mod.elf.sec i).info.toNat + r.offset)) (arch.width r.type / 8) := by
  rw [← add_assoc]
  rfl

theorem field_entryAt_subset (hobj : Rebasable arch mod.elf) (hlay : LaidOut mod) {i k : ℕ}
    {r : Rela} (hr : mod.elf.RelaAt i k r) (s : Symbol) :
    (mod.entryAt base i r s).field arch ⊆ range base mod.layout.totalSize.toNat := by
  obtain ⟨h1, h2⟩ := place_inside hobj hlay hr
  rw [field_entryAt]
  exact range_subset (by omega)

theorem field_entryAt_disjoint (hobj : Rebasable arch mod.elf) (hlay : LaidOut mod)
    {i k i' k' : ℕ} {r r' : Rela} (hr : mod.elf.RelaAt i k r) (hr' : mod.elf.RelaAt i' k' r')
    (hne : (i, k) ≠ (i', k')) (s s' : Symbol) :
    Disjoint ((mod.entryAt base i r s).field arch) ((mod.entryAt base i' r' s').field arch) := by
  obtain ⟨h1, h2⟩ := place_inside hobj hlay hr
  obtain ⟨h1', h2'⟩ := place_inside hobj hlay hr'
  have htot := mod.layout.totalSize.isLt
  rw [field_entryAt, field_entryAt]
  refine disjoint_range_add (by omega) (by omega) ?_
  rw [h1, h1']
  by_cases hinfo : (mod.elf.sec i).info = (mod.elf.sec i').info
  · have := hobj.apart i k r i' k' r' hr hr' hne hinfo
    rw [hinfo]
    omega
  · have hin := hobj.inside i k r hr
    have hin' := hobj.inside i' k' r' hr'
    have := hlay.disjoint _ hr.2.1.2.1 _ hr'.2.1.2.1 (fun h => hinfo (BitVec.eq_of_toNat_eq h))
      hr.2.1.2.2 hr'.2.1.2.2
    omega

theorem entriesAt_indep (hobj : Rebasable arch mod.elf) (hlay : LaidOut mod) (t : SymbolTable) :
    (mod.entriesAt base t).Pairwise (Indep (RelocEntry.field arch) (RelocEntry.field arch)) := by
  suffices h : (mod.entriesAt base t).Pairwise fun e e' =>
      Disjoint (e.field arch) (e'.field arch) from h.imp fun hd => ⟨hd, hd, hd⟩
  refine List.pairwise_flatMap.mpr ⟨fun i hi => ?_, ?_⟩
  · have hi' := List.mem_range.mp hi
    unfold Module.sectionEntriesAt
    split
    · rename_i hr
      refine List.pairwise_filterMap.mpr (List.pairwise_lt_range.imp_of_mem ?_)
      intro k k' hk hk' hlt e he e' he'
      obtain ⟨r, s, hrela, rfl⟩ := entry_of_some hi' hr (List.mem_range.mp hk) he
      obtain ⟨r', s', hrela', rfl⟩ := entry_of_some hi' hr (List.mem_range.mp hk') he'
      exact field_entryAt_disjoint hobj hlay hrela hrela' (by simp [hlt.ne]) s s'
    · exact List.Pairwise.nil
  · refine List.pairwise_lt_range.imp_of_mem fun {i i'} hi hi' hlt e he e' he' => ?_
    obtain ⟨k, r, s, hrela, rfl⟩ := mem_sectionEntriesAt (List.mem_range.mp hi) he
    obtain ⟨k', r', s', hrela', rfl⟩ := mem_sectionEntriesAt (List.mem_range.mp hi') he'
    exact field_entryAt_disjoint hobj hlay hrela hrela' (by simp [hlt.ne]) s s'

end Entries

/-! ### The memory -/

/-- The image meets no source of the copies. -/
def ClearOf (mod : Module) (base : Addr) : Prop :=
  ∀ i < mod.elf.size, mod.elf.Copies i →
    Disjoint (range (mod.elf.sec i).address (mod.elf.sec i).size.toNat)
      (range base mod.layout.totalSize.toNat)

/-- **The image moves with the base**: before the relocation its bytes do not depend on it. -/
theorem mem_imageAt {mod : Module} {env : SysEnv} {junk : ℕ → Addr} {mc : Machine}
    {base base' : Addr} (hlay : LaidOut mod) (hclear : ClearOf mod base)
    (hclear' : ClearOf mod base') {x : Addr} (hx : x ∈ range base mod.layout.totalSize.toNat) :
    (imageAt mod env junk mc base).2 x =
      (imageAt mod env junk mc base').2 (x + (base' - base)) := by
  have h := @moveLoop_copied mc.mem _ _ _ _ (hlay.separate hclear)
  have h' := @moveLoop_copied mc.mem _ _ _ _ (hlay.separate hclear')
  have hmove : ∀ o : Addr, base' + o = base + o + (base' - base) := fun o => by ring
  have hx' : x + (base' - base) ∈ range base' mod.layout.totalSize.toNat := by
    have h0 := (@add_mem_range_add base (base' - base) x _).mpr hx
    rwa [add_sub_cancel] at h0
  have hext : ∀ j, x + (base' - base) ∈ extent mod.elf base' mod.secLayout j ↔
      x ∈ extent mod.elf base mod.secLayout j := by
    intro j
    rw [extent, extent, hmove, add_mem_range_add]
  by_cases hc : ∃ j < mod.elf.size, mod.elf.Copies j ∧ x ∈ extent mod.elf base mod.secLayout j
  · obtain ⟨j, hj, hcj, hxj⟩ := hc
    refine (h.bytes j hj hcj x hxj).trans (Eq.trans ?_ (h'.bytes j hj hcj _ ((hext j).mpr hxj)).symm)
    congr 2
    ring
  · push Not at hc
    refine (h.zero x hx hc).trans (h'.zero _ hx' fun j hj hcj => ?_).symm
    rw [hext]
    exact hc j hj hcj

/-! ### Base independence -/

/-- The calls for one entry in two images: the results agree, unless the type is a 64-bit absolute
one; if it is and both succeed, the fields differ by the difference of the bases. -/
structure SameCall (arch : Arch) (base base' : Addr) (m m' : Mem) (c c' : RelocEntry × ℤ) :
    Prop where
  fixedSec : c'.1.fixedSec = c.1.fixedSec
  rela : c'.1.rela = c.1.rela
  place : c'.1.loc - base' = c.1.loc - base
  result : arch.baseKind c.1.rela.type ≠ .absolute → c'.2 = c.2
  absolute : arch.baseKind c.1.rela.type = .absolute → c.2 = 0 → c'.2 = 0 →
    load 64 m' c'.1.loc - load 64 m c.1.loc = base' - base

/-- Both runs of the three stages return, with the same bytes outside the 64-bit absolute fields and
the same calls. -/
def BaseIndependent (arch : Arch) (mod : Module) (env : SysEnv) (junk : ℕ → Addr) (mc : Machine)
    (base base' : Addr) : Prop :=
  ∃ st st', relocatedAt arch mod env junk mc base = some st ∧
    relocatedAt arch mod env junk mc base' = some st' ∧
    (∀ d ∈ range 0 mod.layout.totalSize.toNat,
      (∀ c ∈ st.calls, arch.baseKind c.1.rela.type = .absolute → base + d ∉ c.1.field arch) →
      st'.mem (base' + d) = st.mem (base + d)) ∧
    List.Forall₂ (SameCall arch base base' st.mem st'.mem) st.calls st'.calls

section Independent

variable {arch : Arch} {mod : Module} {env : SysEnv} {junk : ℕ → Addr} {mc : Machine}
  {base base' : Addr}

/-- A call does the same in two memories, at its place and `δ` further on. -/
def SameEffect (arch : Arch) (δ : Addr) (m m' : Mem) (e : RelocEntry) : Prop :=
  (relocCall arch e m).1 = (relocCall arch (e.shift δ) m').1 ∧
    ∀ x ∈ e.field arch, (relocCall arch e m).2 x = (relocCall arch (e.shift δ) m').2 (x + δ)

theorem sameEffect_of_kind {δ : Addr} (hδ : 4096 ∣ δ.toNat) {e : RelocEntry}
    (habs : arch.baseKind e.rela.type ≠ .absolute) (hother : arch.baseKind e.rela.type ≠ .other)
    {m m' : Mem} (hm : ∀ x ∈ e.field arch, m x = m' (x + δ)) : SameEffect arch δ m m' e := by
  have hw := arch.width_mem e.rela.type
  simp only [List.mem_cons, List.not_mem_nil, or_false] at hw
  have hkind : arch.baseKind e.rela.type = .relative ∨ arch.baseKind e.rela.type = .low12 := by
    cases h : arch.baseKind e.rela.type with
    | absolute => exact absurd h habs
    | other => exact absurd h hother
    | relative => exact .inl rfl
    | low12 => exact .inr rfl
  exact (arch.samePatch_rebase hδ hkind).agree (by omega) (by omega) hm

theorem load_absolute_field {l : List RelocEntry}
    (hd : l.Pairwise (Indep (RelocEntry.field arch) (RelocEntry.field arch))) {mem : Mem}
    {e : RelocEntry} (he : e ∈ l) (hk : arch.baseKind e.rela.type = .absolute)
    (hret : (relocCall arch e mem).1 = 0) :
    load 64 (relocAll arch l ⟨mem, []⟩).mem e.loc = e.val := by
  obtain ⟨hw, hval⟩ := arch.load_absolute hk hret
  have hfield : e.field arch = range e.loc (64 / 8) := by
    rw [RelocEntry.field, hw]
  refine Eq.trans (load_congr (by omega) (by omega) fun x hx => ?_) hval
  exact relocAll_field hd mem he (hfield ▸ hx)

/-! ### Two runs of the calls -/

section Runs

variable {l : List RelocEntry} {m m' : Mem}
  (hd : l.Pairwise (Indep (RelocEntry.field arch) (RelocEntry.field arch)))
  (hd' : (l.map (RelocEntry.shift (base' - base))).Pairwise
    (Indep (RelocEntry.field arch) (RelocEntry.field arch)))
  (hcall : ∀ e ∈ l, arch.baseKind e.rela.type ≠ .absolute →
    SameEffect arch (base' - base) m m' e)

include hd hd' hcall

theorem sameCall_relocAll : List.Forall₂ (SameCall arch base base' (relocAll arch l ⟨m, []⟩).mem
      (relocAll arch (l.map (RelocEntry.shift (base' - base))) ⟨m', []⟩).mem)
    (relocAll arch l ⟨m, []⟩).calls
    (relocAll arch (l.map (RelocEntry.shift (base' - base))) ⟨m', []⟩).calls := by
  rw [calls_relocAll hd, calls_relocAll hd', List.map_map, List.forall₂_map_left_iff,
    List.forall₂_map_right_iff, List.forall₂_same]
  intro e he
  refine ⟨rfl, rfl, ?_, fun hk => (hcall e he hk).1.symm, fun hk h0 h0' => ?_⟩
  · show e.loc + (base' - base) - base' = e.loc - base
    ring
  · rw [load_absolute_field hd he hk h0]
    refine (congrArg (· - e.val) (load_absolute_field hd' (List.mem_map_of_mem he) hk h0')).trans ?_
    exact add_sub_cancel_left e.val (base' - base)

theorem mem_relocAll_shift {x : Addr} (hx : m x = m' (x + (base' - base)))
    (habs : ∀ e ∈ l, arch.baseKind e.rela.type = .absolute → x ∉ e.field arch) :
    (relocAll arch (l.map (RelocEntry.shift (base' - base))) ⟨m', []⟩).mem (x + (base' - base)) =
      (relocAll arch l ⟨m, []⟩).mem x := by
  by_cases hf : ∃ e ∈ l, x ∈ e.field arch
  · obtain ⟨e, he, hxe⟩ := hf
    have hxe' : x + (base' - base) ∈ (e.shift (base' - base)).field arch :=
      add_mem_range_add.mpr hxe
    rw [relocAll_field hd m he hxe, relocAll_field hd' m' (List.mem_map_of_mem he) hxe']
    exact ((hcall e he fun hk => habs e he hk hxe).2 x hxe).symm
  · push Not at hf
    rw [relocAll_frame m hf, relocAll_frame m' fun e' he' => ?_, hx]
    obtain ⟨e, he, rfl⟩ := List.mem_map.mp he'
    exact fun h => hf e he (add_mem_range_add.mp h)

end Runs

theorem BaseIndependent.relasFit (h : BaseIndependent arch mod env junk mc base base') :
    RelasFit mod.elf := by
  obtain ⟨st, -, hst, -⟩ := h
  by_contra hfit
  rw [relocatedAt, relocateSymbol_eq_none (mt relinked_imageAt.relasFit_iff.mp hfit)] at hst
  cases hst

/-- **Base independence** of the objects that are in reach of the counters and laid out in their
image. -/
theorem baseIndependent_of_inReach (env : SysEnv) (junk : ℕ → Addr) (mc : Machine)
    (hobj : Rebasable arch mod.elf) (hreach : InReach mod)
    (hbase : 4096 ∣ base.toNat) (hbase' : 4096 ∣ base'.toNat) (hclear : ClearOf mod base)
    (hclear' : ClearOf mod base') : BaseIndependent arch mod env junk mc base base' := by
  obtain ⟨i, hi, hone⟩ := hobj.symtab
  have hlay := hreach.layout
  have hrun : ∀ b, relocatedAt arch mod env junk mc b =
      some (relocAll arch (mod.entriesAt b (mod.elf.sec i).symbols)
        ⟨(imageAt mod env junk mc b).2, []⟩) := by
    intro b
    rw [← @entries_imageAt arch mod env junk mc b hobj hreach i hi hone]
    exact relocateSymbol_eq (relinked_imageAt.relasFit_iff.mpr hreach.relas) _
  have hδ : 4096 ∣ (base' - base).toNat := by
    rw [BitVec.toNat_sub]
    omega
  have hd := @entriesAt_indep arch mod base hobj hlay (mod.elf.sec i).symbols
  have hd' := @entriesAt_indep arch mod base' hobj hlay (mod.elf.sec i).symbols
  have hmem := fun x => @mem_imageAt mod env junk mc base base' hlay hclear hclear' x
  have hcall : ∀ e ∈ mod.entriesAt base (mod.elf.sec i).symbols,
      arch.baseKind e.rela.type ≠ .absolute → SameEffect arch (base' - base)
        (imageAt mod env junk mc base).2 (imageAt mod env junk mc base').2 e := by
    intro e he hk
    obtain ⟨j, k, r, s, hr, rfl⟩ := mem_entriesAt he
    exact sameEffect_of_kind hδ hk (hobj.kinds j k r hr) fun x hx =>
      hmem x (field_entryAt_subset hobj hlay hr s hx)
  refine ⟨_, _, hrun base, hrun base', fun d hdin habs => ?_, ?_⟩
  · rw [entriesAt_shift mod base base'] at hd' ⊢
    have hx : base + d ∈ range base mod.layout.totalSize.toNat := by
      have h := (@add_mem_range_add 0 base d _).mpr hdin
      rwa [zero_add, add_comm] at h
    have hsum : base' + d = base + d + (base' - base) := by ring
    rw [hsum]
    refine mem_relocAll_shift hd hd' hcall (hmem _ hx) fun e he hk => ?_
    refine habs (e, (relocCall arch e (imageAt mod env junk mc base).2).1) ?_ hk
    rw [calls_relocAll hd]
    exact List.mem_map_of_mem he
  · rw [entriesAt_shift mod base base'] at hd' ⊢
    exact sameCall_relocAll hd hd' hcall

end Independent

/-- Code with an `R_X86_64_PC64` against the data and an `R_X86_64_PC32` against the code, and data
with an `R_X86_64_64` against the code, in a file mapped at `0x900000`. -/
def sampleCopied : Module :=
  imageLayout { Module.fresh ⟨[default,
      { (default : Section) with type := 1, flags := 6, offset := 0x40, size := 16 },
      { (default : Section) with type := 1, flags := 3, offset := 0x50, size := 16 },
      { (default : Section) with
        type := 2
        size := 72
        entrySize := 24
        symbols := sampleTable 3 [⟨"f", 8, 0, 1, 2, 1, 0⟩, ⟨"d", 0, 0, 1, 1, 2, 0⟩] },
      { (default : Section) with
        type := 4
        info := 1
        size := 48
        entrySize := 24
        relas := ⟨2, fun i => [some ⟨0, 2, 24, 0⟩, some ⟨8, 1, 2, -4⟩].getD i.toNat none⟩ },
      { (default : Section) with
        type := 4
        info := 2
        size := 24
        entrySize := 24
        relas := ⟨1, fun i => [some ⟨8, 1, 1, 0⟩].getD i.toNat none⟩ }], by simp⟩ with
    elfAddr := 0x900000 }

def relasCopied : List (ℕ × ℕ × Rela) :=
  [(4, 0, ⟨0, 2, 24, 0⟩), (4, 1, ⟨8, 1, 2, -4⟩), (5, 0, ⟨8, 1, 1, 0⟩)]

theorem relaAt_sampleCopied {i k : ℕ} {r : Rela} (h : sampleCopied.elf.RelaAt i k r) :
    (i, k, r) ∈ relasCopied := by
  obtain ⟨hi, hr, hk, he⟩ := h
  match i, hi with
  | 0, _ | 1, _ | 2, _ | 3, _ => exact absurd hr (by decide +kernel)
  | 4, _ =>
    match k, hk with
    | 0, _ | 1, _ => simp [relasCopied, ← Option.some.inj he]
  | 5, _ =>
    match k, hk with
    | 0, _ => simp [relasCopied, ← Option.some.inj he]

theorem symtab_sampleCopied : ∀ j < sampleCopied.elf.size,
    (sampleCopied.elf.sec j).type = shtSymtab ↔ j = 3 := by
  decide +kernel

theorem rebasable_sampleCopied : Rebasable .x86_64 sampleCopied.elf where
  symtab := ⟨3, by decide, symtab_sampleCopied⟩
  symbols i k r h j hj ht := by
    obtain rfl := (symtab_sampleCopied j hj).mp ht
    have hmem := relaAt_sampleCopied h
    simp only [relasCopied, List.mem_cons, Prod.mk.injEq, List.not_mem_nil, or_false] at hmem
    rcases hmem with ⟨rfl, rfl, rfl⟩ | ⟨rfl, rfl, rfl⟩ | ⟨rfl, rfl, rfl⟩
    all_goals exact ⟨by decide +kernel, _, rfl, by decide +kernel, by decide +kernel⟩
  kinds i k r h :=
    (by decide : ∀ x ∈ relasCopied, Arch.x86_64.baseKind x.2.2.type ≠ .other) _
      (relaAt_sampleCopied h)
  inside i k r h :=
    (by decide +kernel : ∀ x ∈ relasCopied, x.2.2.offset.toNat + Arch.x86_64.width x.2.2.type / 8 ≤
      (sampleCopied.elf.sec (sampleCopied.elf.sec x.1).info.toNat).size.toNat) _
        (relaAt_sampleCopied h)
  apart i k r i' k' r' h h' hne _ := by
    have hapart : ∀ x ∈ relasCopied, ∀ y ∈ relasCopied, (x.1, x.2.1) ≠ (y.1, y.2.1) →
        (sampleCopied.elf.sec x.1).info = (sampleCopied.elf.sec y.1).info →
        x.2.2.offset.toNat + Arch.x86_64.width x.2.2.type / 8 ≤ y.2.2.offset.toNat ∨
          y.2.2.offset.toNat + Arch.x86_64.width y.2.2.type / 8 ≤ x.2.2.offset.toNat := by
      decide +kernel
    exact hapart _ (relaAt_sampleCopied h) _ (relaAt_sampleCopied h') hne ‹_›

theorem clearOf_sampleCopied {base : Addr} (h : base = 0xa00000 ∨ base = 0xb00000) :
    ClearOf sampleCopied base := by
  intro i hi hc
  match i, hi with
  | 0, _ | 3, _ | 4, _ | 5, _ => exact absurd hc (by decide +kernel)
  | 1, _ | 2, _ =>
    rcases h with rfl | rfl
    all_goals exact disjoint_range (by decide +kernel) (by decide +kernel) (by decide +kernel)

/-- Two copies of a file. -/
theorem baseIndependent_sampleCopied :
    BaseIndependent .x86_64 sampleCopied SysEnv.empty (fun _ => 0)
      ⟨fun x => if x = 0x90004c then 0xc3 else 0, fun _ => Prot.readWrite⟩ 0xa00000 0xb00000 := by
  have hlay : LaidOut sampleCopied := laidOut_layoutSections rfl (by decide +kernel)
  refine baseIndependent_of_inReach SysEnv.empty _ _ rebasable_sampleCopied
    ⟨fun i k r h j hj ht => ?_, by decide +kernel, hlay⟩ (by decide) (by decide)
    (clearOf_sampleCopied (.inl rfl)) (clearOf_sampleCopied (.inr rfl))
  obtain rfl := (symtab_sampleCopied j hj).mp ht
  exact (by decide +kernel : ∀ x ∈ relasCopied,
    x.2.2.symbol.toNat < (sampleCopied.elf.sec 3).symbols.reach) _ (relaAt_sampleCopied h)

/-- A zeroed section of code, a table of `num` symbols with one in the code, and an `R_X86_64_PC64`
against it. -/
def sampleRebasable (num : BitVec 64) : Module :=
  { Module.fresh ⟨[default,
      { (default : Section) with type := 8, flags := 6, size := 16 },
      { (default : Section) with
        type := 2
        size := 24 * num
        entrySize := 24
        symbols := sampleTable num [⟨"f", 8, 0, 1, 2, 1, 0⟩] },
      { (default : Section) with
        type := 4
        info := 1
        size := 24
        entrySize := 24
        relas := ⟨1, fun i => if i = 0 then some ⟨0, 1, 24, 0⟩ else none⟩ }], by simp⟩ with
    layout := ⟨16, 16, 16, 16, 0⟩
    secLayout := [⟨unplaced⟩, ⟨0⟩, ⟨unplaced⟩, ⟨unplaced⟩] }

theorem type_sampleRebasable (num : BitVec 64) : ∀ j < 4,
    ((sampleRebasable num).elf.sec j).type = [0, 8, 2, 4].getD j 0
  | 0, _ | 1, _ | 2, _ | 3, _ => rfl

theorem symtab_sampleRebasable (num : BitVec 64) {j : ℕ}
    (hj : j < (sampleRebasable num).elf.size) :
    ((sampleRebasable num).elf.sec j).type = shtSymtab ↔ j = 2 := by
  have h : ∀ j < 4, ([0, 8, 2, 4].getD j 0 = shtSymtab ↔ j = 2) := by decide
  rw [type_sampleRebasable num j hj]
  exact h j hj

theorem rela_sampleRebasable {num : BitVec 64} {i : ℕ} (hi : i < (sampleRebasable num).elf.size)
    (h : ((sampleRebasable num).elf.sec i).type = shtRela) : i = 3 := by
  have h3 : ∀ i < 4, [0, 8, 2, 4].getD i 0 = shtRela → i = 3 := by decide
  exact h3 i hi ((type_sampleRebasable num i hi).symm.trans h)

theorem relaAt_sampleRebasable {num : BitVec 64} {i k : ℕ} {r : Rela}
    (h : (sampleRebasable num).elf.RelaAt i k r) : i = 3 ∧ k = 0 ∧ r = ⟨0, 1, 24, 0⟩ := by
  obtain ⟨hi, hr, hk, he⟩ := h
  obtain rfl := rela_sampleRebasable hi hr.1
  have hk0 : k = 0 := Nat.lt_one_iff.mp hk
  subst hk0
  exact ⟨rfl, rfl, (Option.some.inj he).symm⟩

theorem rebasable_sampleRebasable {num : BitVec 64} (hnum : 1 < num.toNat) :
    Rebasable .x86_64 (sampleRebasable num).elf where
  symtab := ⟨2, show 2 < 4 by omega, fun _ hj => symtab_sampleRebasable num hj⟩
  symbols i k r h j hj ht := by
    obtain ⟨rfl, rfl, rfl⟩ := relaAt_sampleRebasable h
    obtain rfl := (symtab_sampleRebasable num hj).mp ht
    have halloc : ((6 : BitVec 64) &&& shfAlloc.setWidth 64 != 0) = true := by decide
    have hlt : (1 : BitVec 64) < num := hnum
    exact ⟨hnum, ⟨"f", 8, 0, 1, 2, 1, 0⟩, if_pos hlt,
      ⟨by decide, by decide, show 1 < 4 by omega⟩, halloc⟩
  kinds i k r h := by
    obtain ⟨rfl, rfl, rfl⟩ := relaAt_sampleRebasable h
    decide
  inside i k r h := by
    obtain ⟨rfl, rfl, rfl⟩ := relaAt_sampleRebasable h
    show 0 + 64 / 8 ≤ 16
    decide
  apart i k r i' k' r' h h' hne := by
    obtain ⟨rfl, rfl, -⟩ := relaAt_sampleRebasable h
    obtain ⟨rfl, rfl, -⟩ := relaAt_sampleRebasable h'
    exact absurd rfl hne

theorem alloc_sampleRebasable {num : BitVec 64} : ∀ i < (sampleRebasable num).elf.size,
    ((sampleRebasable num).elf.sec i).alloc = true → i = 1
  | 1, _, _ => rfl
  | 0, _, h | 2, _, h | 3, _, h => by
    rw [Section.alloc_eq_false rfl] at h
    cases h

theorem clearOf_sampleRebasable (num : BitVec 64) (base : Addr) :
    ClearOf (sampleRebasable num) base := by
  rintro i hi ⟨ha, ht⟩
  obtain rfl := alloc_sampleRebasable i hi ha
  exact absurd rfl ht

theorem laidOut_sampleRebasable (num : BitVec 64) : LaidOut (sampleRebasable num) where
  inside i hi ha := by
    obtain rfl := alloc_sampleRebasable i hi ha
    show 0 + 16 ≤ 16
    decide
  disjoint i hi j hj hij hai haj :=
    absurd ((alloc_sampleRebasable i hi hai).trans (alloc_sampleRebasable j hj haj).symm) hij

/-- **A table of `2 ^ 32` symbols**: the symbol that the entry names is out of reach of the counter
and keeps its old value, so the distance to it depends on the base. -/
theorem huge_table_not_independent :
    Rebasable .x86_64 (sampleRebasable 0x100000000).elf ∧
    LaidOut (sampleRebasable 0x100000000) ∧ (∀ base, ClearOf (sampleRebasable 0x100000000) base) ∧
    ¬ BaseIndependent .x86_64 (sampleRebasable 0x100000000) SysEnv.empty (fun _ => 0)
      ⟨fun _ => 0, fun _ => Prot.readWrite⟩ 0x10000 0x20000 := by
  refine ⟨rebasable_sampleRebasable (by decide), laidOut_sampleRebasable _,
    clearOf_sampleRebasable _, ?_⟩
  rintro ⟨st, st', hst, hst', hbytes, -⟩
  have hrun : (relocatedAt .x86_64 (sampleRebasable 0x100000000) SysEnv.empty (fun _ => 0)
      ⟨fun _ => 0, fun _ => Prot.readWrite⟩ 0x10000).map
        (fun st => (st.mem 0x10002, st.calls.map (·.1.rela.type))) = some (0xff, [24]) := by
    decide +kernel
  have hrun' : (relocatedAt .x86_64 (sampleRebasable 0x100000000) SysEnv.empty (fun _ => 0)
      ⟨fun _ => 0, fun _ => Prot.readWrite⟩ 0x20000).map (fun st => st.mem 0x20002) =
        some 0xfe := by
    decide +kernel
  rw [hst, Option.map_some, Option.some.injEq, Prod.mk.injEq] at hrun
  rw [hst', Option.map_some, Option.some.injEq] at hrun'
  have hb := hbytes 2 (by decide) fun c hc hk => by
    have ht := List.mem_map_of_mem (f := (·.1.rela.type)) hc
    rw [hrun.2, List.mem_singleton] at ht
    rw [ht] at hk
    cases hk
  exact absurd (hrun'.symm.trans (hb.trans hrun.1)) (by decide)

end Umko

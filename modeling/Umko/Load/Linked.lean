import Umko.Load.Isolation
import Umko.Load.Protection
import Umko.Load.Swap

/-!
# The linked image

What the stages up to `relocate_symbol` make of an object, in terms of the object, of its file and
of the environment at the end of the run: outside the fields of its relocations the image has the
bytes of the file, and each field is what `do_relocate_add` makes of them, with the address of the
symbol, which for an import is the one that its name has at the end.
-/

namespace Umko

open Lib.Memory Lib.Bump Lib.Local

/-! ### The entries of an object -/

/-- The fields of the entries of an object end inside their sections, and those of one section do
not meet. -/
structure FieldsFit (arch : Arch) (elf : Elfio) : Prop where
  inside : ∀ i k r, elf.RelaAt i k r →
    r.offset.toNat + arch.width r.type / 8 ≤ (elf.sec (elf.sec i).info.toNat).size.toNat
  apart : ∀ i k r i' k' r', elf.RelaAt i k r → elf.RelaAt i' k' r' → (i, k) ≠ (i', k') →
    (elf.sec i).info = (elf.sec i').info →
    r.offset.toNat + arch.width r.type / 8 ≤ r'.offset.toNat ∨
      r'.offset.toNat + arch.width r'.type / 8 ≤ r.offset.toNat

section Relinked

variable {elf elf' : Elfio} (h : Elfio.Relinked elf elf')

include h

theorem Elfio.Relinked.fieldsFit {arch : Arch} (hf : FieldsFit arch elf) : FieldsFit arch elf' := by
  have hinfo : ∀ i, (elf'.sec i).info = (elf.sec i).info := by
    intro i
    obtain ⟨a, t, ht⟩ := h.sec i
    rw [ht]
  refine ⟨fun i k r hr => ?_, fun i k r i' k' r' hr hr' hne heq => ?_⟩
  · obtain ⟨a, t, ht⟩ := h.sec (elf.sec i).info.toNat
    rw [hinfo, ht]
    exact hf.inside i k r ((h.relaAt_iff i k r).mp hr)
  · rw [hinfo, hinfo] at heq
    exact hf.apart i k r i' k' r' ((h.relaAt_iff i k r).mp hr) ((h.relaAt_iff i' k' r').mp hr')
      hne heq

end Relinked

section Entries

variable {arch : Arch} {mod : Module} {e : RelocEntry}

theorem FieldsFit.disjoint {elf : Elfio} (h : FieldsFit arch elf) {i k i' k' : ℕ} {r r' : Rela}
    (hr : elf.RelaAt i k r) (hr' : elf.RelaAt i' k' r') (hne : (i, k) ≠ (i', k')) (S S' : Addr)
    (hfixed : (elf.callAt i r S).fixedSec = (elf.callAt i' r' S').fixedSec) :
    Disjoint ((elf.callAt i r S).field arch) ((elf.callAt i' r' S').field arch) := by
  have hinfo : (elf.sec i).info = (elf.sec i').info := BitVec.eq_of_toNat_eq hfixed
  have h1 := h.inside i k r hr
  have h2 := h.inside i' k' r' hr'
  have hlt := (elf.sec (elf.sec i).info.toNat).size.isLt
  have hapart := h.apart i k r i' k' r' hr hr' hne hinfo
  rw [← hinfo] at h2
  have hd : Disjoint (range ((elf.sec (elf.sec i).info.toNat).address + r.offset)
      (arch.width r.type / 8)) (range ((elf.sec (elf.sec i).info.toNat).address + r'.offset)
      (arch.width r'.type / 8)) := disjoint_range_add (by omega) (by omega) hapart
  unfold Elfio.callAt RelocEntry.field Elfio.place
  rw [← hinfo]
  exact hd

/-- **Fields apart in the object are apart in memory**, when the sections are. -/
theorem FieldsFit.fieldsApart (h : FieldsFit arch mod.elf)
    (hsec : ∀ i < mod.elf.size, ∀ j < mod.elf.size, i ≠ j → (mod.elf.sec i).alloc = true →
      (mod.elf.sec j).alloc = true → Disjoint (mod.elf.sec i).bytes (mod.elf.sec j).bytes) :
    FieldsApart arch mod where
  sections := hsec
  inside e he := by
    obtain ⟨i, k, r, s, hr, -, rfl⟩ := mem_entries_iff.mp he
    exact range_subset (h.inside i k r hr)
  fields := by
    refine List.pairwise_flatMap.mpr ⟨fun i hi => ?_, ?_⟩
    · have hi' := List.mem_range.mp hi
      unfold Elfio.sectionEntries
      split
      · rename_i hr
        refine List.pairwise_filterMap.mpr (List.pairwise_lt_range.imp_of_mem ?_)
        intro k k' hk hk' hlt e he e' he' hfixed
        obtain ⟨r, s, h1, -, rfl⟩ := readEntry_eq_some_iff.mp he
        obtain ⟨r', s', h1', -, rfl⟩ := readEntry_eq_some_iff.mp he'
        exact h.disjoint ⟨hi', hr, List.mem_range.mp hk, h1⟩ ⟨hi', hr, List.mem_range.mp hk', h1'⟩
          (by simp [hlt.ne]) s.value s'.value hfixed
      · exact List.Pairwise.nil
    · refine List.pairwise_lt_range.imp_of_mem fun {i i'} hi hi' hlt e he e' he' hfixed => ?_
      obtain ⟨k, r, s, hr, -, rfl⟩ := (mem_sectionEntries (List.mem_range.mp hi)).mp he
      obtain ⟨k', r', s', hr', -, rfl⟩ := (mem_sectionEntries (List.mem_range.mp hi')).mp he'
      exact h.disjoint hr hr' (by simp [hlt.ne]) _ _ hfixed

end Entries

/-! ### The image -/

/-- Byte `k` of section `i` before the relocation: that of the file, or zero where the section has
none in it. -/
def Elfio.fileByte (elf : Elfio) (file : ℕ → Byte) (i k : ℕ) : Byte :=
  if (elf.sec i).type = shtNobits then 0 else file ((elf.sec i).offset.toNat + k)

/-- The memory `m` holds these bytes of section `i`. -/
def Elfio.HoldsFile (elf : Elfio) (file : ℕ → Byte) (m : Mem) (i : ℕ) : Prop :=
  ∀ k < (elf.sec i).size.toNat,
    m ((elf.sec i).address + BitVec.ofNat 64 k) = elf.fileByte file i k

/-- Byte `k` of section `i` lies in the field of an entry. -/
def Elfio.InField (arch : Arch) (elf : Elfio) (i k : ℕ) : Prop :=
  ∃ j n r, elf.RelaAt j n r ∧ (elf.sec j).info.toNat = i ∧
    r.offset.toNat ≤ k ∧ k < r.offset.toNat + arch.width r.type / 8

/-- The entry `r` of section `j` names a symbol of the table in section `symtab` that has the
address `S` in the environment `env`. -/
structure Elfio.NamesAt (elf : Elfio) (env : SysEnv) (symtab j : ℕ) (r : Rela) (S : Addr) :
    Prop where
  entry : ∃ n, elf.RelaAt j n r
  lt_num : r.symbol.toNat < (elf.sec symtab).symbols.num.toNat
  address : ∃ s, (elf.sec symtab).symbols.entry (r.symbol.setWidth 64) = some s ∧
    ownAddress elf env s = some S

/-- **The linked image** of the sections `P` of an object with its addresses assigned: the bytes of
the file outside the fields, and in a field what `do_relocate_add` makes of the bytes of the file,
with the address that the symbol has in the environment. -/
structure LinkedImage (arch : Arch) (elf : Elfio) (file : ℕ → Byte) (env : SysEnv) (symtab : ℕ)
    (P : ℕ → Prop) (m : Mem) : Prop where
  plain : ∀ i < elf.size, P i → ∀ k < (elf.sec i).size.toNat, ¬ elf.InField arch i k →
    m ((elf.sec i).address + BitVec.ofNat 64 k) = elf.fileByte file i k
  field : ∀ j r S, elf.NamesAt env symtab j r S → P (elf.sec j).info.toNat →
    ∀ raw, elf.HoldsFile file raw (elf.sec j).info.toNat →
      Set.EqOn m (arch.doRelocateAdd r.type (elf.place j r) (S + r.addend) raw).2
        (range (elf.place j r) (arch.width r.type / 8))

/-- **The pass has linked the image** of all sections, and reports of every entry what
`do_relocate_add` reports. -/
structure LinkedPass (arch : Arch) (elf : Elfio) (file : ℕ → Byte) (env : SysEnv) (symtab : ℕ)
    (st : RelocState) : Prop where
  image : LinkedImage arch elf file env symtab (fun i => (elf.sec i).alloc = true) st.mem
  reported : ∀ j r S, elf.NamesAt env symtab j r S →
    ∀ raw, elf.HoldsFile file raw (elf.sec j).info.toNat →
      (elf.callAt j r S, (arch.doRelocateAdd r.type (elf.place j r) (S + r.addend) raw).1) ∈ st.calls

/-- A load of an object in a file of `size` bytes mapped at `p`, into an image at `base`: all calls
succeed, the counters reach everything, the sections lie in the file, the fields in the sections,
and the mappings are apart. -/
structure LinkableLoad (arch : Arch) (mod : Module) (w : World) (size : BitVec 64) (p base : Addr) :
    Prop extends PagedLoad mod w where
  opened : w.openOk = true
  fileSize : w.fileSize = some size
  fileAddr : w.fileAddr = some p
  parsed : w.parsed.1 = true
  image : w.image = some base
  relas : RelasFit w.parsed.2
  fields : FieldsFit arch w.parsed.2
  inFile : ∀ i < w.parsed.2.size, w.parsed.2.Copies i →
    (w.parsed.2.sec i).offset.toNat + (w.parsed.2.sec i).size.toNat ≤ size.toNat
  apart : Disjoint (range p size.toNat) (range base (total 0 (w.parsed.2.reqs 5)))

section Load

variable {arch : Arch} {mod : Module} {w : World} {size : BitVec 64} {p base : Addr}

theorem LinkableLoad.object_eq (h : LinkableLoad arch mod w size p base) :
    mod.object w = w.parsed.2 := by
  unfold Module.object
  rw [if_pos ⟨h.opened, by simp [h.fileSize], by simp [h.fileAddr]⟩]

theorem LinkableLoad.loadRelocElf_eq (h : LinkableLoad arch mod w size p base) (mc : Machine) :
    loadRelocElf mod w mc = (0, { mod with elf := w.parsed.2, elfAddr := p },
      ⟨writeBytes mc.mem p size.toNat w.file, setProt mc.prot p size.toNat Prot.readWrite⟩) := by
  simp [loadRelocElf, h.opened, h.fileSize, h.fileAddr, h.parsed]

theorem LinkableLoad.sec_placed (h : LinkableLoad arch mod w size p base) (mc : Machine) {i : ℕ}
    (hi : i < w.parsed.2.size) : (placedModule mod w mc).elf.sec i =
      { w.parsed.2.sec i with address := p + (w.parsed.2.sec i).offset } := by
  rw [sec_placedModule (h.object_eq ▸ hi), h.loadRelocElf_eq, h.object_eq]

theorem LinkableLoad.separate (h : LinkableLoad arch mod w size p base) (mc : Machine) :
    Separate (placedModule mod w mc).elf base (placedModule mod w mc).secLayout
      (placedModule mod w mc).layout.totalSize.toNat := by
  have htotal := (h.layout_eq mc).2
  have hload := h.loadRelocElf_eq mc
  rw [h.object_eq] at htotal
  unfold placedModule at htotal ⊢
  rw [hload] at htotal ⊢
  refine separate_image h.layout_zero ?_ (fun i hi ha ht => h.inFile i hi ⟨ha, ht⟩) ?_
  · rw [← h.object_eq]
    exact h.fits
  · unfold imageLayout
    rw [htotal]
    exact h.apart

theorem LinkableLoad.prepare_eq (h : LinkableLoad arch mod w size p base) (mc : Machine) :
    (prepare mod w mc).2.mem = ((List.range (placedModule mod w mc).elf.size).foldl
      (moveStep base (placedModule mod w mc).secLayout)
      (memset (writeBytes mc.mem p size.toNat w.file) base 0
        (placedModule mod w mc).layout.totalSize.toNat, (placedModule mod w mc).elf)).1 := by
  unfold prepare placedModule
  rw [h.image, h.loadRelocElf_eq]
  rfl

/-- **The image before the relocation** holds the bytes of the file. -/
theorem LinkableLoad.holdsFile (h : LinkableLoad arch mod w size p base) (mc : Machine) {i : ℕ}
    (hi : i < (prepare mod w mc).1.elf.size) (ha : ((prepare mod w mc).1.elf.sec i).alloc = true) :
    (prepare mod w mc).1.elf.HoldsFile w.file (prepare mod w mc).2.mem i := by
  have hs := h.separate mc
  have hl := @moveLoop_copied (writeBytes mc.mem p size.toNat w.file) _ _ _ _ hs
  have hobj := h.object_eq
  obtain ⟨a, haddr⟩ := (@readdressed_prepare mod w mc).exists_sec i
  rw [readdressed_prepare.size, hobj] at hi
  rw [haddr, hobj] at ha
  have ha' : (w.parsed.2.sec i).alloc = true := ha
  have hsec := h.sec_placed mc hi
  have hi' : i < (placedModule mod w mc).elf.size := by rwa [size_placedModule, hobj]
  have hai : ((placedModule mod w mc).elf.sec i).alloc = true := by
    rw [hsec]
    exact ha
  intro k hk
  rw [sec_prepare_image h.image (by rwa [hobj]) (by rwa [hobj]), hobj] at hk ⊢
  have hk' : k < (w.parsed.2.sec i).size.toNat := hk
  have hx : base + (placedModule mod w mc).offset i + BitVec.ofNat 64 k ∈
      extent (placedModule mod w mc).elf base (placedModule mod w mc).secLayout i := by
    rw [extent, hsec]
    exact (add_ofNat_mem_range (Nat.lt_trans hk' (w.parsed.2.sec i).size.isLt)).mpr hk'
  rw [h.prepare_eq]
  unfold Elfio.fileByte
  rw [haddr, hobj]
  show _ = if (w.parsed.2.sec i).type = shtNobits then 0 else _
  split
  · rename_i ht
    -- no other section is copied over one without contents
    refine hl.zero _ (hs.inside i hi' hai hx) fun j hj hc => ?_
    have hne : i ≠ j := by
      rintro rfl
      have hc2 := hc.2
      rw [hsec] at hc2
      exact hc2 ht
    exact Set.disjoint_left.mp (hs.disjoint i hi' j hj hne hai hc.1) hx
  · rename_i ht
    have hin := h.inFile i hi ⟨ha', ht⟩
    have hsz := size.isLt
    have hc : (placedModule mod w mc).elf.Copies i := by
      unfold Elfio.Copies
      rw [hsec]
      exact ⟨ha', ht⟩
    refine (hl.bytes i hi' hc _ hx).trans ?_
    rw [hsec]
    show writeBytes mc.mem p size.toNat w.file _ = _
    rw [show (p + (w.parsed.2.sec i).offset + (base + (placedModule mod w mc).offset i +
        BitVec.ofNat 64 k - (base + ((placedModule mod w mc).secLayout.getD i ⟨0⟩).offset))) =
          p + BitVec.ofNat 64 ((w.parsed.2.sec i).offset.toNat + k) from file_byte _]
    exact writeBytes_add (by omega) (by omega)

/-- **The sections of the image are apart.** -/
theorem LinkableLoad.sections_apart (h : LinkableLoad arch mod w size p base) (env : SysEnv)
    (mc : Machine) {i j : ℕ} (hi : i < (link mod env w mc).mod.elf.size)
    (hj : j < (link mod env w mc).mod.elf.size) (hij : i ≠ j)
    (hai : ((link mod env w mc).mod.elf.sec i).alloc = true)
    (haj : ((link mod env w mc).mod.elf.sec j).alloc = true) :
    Disjoint ((link mod env w mc).mod.elf.sec i).bytes
      ((link mod env w mc).mod.elf.sec j).bytes := by
  have hr := @relinked_link mod env w mc
  have hbytes : ∀ {i}, i < (link mod env w mc).mod.elf.size →
      ((link mod env w mc).mod.elf.sec i).alloc = true →
      i < (placedModule mod w mc).elf.size ∧ ((placedModule mod w mc).elf.sec i).alloc = true ∧
        ((link mod env w mc).mod.elf.sec i).bytes =
          extent (placedModule mod w mc).elf base (placedModule mod w mc).secLayout i := by
    intro i hi ha
    obtain ⟨a, t, ht⟩ := hr.sec i
    rw [hr.size] at hi
    rw [ht] at ha
    obtain ⟨t', ht'⟩ := @sec_link_image mod w env mc base h.image i hi ha
    have hsec := @sec_placedModule mod w mc i hi
    refine ⟨by rwa [size_placedModule], by rwa [hsec], ?_⟩
    rw [ht', extent, hsec]
    rfl
  obtain ⟨hi', hai', hbi⟩ := hbytes hi hai
  obtain ⟨hj', haj', hbj⟩ := hbytes hj haj
  rw [hbi, hbj]
  exact (h.separate mc).disjoint i hi' j hj' hij hai' haj'

/-! ### The pass -/

theorem Elfio.HoldsFile.eqOn {elf : Elfio} {file : ℕ → Byte} {m m' : Mem} {i : ℕ}
    (h : elf.HoldsFile file m i) (h' : elf.HoldsFile file m' i) :
    Set.EqOn m m' (elf.sec i).bytes := by
  intro x hx
  have hk : x = (elf.sec i).address + BitVec.ofNat 64 (x - (elf.sec i).address).toNat := by
    rw [BitVec.ofNat_toNat, BitVec.setWidth_eq, add_sub_cancel]
  rw [hk, h _ hx, h' _ hx]

section Link

variable {env env' : SysEnv} {mc : Machine}

theorem relinked_prepare :
    Elfio.Relinked (prepare mod w mc).1.elf (link mod env w mc).mod.elf :=
  relinked_layoutSymbolAddr (prepare mod w mc).1 env w.junk

theorem bytes_link (i : ℕ) : ((link mod env w mc).mod.elf.sec i).bytes =
    ((prepare mod w mc).1.elf.sec i).bytes := by
  obtain ⟨t, ht, -⟩ := @sec_link mod env w mc i
  rw [ht]
  rfl

theorem alloc_link (i : ℕ) : ((link mod env w mc).mod.elf.sec i).alloc =
    ((prepare mod w mc).1.elf.sec i).alloc := by
  obtain ⟨t, ht, -⟩ := @sec_link mod env w mc i
  rw [ht]
  rfl

theorem callAt_link (j : ℕ) (r : Rela) (S : Addr) :
    (link mod env w mc).mod.elf.callAt j r S = (prepare mod w mc).1.elf.callAt j r S := by
  obtain ⟨t, ht, -⟩ := @sec_link mod env w mc j
  obtain ⟨t', ht', -⟩ := @sec_link mod env w mc ((prepare mod w mc).1.elf.sec j).info.toNat
  unfold Elfio.callAt Elfio.place
  rw [ht]
  dsimp only
  rw [ht']

variable (h : LinkableLoad arch mod w size p base)

include h

theorem LinkableLoad.fieldsFit : FieldsFit arch (prepare mod w mc).1.elf :=
  readdressed_prepare.relinked.fieldsFit (by
    rw [h.object_eq]
    exact h.fields)

theorem LinkableLoad.fieldsApart : FieldsApart arch (link mod env w mc).mod :=
  (relinked_prepare.fieldsFit h.fieldsFit).fieldsApart
    fun _ hi _ hj hij hai haj => h.sections_apart env mc hi hj hij hai haj

theorem LinkableLoad.notMem_field {i k : ℕ} (hi : i < (prepare mod w mc).1.elf.size)
    (ha : ((prepare mod w mc).1.elf.sec i).alloc = true)
    (hk : k < ((prepare mod w mc).1.elf.sec i).size.toNat)
    (hout : ¬ (prepare mod w mc).1.elf.InField arch i k) :
    ∀ e ∈ (link mod env w mc).mod.entries,
      ((prepare mod w mc).1.elf.sec i).address + BitVec.ofNat 64 k ∉ e.field arch := by
  intro e he hx
  have hfa := @LinkableLoad.fieldsApart arch mod w size p base env mc h
  have hlt := ((prepare mod w mc).1.elf.sec i).size.isLt
  have hin := hfa.inside e he hx
  obtain ⟨j, n, r, s, hr, -, rfl⟩ := mem_entries_iff.mp he
  rw [callAt_link] at hx hin
  have hr' := (relinked_prepare.relaAt_iff j n r).mp hr
  by_cases hj : ((prepare mod w mc).1.elf.sec j).info.toNat = i
  · refine hout ⟨j, n, r, hr', hj, ?_⟩
    have hfield := h.fieldsFit.inside j n r hr'
    have hx' : ((prepare mod w mc).1.elf.sec i).address + BitVec.ofNat 64 k ∈
        range (((prepare mod w mc).1.elf.sec i).address + r.offset) (arch.width r.type / 8) := by
      have hplace : (prepare mod w mc).1.elf.place j r =
          ((prepare mod w mc).1.elf.sec i).address + r.offset := by rw [← hj]; rfl
      rw [← hplace]
      exact hx
    rw [hj] at hfield
    have hsub := sub_mem_of_mem_range (by omega) hx'
    rwa [add_ofNat_sub _ (by omega)] at hsub
  · have hdisj := hfa.sections _ (by rw [relinked_prepare.size]; exact hr'.2.1.2.1) i
      (by rw [relinked_prepare.size]; exact hi) hj (by rw [alloc_link]; exact hr'.2.1.2.2)
      (by rw [alloc_link]; exact ha)
    refine Set.disjoint_left.mp hdisj hin ?_
    rw [bytes_link]
    exact (add_ofNat_mem_range (by omega)).mpr hk

theorem LinkableLoad.eqOn_field {j n : ℕ} {r : Rela} (S : Addr)
    (hr : (prepare mod w mc).1.elf.RelaAt j n r) {raw : Mem}
    (hraw : (prepare mod w mc).1.elf.HoldsFile w.file raw
      ((prepare mod w mc).1.elf.sec j).info.toNat) :
    Set.EqOn (prepare mod w mc).2.mem raw
      (((prepare mod w mc).1.elf.callAt j r S).field arch) :=
  ((h.holdsFile mc hr.2.1.2.1 hr.2.1.2.2).eqOn hraw).mono
    (range_subset (h.fieldsFit.inside j n r hr))

/-- **The pass links the image**, when the symbols that the entries name have been fixed. -/
theorem LinkableLoad.linkedPass {symtab : ℕ}
    (hix : (link mod env w mc).mod.symSecIndex.toNat = symtab)
    (hval : ∀ j r S, (prepare mod w mc).1.elf.NamesAt env' symtab j r S →
      ∃ s, ((link mod env w mc).mod.elf.sec symtab).symbols.entry (r.symbol.setWidth 64) = some s ∧
        s.value = S) :
    ∃ st, relocateSymbol arch (link mod env w mc).mod (prepare mod w mc).2.mem = some st ∧
      LinkedPass arch (prepare mod w mc).1.elf w.file env' symtab st := by
  have hfit : RelasFit (link mod env w mc).mod.elf :=
    relinked_link.relasFit_iff.mpr (by rw [h.object_eq]; exact h.relas)
  have hsim := relocAll_simultaneous (@LinkableLoad.fieldsApart arch mod w size p base env mc h)
    (prepare mod w mc).2.mem
  have hentry : ∀ j r S, (prepare mod w mc).1.elf.NamesAt env' symtab j r S →
      (prepare mod w mc).1.elf.callAt j r S ∈ (link mod env w mc).mod.entries := by
    intro j r S hn
    obtain ⟨n, hr⟩ := hn.entry
    obtain ⟨s, hs, rfl⟩ := hval j r S hn
    rw [← @callAt_link mod w env mc]
    exact mem_entries_iff.mpr ⟨j, n, r, s, (relinked_prepare.relaAt_iff j n r).mpr hr, hix ▸ hs, rfl⟩
  refine ⟨_, relocateSymbol_eq hfit _, ⟨fun i hi ha k hk hout => ?_, ?_⟩, ?_⟩
  · exact (hsim.frame _ (h.notMem_field hi ha hk hout)).trans (h.holdsFile mc hi ha k hk)
  · intro j r S hn _ raw hraw x hx
    obtain ⟨n, hr⟩ := hn.entry
    exact (hsim.field _ (hentry j r S hn) x hx).trans
      ((relocCall_local arch _).written _ _ (h.eqOn_field S hr hraw) hx)
  · intro j r S hn raw hraw
    obtain ⟨n, hr⟩ := hn.entry
    rw [hsim.calls]
    exact List.mem_map.mpr ⟨_, hentry j r S hn, congrArg (Prod.mk _)
      ((relocCall_local arch _).result _ _ (h.eqOn_field S hr hraw))⟩

end Link

end Load

/-! ### Runs -/

section Run

variable {arch : Arch} {mc : Machine} {as before : List Action} {mod : Module} {w : World}
  {size : BitVec 64} {p base : Addr} {symtab : ℕ}

/-- Section `i` is the last symbol table of an object. -/
structure Elfio.LastTable (elf : Elfio) (i : ℕ) : Prop where
  lt_size : i < elf.size
  table : (elf.sec i).type = shtSymtab
  last : ∀ j < elf.size, i < j → (elf.sec j).type ≠ shtSymtab

theorem Elfio.LastTable.symtabBelow_eq {elf : Elfio} {i : ℕ} (h : elf.LastTable i)
    (ix : BitVec 32) : (elf.symtabBelow ix elf.size).toNat = i := by
  have hn : ∀ n ≤ elf.size, i < n → elf.symtabBelow ix n = BitVec.ofNat 32 i := by
    intro n
    induction n with
    | zero => exact fun _ hi => absurd hi (Nat.not_lt_zero i)
    | succ n ih =>
      intro hn hi
      rw [Elfio.symtabBelow]
      rcases Nat.lt_succ_iff_lt_or_eq.mp hi with hi | rfl
      · rw [if_neg (h.last n (by omega) hi)]
        exact ih (by omega) hi
      · rw [if_pos h.table]
  have hsize := elf.size_lt
  have hlen : i < elf.sections.length := h.lt_size
  rw [hn _ le_rfl h.lt_size, BitVec.toNat_ofNat]
  omega

/-- **What a symbol of a section ends up with**, in whatever environment. -/
theorem entry_linkedSymbols_valid {elf : Elfio} {env env' : SysEnv} {junk : ℕ → Addr} {i : ℕ}
    {x : BitVec 64} {s : Symbol} {S : Addr} (hx : x.toNat < (elf.sec i).symbols.reach)
    (hs : (elf.sec i).symbols.entry x = some s) (hv : elf.Valid s.sectionIndex)
    (hS : ownAddress elf env' s = some S) :
    (elf.linkedSymbols env junk i).entry x = some { s with value := S } := by
  have hown : ∀ env, ownAddress elf env s = some S := by
    intro env
    rw [ownAddress, if_pos hv] at hS ⊢
    exact hS
  have hval : ∀ t env' nv k, writtenValue elf t env' nv k s = S := by
    intro t env' nv k
    rw [writtenValue, if_neg fun hf => hf.not_valid _ hv, resolvedValue, hown, Option.getD_some]
  unfold Elfio.linkedSymbols linkedTable
  simp only [if_pos hx, hs, Option.map_some, hval]

/-- The load after the actions `before` has found a definition of every name that it looked up. -/
def AllFound (arch : Arch) (mc : Machine) (before : List Action) (mod : Module) (w : World) : Prop :=
  ∀ m ∈ ((run arch (.start mc) before).load arch mod w).imports, m.2.answer ≠ none

/-- **A symbol that has an address at the end of the run** has it in the linked table. -/
theorem entry_link_of_ownAddress (hfit : ∀ a ∈ as, a.Fits)
    (hload : before ++ [.loadModule mod w] <+: as)
    (hlive : (run arch (.start mc) before).halted = false)
    (hfound : AllFound arch mc before mod w)
    (ht : ((run arch (.start mc) before).linked mod w).LastTable symtab) {x : BitVec 64}
    {s : Symbol} {S : Addr}
    (hx : x.toNat < (((run arch (.start mc) before).linked mod w).sec symtab).symbols.num.toNat)
    (hs : (((run arch (.start mc) before).linked mod w).sec symtab).symbols.entry x = some s)
    (hS : ownAddress ((run arch (.start mc) before).linked mod w)
      (run arch (.start mc) as).env s = some S) :
    ∃ s', ((link mod (run arch (.start mc) before).env w
      (run arch (.start mc) before).mc).mod.elf.sec symtab).symbols.entry x = some s' ∧
        s'.value = S := by
  have hx' : BitVec.ofNat 64 x.toNat = x := by rw [BitVec.ofNat_toNat, BitVec.setWidth_eq]
  by_cases himp : s.IsImport
  · have hat : ImportAt arch mc as before mod w symtab x.toNat s :=
      ⟨hload, hlive, ht.lt_size, ht.table, hx, hx'.symm ▸ hs, himp⟩
    have hv : ¬ ((run arch (.start mc) before).linked mod w).Valid s.sectionIndex :=
      fun hv => hv.1 himp.2.1
    rw [ownAddress, if_neg hv, if_pos himp] at hS
    have hentry := hat.entry_load hfit
    rw [hx', show ((run arch (.start mc) before).load arch mod w).mod = _ from
      link_loadModule.1] at hentry
    refine ⟨_, hentry, ?_⟩
    -- the name has been found, and the first definition of it is the one that stays
    have hget := hat.getSymbol_eq hfit s.name
    cases hans : (earlier arch mc before mod w symtab x.toNat).lookup s.name with
    | none =>
      rw [hans] at hget
      refine absurd rfl (hfound (symtab, ⟨BitVec.ofNat 32 x.toNat, s.name, none⟩) ?_)
      rw [show ((run arch (.start mc) before).load arch mod w).imports = _ from
        link_loadModule.2.2]
      refine mem_imports.mpr ⟨ht.lt_size, ht.table, mem_importsBefore.mpr
        ⟨x.toNat, hat.lt_reach hfit, s, hat.entry, himp, ?_⟩⟩
      exact congrArg (Import.mk _ _) hget.symm
    | some addr =>
      obtain ⟨rest, hrest⟩ := hat.earlier_initial
      have henv := @env_run arch (.start mc) as hfit
      rw [henv, SysEnv.getSymbol_addAll, ← hrest, List.lookup_append, hans] at hS
      simpa [RunState.start, SysEnv.empty, SysEnv.getSymbol] using hS
  · have hv : ((run arch (.start mc) before).linked mod w).Valid s.sectionIndex := by
      by_contra hv
      rw [ownAddress, if_neg hv, if_neg himp] at hS
      cases hS
    have hfits : TablesFit ((run arch (.start mc) before).linked mod w) :=
      TablesFit.readdressed (hfit (.loadModule mod w)
        (hload.subset (List.mem_append_right _ (List.mem_singleton_self _)))) readdressed_prepare
    have hsec := (layoutSymbolAddr_linked (prepare mod w (run arch (.start mc) before).mc).1
      (run arch (.start mc) before).env w.junk).sec symtab
    rw [if_pos ⟨ht.lt_size, ht.table⟩] at hsec
    have hreach : x.toNat < (((run arch (.start mc) before).linked mod w).sec
        symtab).symbols.reach := by
      rw [SymbolTable.reach_eq (hfits symtab ht.lt_size ht.table)]
      exact hx
    refine ⟨{ s with value := S }, (congrArg (fun sec => sec.symbols.entry x) hsec).trans ?_, rfl⟩
    exact entry_linkedSymbols_valid hreach hs hv hS

/-- The pass of a load of a run links the image in the environment of the end of the run. -/
theorem exists_linkedPass (hfit : ∀ a ∈ as, a.Fits) (hload : before ++ [.loadModule mod w] <+: as)
    (hlive : (run arch (.start mc) before).halted = false)
    (h : LinkableLoad arch mod w size p base) (ht : w.parsed.2.LastTable symtab)
    (hfound : AllFound arch mc before mod w) :
    let st := run arch (.start mc) before
    ∃ rel, relocateSymbol arch (link mod st.env w st.mc).mod (prepare mod w st.mc).2.mem =
        some rel ∧
      LinkedPass arch (st.linked mod w) w.file (run arch (.start mc) as).env symtab rel := by
  intro st
  have hr : Elfio.Readdressed w.parsed.2 (st.linked mod w) := by
    rw [← h.object_eq]
    exact readdressed_prepare
  have ht' : (st.linked mod w).LastTable symtab := by
    refine ⟨by rw [hr.size]; exact ht.lt_size, ?_, fun j hj hlt => ?_⟩
    · obtain ⟨a, ha⟩ := hr.exists_sec symtab
      rw [ha]
      exact ht.table
    · obtain ⟨a, ha⟩ := hr.exists_sec j
      rw [ha]
      exact ht.last j (by rwa [hr.size] at hj) hlt
  refine h.linkedPass ?_ fun j r S hn => ?_
  · rw [symSecIndex_link, h.object_eq]
    exact ht.symtabBelow_eq _
  · obtain ⟨s, hs, hS⟩ := hn.address
    have hlt := hn.lt_num
    refine entry_link_of_ownAddress hfit hload hlive hfound ht' ?_ hs hS
    rw [BitVec.toNat_setWidth, Nat.mod_eq_of_lt (by omega)]
    exact hlt

/-- Every load of a run that finds a definition of every name that it looks up links its image in the
environment of the end of the run. -/
def ImagesLinked (arch : Arch) (mc : Machine) (as : List Action) : Prop :=
  ∀ before mod w size p base symtab, before ++ [.loadModule mod w] <+: as →
    (run arch (.start mc) before).halted = false → LinkableLoad arch mod w size p base →
    w.parsed.2.LastTable symtab → AllFound arch mc before mod w →
    let st := run arch (.start mc) before
    ∃ rel, relocateSymbol arch (link mod st.env w st.mc).mod (prepare mod w st.mc).2.mem =
        some rel ∧
      LinkedPass arch (st.linked mod w) w.file (run arch (.start mc) as).env symtab rel

/-- **The loads of a run link their images**, when no symbol table is too long for its counter. -/
theorem imagesLinked_of_fits (hfit : ∀ a ∈ as, a.Fits) : ImagesLinked arch mc as :=
  fun _ _ _ _ _ _ _ hload hlive h ht hfound => exists_linkedPass hfit hload hlive h ht hfound

end Run

/-- The world of the load of a caller of the host. -/
def callerWorld : World :=
  { sampleWorld 0 with
    fileSize := some 0x50
    file := fun k => BitVec.ofNat 8 (k / 0x48)
    parsed := (true, callerObject "f")
    image := some 0x20000 }

def callerRun : List Action :=
  [.registerFunc "host" 0x1000, .loadModule (Module.fresh ⟨[], by simp⟩) callerWorld]

theorem relaAt_callerObject {name : String} {i k : ℕ} {r : Rela}
    (h : (callerObject name).RelaAt i k r) : i = 3 ∧ k = 0 ∧ r = ⟨8, 2, 1, 0⟩ := by
  obtain ⟨hi, hr, hk, hentry⟩ := h
  match i, hi with
  | 3, _ =>
    obtain rfl : k = 0 := Nat.lt_one_iff.mp hk
    exact ⟨rfl, rfl, (Option.some.inj hentry).symm⟩
  | 0, _ | 1, _ | 2, _ => exact absurd hr.1 (by simp [callerObject, Elfio.sec, shtRela, default])

theorem linkableLoad_caller : LinkableLoad .x86_64 (Module.fresh ⟨[], by simp⟩) callerWorld 0x50
    0x100000000000 0x20000 where
  layout_zero := rfl
  fits := (by decide +kernel : LayoutFits (callerObject "f"))
  paged base hb := by
    obtain rfl := Option.some.inj hb
    decide
  unmapped h := by cases h
  opened := rfl
  fileSize := rfl
  fileAddr := rfl
  parsed := rfl
  image := rfl
  relas := (by decide +kernel : RelasFit (callerObject "f"))
  fields := by
    refine ⟨fun i k r hr => ?_, fun i k r i' k' r' hr hr' hne => ?_⟩
    · obtain ⟨rfl, -, rfl⟩ := relaAt_callerObject hr
      decide
    · obtain ⟨rfl, rfl, -⟩ := relaAt_callerObject hr
      obtain ⟨rfl, rfl, -⟩ := relaAt_callerObject hr'
      exact absurd rfl hne
  inFile := (by decide +kernel : ∀ i < (callerObject "f").size, (callerObject "f").Copies i →
    ((callerObject "f").sec i).offset.toNat + ((callerObject "f").sec i).size.toNat ≤ 0x50)
  apart := disjoint_range (by decide +kernel) (by decide +kernel) (by decide +kernel)

theorem lastTable_caller : (callerObject "f").LastTable 2 := by
  refine ⟨by decide, rfl, fun j hj hlt => ?_⟩
  match j, hj with
  | 3, _ => decide

theorem fits_callerRun : ∀ a ∈ callerRun, a.Fits := by
  intro a ha
  rcases List.mem_pair.mp ha with rfl | rfl
  · trivial
  · show TablesFit (callerObject "f")
    decide +kernel

theorem allFound_caller : AllFound .x86_64 startMachine [.registerFunc "host" 0x1000]
    (Module.fresh ⟨[], by simp⟩) callerWorld := by
  unfold AllFound
  decide +kernel

theorem imagesLinked_of_fits_caller :
    let st := run .x86_64 (.start startMachine) [.registerFunc "host" 0x1000]
    ∃ rel, relocateSymbol .x86_64 (link (Module.fresh ⟨[], by simp⟩) st.env callerWorld st.mc).mod
        (prepare (Module.fresh ⟨[], by simp⟩) callerWorld st.mc).2.mem = some rel ∧
      LinkedPass .x86_64 (st.linked (Module.fresh ⟨[], by simp⟩) callerWorld) callerWorld.file
        (run .x86_64 (.start startMachine) callerRun).env 2 rel :=
  imagesLinked_of_fits fits_callerRun _ _ _ _ _ _ _ (List.prefix_refl _) rfl linkableLoad_caller
    lastTable_caller allFound_caller

end Umko

import Umko.Reloc.Pass

/-!
# The pass as a simultaneous update

When no two fields meet, carrying out the entries one after another is the same as applying all of
them to the memory before the pass. So the order of the RELA sections, and of the entries in them,
does not matter.
-/

namespace Umko

open Lib.Memory Lib.Local Lib.Loop

/-! ### Fields -/

/-- The bytes that an entry reads and writes. -/
def RelocEntry.field (arch : Arch) (e : RelocEntry) : Set Addr :=
  range e.loc (arch.width e.rela.type / 8)

/-- The bytes of a section. -/
def Section.bytes (s : Section) : Set Addr := range s.address s.size.toNat

theorem relocCall_local (arch : Arch) (e : RelocEntry) :
    LocalTo (e.field arch) (e.field arch) (relocCall arch e) :=
  arch.doRelocateAdd_local _ _ _

theorem relocAll_local {arch : Arch} {l : List RelocEntry} {S : Set Addr}
    (h : ∀ e ∈ l, e.field arch ⊆ S) : LocalTo S S fun m =>
      ((relocAll arch l ⟨m, []⟩).calls, (relocAll arch l ⟨m, []⟩).mem) := by
  have hrun : LocalTo S S (runAll (relocCall arch) l) :=
    runAll_local fun e he => (relocCall_local arch e).mono (h e he) subset_rfl (h e he)
  simp only [relocAll_eq_runAll]
  exact hrun.map ([] ++ l.zip ·)

/-- The sections of the image do not meet, the fields lie in their sections, and the fields of one
section do not meet. -/
structure FieldsApart (arch : Arch) (mod : Module) : Prop where
  sections : ∀ i < mod.elf.size, ∀ j < mod.elf.size, i ≠ j → (mod.elf.sec i).alloc = true →
    (mod.elf.sec j).alloc = true → Disjoint (mod.elf.sec i).bytes (mod.elf.sec j).bytes
  inside : ∀ e ∈ mod.entries, e.field arch ⊆ (mod.elf.sec e.fixedSec).bytes
  fields : mod.entries.Pairwise fun e e' =>
    e.fixedSec = e'.fixedSec → Disjoint (e.field arch) (e'.field arch)

theorem mem_entries {mod : Module} {e : RelocEntry} (he : e ∈ mod.entries) :
    ∃ i k, mod.elf.Relocates i ∧ e.fixedSec = (mod.elf.sec i).info.toNat ∧
      (mod.elf.sec i).relas.entry k = some e.rela := by
  obtain ⟨i, -, hi⟩ := List.mem_flatMap.mp he
  unfold Elfio.sectionEntries at hi
  split at hi
  · rename_i hr
    obtain ⟨k, -, hk⟩ := List.mem_filterMap.mp hi
    unfold readEntry at hk
    split at hk
    · cases hk
    · rename_i r hentry
      split at hk
      · cases hk
      · obtain rfl := Option.some.inj hk
        exact ⟨i, _, hr, rfl, hentry⟩
  · cases hi

theorem fixedSec_of_mem {mod : Module} {e : RelocEntry} (he : e ∈ mod.entries) :
    e.fixedSec < mod.elf.size ∧ (mod.elf.sec e.fixedSec).alloc = true := by
  obtain ⟨i, k, hr, hfixed, -⟩ := mem_entries he
  rw [hfixed]
  exact hr.2

/-- **No two entries touch a common byte.** -/
theorem entries_indep {arch : Arch} {mod : Module} (h : FieldsApart arch mod) :
    mod.entries.Pairwise (Indep (RelocEntry.field arch) (RelocEntry.field arch)) := by
  refine h.fields.imp_of_mem fun {e e'} he he' hd => ?_
  have hdisj : Disjoint (e.field arch) (e'.field arch) := by
    by_cases heq : e.fixedSec = e'.fixedSec
    · exact hd heq
    · obtain ⟨h1, h2⟩ := fixedSec_of_mem he
      obtain ⟨h1', h2'⟩ := fixedSec_of_mem he'
      exact (h.sections _ h1 _ h1' heq h2 h2').mono (h.inside e he) (h.inside e' he')
  exact ⟨hdisj, hdisj, hdisj⟩

/-! ### All at once -/

/-- The state after the pass is that of all entries applied to the memory before it: every result,
every field, and nothing else. -/
structure Simultaneous (arch : Arch) (mod : Module) (mem : Mem) (st : RelocState) : Prop where
  calls : st.calls = mod.entries.map fun e => (e, (relocCall arch e mem).1)
  field : ∀ e ∈ mod.entries, ∀ x ∈ e.field arch, st.mem x = (relocCall arch e mem).2 x
  frame : ∀ x, (∀ e ∈ mod.entries, x ∉ e.field arch) → st.mem x = mem x

theorem calls_relocAll {arch : Arch} {l : List RelocEntry}
    (hd : l.Pairwise (Indep (RelocEntry.field arch) (RelocEntry.field arch))) (mem : Mem) :
    (relocAll arch l ⟨mem, []⟩).calls = l.map fun e => (e, (relocCall arch e mem).1) := by
  rw [relocAll_eq_runAll]
  show [] ++ l.zip (runAll (relocCall arch) l mem).1 = _
  rw [runAll_results (fun e _ => relocCall_local arch e) hd, List.nil_append]
  simpa using @List.zip_map' _ _ _ id (fun e => (relocCall arch e mem).1) l

theorem relocAll_field {arch : Arch} {l : List RelocEntry}
    (hd : l.Pairwise (Indep (RelocEntry.field arch) (RelocEntry.field arch))) (mem : Mem)
    {e : RelocEntry} (he : e ∈ l) {x : Addr} (hx : x ∈ e.field arch) :
    (relocAll arch l ⟨mem, []⟩).mem x = (relocCall arch e mem).2 x := by
  rw [relocAll_eq_runAll]
  exact runAll_written (fun e _ => relocCall_local arch e) hd mem he hx

theorem relocAll_frame {arch : Arch} {l : List RelocEntry} (mem : Mem) {x : Addr}
    (hx : ∀ e ∈ l, x ∉ e.field arch) : (relocAll arch l ⟨mem, []⟩).mem x = mem x := by
  rw [relocAll_eq_runAll]
  exact runAll_frame (fun e _ => relocCall_local arch e) mem hx

/-- **The calls in order, all at once.** -/
theorem relocAll_simultaneous {arch : Arch} {mod : Module} (h : FieldsApart arch mod) (mem : Mem) :
    Simultaneous arch mod mem (relocAll arch mod.entries ⟨mem, []⟩) where
  calls := calls_relocAll (entries_indep h) mem
  field _ he _ hx := relocAll_field (entries_indep h) mem he hx
  frame _ hx := relocAll_frame mem hx

/-! ### Permuted objects -/

/-- The entries of a table in another order. -/
structure Reordered (t t' : RelaTable) : Prop where
  num : t'.num = t.num
  entry : ∃ τ : Equiv.Perm ℕ, (∀ k < t.num.toNat, τ k < t.num.toNat) ∧
    ∀ k < t.num.toNat, t'.entry (BitVec.ofNat 64 k) = t.entry (BitVec.ofNat 64 (τ k))

/-- Among `n` sections, `info'` names the section that `info` names, which `σ` has moved; or neither
of them names one. -/
def Follows (n : ℕ) (σ : Equiv.Perm ℕ) (info info' : BitVec 32) : Prop :=
  (info'.toNat < n ∧ σ info'.toNat = info.toNat) ∨ (n ≤ info'.toNat ∧ n ≤ info.toNat)

/-- The RELA sections, and the entries in them, in another order: section `i` of `mod'` is section
`σ i` of `mod`. No other section moves, and `sh_info` follows the section that it names. -/
structure Permuted (σ : Equiv.Perm ℕ) (mod mod' : Module) : Prop where
  size : mod'.elf.size = mod.elf.size
  symSecIndex : mod'.symSecIndex = mod.symSecIndex
  lt_size : ∀ i < mod.elf.size, σ i < mod.elf.size
  fixed : ∀ i < mod.elf.size,
    (mod.elf.sec i).type ≠ shtRela ∨ i = mod.symSecIndex.toNat → σ i = i
  sec : ∀ i < mod.elf.size, ∃ t info, Reordered (mod.elf.sec (σ i)).relas t ∧
    ((mod.elf.sec (σ i)).type = shtRela →
      Follows mod.elf.size σ (mod.elf.sec (σ i)).info info) ∧
    ((mod.elf.sec (σ i)).type ≠ shtRela → info = (mod.elf.sec (σ i)).info) ∧
    mod'.elf.sec i = { mod.elf.sec (σ i) with relas := t, info := info }

/-- An entry, with its section under the name that it has in the object before. -/
def RelocEntry.rename (σ : Equiv.Perm ℕ) (e : RelocEntry) : RelocEntry :=
  { e with fixedSec := σ e.fixedSec }

theorem map_rename_tableEntries (σ : Equiv.Perm ℕ) (t : RelaTable) (base : Addr)
    (symbols : SymbolTable) (fixedSec : ℕ) :
    (tableEntries t base symbols fixedSec).map (RelocEntry.rename σ) =
      tableEntries t base symbols (σ fixedSec) := by
  unfold tableEntries
  rw [List.map_filterMap]
  refine List.filterMap_congr fun k _ => ?_
  unfold readEntry
  cases t.getEntry (BitVec.ofNat 64 k) with
  | none => rfl
  | some r =>
    dsimp only
    cases symbols.getSymbol (r.symbol.setWidth 64) <;> rfl

theorem tableEntries_perm {t t' : RelaTable} (h : Reordered t t') (base : Addr)
    (symbols : SymbolTable) (fixedSec : ℕ) :
    (tableEntries t' base symbols fixedSec).Perm (tableEntries t base symbols fixedSec) := by
  obtain ⟨τ, hτ, hentry⟩ := h.entry
  unfold tableEntries
  rw [h.num]
  refine List.Perm.trans (List.Perm.of_eq ?_) ((map_perm_range τ hτ).filterMap _)
  rw [List.filterMap_map]
  refine List.filterMap_congr fun k hk => ?_
  unfold readEntry RelaTable.getEntry
  rw [hentry k (List.mem_range.mp hk)]
  rfl

section Permuted

variable {σ : Equiv.Perm ℕ} {mod mod' : Module}

theorem Permuted.symbols (h : Permuted σ mod mod') :
    (mod'.elf.sec mod'.symSecIndex.toNat).symbols =
      (mod.elf.sec mod.symSecIndex.toNat).symbols := by
  rw [h.symSecIndex]
  rcases Nat.lt_or_ge mod.symSecIndex.toNat mod.elf.size with hlt | hge
  · obtain ⟨t, info, -, -, -, he⟩ := h.sec _ hlt
    rw [he, h.fixed _ hlt (.inr rfl)]
  · rw [Elfio.sec_of_size_le hge, Elfio.sec_of_size_le (by rw [h.size]; exact hge)]

theorem Permuted.relocates (h : Permuted σ mod mod') {i : ℕ} (hi : i < mod.elf.size) :
    (mod'.elf.Relocates i ↔ mod.elf.Relocates (σ i)) ∧ (mod.elf.Relocates (σ i) →
      σ (mod'.elf.sec i).info.toNat = (mod.elf.sec (σ i)).info.toNat ∧
      (mod'.elf.sec (mod'.elf.sec i).info.toNat).address =
        (mod.elf.sec (mod.elf.sec (σ i)).info.toNat).address) := by
  obtain ⟨t, info, -, hfollow, -, he⟩ := h.sec i hi
  unfold Elfio.Relocates
  rw [he, h.size]
  by_cases htype : (mod.elf.sec (σ i)).type = shtRela
  · rcases hfollow htype with ⟨hlt, hname⟩ | ⟨hge, hge'⟩
    · obtain ⟨t', info', -, -, -, he'⟩ := h.sec _ hlt
      rw [hname] at he'
      have hlt' : (mod.elf.sec (σ i)).info.toNat < mod.elf.size := hname ▸ h.lt_size _ hlt
      have halloc : (mod'.elf.sec info.toNat).alloc =
          (mod.elf.sec (mod.elf.sec (σ i)).info.toNat).alloc := by
        rw [he']
        rfl
      refine ⟨⟨fun hr => ⟨htype, hlt', halloc ▸ hr.2.2⟩, fun hr => ⟨htype, hlt, ?_⟩⟩,
        fun _ => ⟨hname, ?_⟩⟩
      · exact halloc.trans hr.2.2
      · show (mod'.elf.sec info.toNat).address = _
        rw [he']
    · exact ⟨⟨fun hr => absurd hr.2.1 (Nat.not_lt.mpr hge),
        fun hr => absurd hr.2.1 (Nat.not_lt.mpr hge')⟩,
        fun hr => absurd hr.2.1 (Nat.not_lt.mpr hge')⟩
  · exact ⟨⟨fun hr => absurd hr.1 htype, fun hr => absurd hr.1 htype⟩, fun hr => absurd hr.1 htype⟩

theorem Permuted.sectionEntries (h : Permuted σ mod mod') {i : ℕ} (hi : i < mod.elf.size) :
    ((mod'.elf.sectionEntries (mod'.elf.sec mod'.symSecIndex.toNat).symbols i).map
      (RelocEntry.rename σ)).Perm
        (mod.elf.sectionEntries (mod.elf.sec mod.symSecIndex.toNat).symbols (σ i)) := by
  obtain ⟨hrel, hsame⟩ := h.relocates hi
  obtain ⟨t, info, ht, -, -, he⟩ := h.sec i hi
  rw [h.symbols]
  unfold Elfio.sectionEntries
  by_cases hr : mod.elf.Relocates (σ i)
  · obtain ⟨hname, haddr⟩ := hsame hr
    rw [if_pos (hrel.mpr hr), if_pos hr, map_rename_tableEntries, hname, haddr, he]
    exact tableEntries_perm ht _ _ _
  · rw [if_neg (fun h' => hr (hrel.mp h')), if_neg hr]
    exact List.Perm.nil

/-- **A permuted object has the same entries, in another order.** -/
theorem Permuted.entries (h : Permuted σ mod mod') :
    (mod'.entries.map (RelocEntry.rename σ)).Perm mod.entries := by
  unfold Module.entries Elfio.entriesBelow
  rw [h.size, List.map_flatMap]
  refine List.Perm.trans ?_ ((map_perm_range σ h.lt_size).flatMap_right _)
  rw [List.flatMap_map]
  exact List.Perm.flatMap_left _ fun i hi => h.sectionEntries (List.mem_range.mp hi)

theorem Permuted.relasFit (h : Permuted σ mod mod') (hfit : RelasFit mod.elf) :
    RelasFit mod'.elf := by
  intro i hi hr
  rw [h.size] at hi
  obtain ⟨t, info, ht, -, -, he⟩ := h.sec i hi
  have hnum : (mod'.elf.sec i).relas.num = (mod.elf.sec (σ i)).relas.num := by
    rw [he]
    exact ht.num
  rw [hnum]
  exact hfit (σ i) (h.lt_size i hi) ((h.relocates hi).1.mp hr)

end Permuted

def RelocState.failing (st : RelocState) : List (RelocEntry × ℤ) := st.calls.filter (·.2 ≠ 0)

/-- The pass returns, with all entries applied at once; and on every permuted object it returns with
the same memory and the same failures. -/
def OrderIndependent (arch : Arch) (mod : Module) (mem : Mem) : Prop :=
  ∃ st, relocateSymbol arch mod mem = some st ∧ Simultaneous arch mod mem st ∧
    ∀ σ mod', Permuted σ mod mod' → ∃ st', relocateSymbol arch mod' mem = some st' ∧
      st'.mem = st.mem ∧ (st'.failing.map fun c => (c.1.rename σ, c.2)).Perm st.failing

/-- **When the pass is a simultaneous update**: for fields apart, exactly when the tables that it
visits have fewer than `2 ^ 32` entries. With more it never returns. -/
theorem orderIndependent_iff {arch : Arch} {mod : Module} (h : FieldsApart arch mod) (mem : Mem) :
    OrderIndependent arch mod mem ↔ RelasFit mod.elf := by
  constructor
  · rintro ⟨st, hst, -⟩
    by_contra hfit
    rw [relocateSymbol_eq_none hfit] at hst
    cases hst
  · intro hfit
    have hsim := relocAll_simultaneous h mem
    have hd := entries_indep h
    refine ⟨_, relocateSymbol_eq hfit mem, hsim, fun σ mod' hp => ?_⟩
    have hrun := runAll_map (relocCall arch) (RelocEntry.rename σ) mod'.entries mem
    -- a renamed entry is the same call
    have hd' : mod'.entries.Pairwise (Indep (RelocEntry.field arch) (RelocEntry.field arch)) :=
      (List.pairwise_map.mp (hd.perm hp.entries.symm fun h' => h'.symm)).imp fun h' =>
        ⟨h'.writes, h'.left, h'.right⟩
    refine ⟨_, relocateSymbol_eq (hp.relasFit hfit) mem, ?_, ?_⟩
    · rw [relocAll_eq_runAll, relocAll_eq_runAll]
      refine (congrArg Prod.snd hrun).symm.trans ?_
      exact (runAll_perm (fun e _ => relocCall_local arch e) hd hp.entries.symm mem).symm
    · have hcalls := (hp.entries.map fun e => (e, (relocCall arch e mem).1)).filter (·.2 ≠ 0)
      unfold RelocState.failing
      rw [hsim.calls, calls_relocAll hd' mem]
      refine List.Perm.trans (List.Perm.of_eq ?_) hcalls
      rw [List.map_map, List.filter_map, List.filter_map, List.map_map]
      rfl

/-- A code section of 16 bytes at `0x20000`, a symbol in it, and the relocations `relas` of it. -/
def sampleRelocElf (relas : RelaTable) : Elfio := ⟨[default,
  { (default : Section) with type := 1, flags := 6, address := 0x20000, size := 16 },
  { (default : Section) with
    type := 2
    size := 48
    entrySize := 24
    symbols := sampleTable 2 [⟨"f", 0x20008, 0, 1, 2, 1, 0⟩] },
  { (default : Section) with
    type := 4
    info := 1
    size := 24 * relas.num
    entrySize := 24
    relas := relas }], by simp⟩

def sampleReloc (relas : RelaTable) : Module :=
  { Module.fresh (sampleRelocElf relas) with symSecIndex := 2 }

/-- An `R_X86_64_64` and an `R_X86_64_PC64`. -/
def sampleRelas : RelaTable :=
  ⟨2, fun i => if i = 0 then some ⟨0, 1, 1, 4⟩ else if i = 1 then some ⟨8, 1, 24, 0⟩ else none⟩

theorem sections_sampleReloc (relas : RelaTable) : ∀ i < (sampleReloc relas).elf.size,
    ((sampleReloc relas).elf.sec i).alloc = true → i = 1 := by
  intro i hi ha
  match i, hi with
  | 1, _ => rfl
  | 0, _ | 2, _ | 3, _ =>
    rw [Section.alloc_eq_false rfl] at ha
    cases ha

theorem fieldsApart_sampleReloc : FieldsApart .x86_64 (sampleReloc sampleRelas) := by
  have hentries : (sampleReloc sampleRelas).entries =
      [⟨1, ⟨0, 1, 1, 4⟩, 0x20000, 0x2000c⟩, ⟨1, ⟨8, 1, 24, 0⟩, 0x20008, 0x20008⟩] := by rfl
  have h1 : RelocEntry.field .x86_64 ⟨1, ⟨0, 1, 1, 4⟩, 0x20000, 0x2000c⟩ = range 0x20000 8 := rfl
  have h2 : RelocEntry.field .x86_64 ⟨1, ⟨8, 1, 24, 0⟩, 0x20008, 0x20008⟩ = range 0x20008 8 := rfl
  refine ⟨fun i hi j hj hij hai haj => ?_, fun e he => ?_, ?_⟩
  · exact absurd ((sections_sampleReloc _ i hi hai).trans (sections_sampleReloc _ j hj haj).symm)
      hij
  · rw [hentries] at he
    rcases List.mem_pair.mp he with rfl | rfl
    · rw [h1]
      exact range_mono (by decide)
    · rw [h2]
      exact @range_subset 0x20000 8 8 16 (by decide)
  · rw [hentries, List.pairwise_pair]
    intro _
    rw [h1, h2]
    exact @disjoint_range_add 0x20000 0 8 8 8 (by decide) (by decide) (by decide)

theorem orderIndependent_sampleReloc :
    OrderIndependent .x86_64 (sampleReloc sampleRelas) (fun _ => 0) ↔
      RelasFit (sampleReloc sampleRelas).elf :=
  orderIndependent_iff fieldsApart_sampleReloc _

/-- `2 ^ 32` entries `R_X86_64_NONE`. -/
def sampleNones : RelaTable :=
  ⟨0x100000000, fun i => if i < 0x100000000 then some ⟨0, 1, 0, 0⟩ else none⟩

/-- **A table of `2 ^ 32` entries**: the fields are apart, as they are all empty, and the pass does
not return. -/
theorem endless_pass : FieldsApart .x86_64 (sampleReloc sampleNones) ∧
    ¬ OrderIndependent .x86_64 (sampleReloc sampleNones) fun _ => 0 := by
  have hrela : ∀ i k r, ((sampleReloc sampleNones).elf.sec i).relas.entry k = some r → r.type = 0
    | 0, _, _, h | 1, _, _, h | 2, _, _, h | _ + 4, _, _, h => by cases h
    | 3, k, r, h => by
      obtain ⟨-, hr⟩ := Option.ite_none_right_eq_some.mp h
      rw [← Option.some.inj hr]
  have hempty : ∀ e ∈ (sampleReloc sampleNones).entries, e.field .x86_64 = ∅ := by
    intro e he
    obtain ⟨i, k, -, -, hentry⟩ := mem_entries he
    rw [RelocEntry.field, hrela i k _ hentry]
    exact range_zero _
  refine ⟨⟨fun i hi j hj hij hai haj => ?_, fun e he => ?_, ?_⟩, ?_⟩
  · exact absurd ((sections_sampleReloc _ i hi hai).trans (sections_sampleReloc _ j hj haj).symm)
      hij
  · rw [hempty e he]
    exact Set.empty_subset _
  · refine List.pairwise_of_forall_mem_list fun e he e' _ _ => ?_
    rw [hempty e he]
    exact Set.empty_disjoint _
  · rintro ⟨st, hst, -⟩
    rw [relocateSymbol_eq_none] at hst
    · cases hst
    · intro hfit
      have h3 := hfit 3 (by decide) (by decide)
      exact absurd h3 (by decide)

end Umko

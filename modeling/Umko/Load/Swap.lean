import Umko.Load.Base
import Umko.Layout.Narrowing
import Umko.Image.Footprint
import Umko.Symbols.Independent

/-!
# The order of two loads

The stages of a load between the mapping of its file and `mod_protect`, for two modules over one
environment. Modules that do not name each other's symbols and whose mappings do not meet can be
loaded in either order: each one is linked as if it were alone, and what it does to the memory stays
in its mappings.
-/

namespace Umko

open Lib.Memory Lib.Local

/-! ### The stages between the file and the protection -/

/-- A module whose object is mapped and not loaded: the length of the mapping of the file, what
`mmap` will return for the image, and what `newValue` will hold when a symbol table is reached. -/
structure Pending where
  mod : Module
  fileSize : ℕ
  base : Addr
  junk : ℕ → Addr
  layout_zero : mod.layout = Layout.zero

/-- What the stages leave. -/
structure Installed where
  mod : Module
  env : SysEnv
  mc : Machine
  imports : List (ℕ × Import)
  calls : List (RelocEntry × ℤ)

/-- The module and the machine after `init_section_addr`, `layout_sections` and `move_module`. -/
def Pending.moved (p : Pending) (mc : Machine) : Module × Machine := (loadImage p.mod p.base mc).2

/-- The state after `layout_symbol_addr`. -/
def Pending.linked (p : Pending) (env : SysEnv) (mc : Machine) : LinkState :=
  layoutSymbolAddr (p.moved mc).1 env p.junk

/-- The stages up to `relocate_symbol`; `none` when that one does not return. -/
def install (arch : Arch) (p : Pending) (env : SysEnv) (mc : Machine) : Option Installed :=
  let l := p.linked env mc
  let mc := (p.moved mc).2
  (relocateSymbol arch l.mod mc.mem).map fun st =>
    ⟨l.mod, l.env, ⟨st.mem, mc.prot⟩, l.imports, st.calls⟩

/-- The stages for `p`, and then for `q`. -/
def installBoth (arch : Arch) (p q : Pending) (env : SysEnv) (mc : Machine) :
    Option (Installed × Installed) :=
  (install arch p env mc).bind fun a => (install arch q a.env a.mc).map fun b => (a, b)

/-- **The stages are those of `load_module`**, for a file and an image that can be mapped. -/
theorem install_loadModule {arch : Arch} {p : Pending} {mod : Module} {env : SysEnv} {w : World}
    {mc : Machine} (hmod : p.mod = (loadRelocElf mod w mc).2.1) (hbase : w.image = some p.base)
    (hjunk : p.junk = w.junk) {a : Installed}
    (h : install arch p env (loadRelocElf mod w mc).2.2 = some a) :
    (loadModule arch mod env w mc).mod = a.mod ∧ (loadModule arch mod env w mc).env = a.env ∧
      (loadModule arch mod env w mc).imports = a.imports ∧
      relocateSymbol arch (link mod env w mc).mod (prepare mod w mc).2.mem =
        some ⟨a.mc.mem, a.calls⟩ := by
  have hprepare : prepare mod w mc = p.moved (loadRelocElf mod w mc).2.2 := by
    unfold prepare Pending.moved loadImage
    rw [hbase, hmod]
  have hlink : link mod env w mc = p.linked env (loadRelocElf mod w mc).2.2 := by
    unfold link Pending.linked
    rw [hprepare, hjunk]
  obtain ⟨st, hst, rfl⟩ := Option.map_eq_some_iff.mp h
  obtain ⟨h1, h2, h3⟩ := @link_loadModule arch mod env w mc
  rw [hlink] at h1 h2 h3 ⊢
  rw [hprepare]
  exact ⟨h1, h2, h3, hst⟩

/-! ### Mappings -/

section Mappings

variable (p : Pending)

def Pending.file : Set Addr := range p.mod.elfAddr p.fileSize

def Pending.image : Set Addr := range p.base (imageLayout p.mod).layout.totalSize.toNat

def Pending.mappings : Set Addr := p.file ∪ p.image

/-- The stages write to section `i` of the image: it is copied, or a field is in it, or a field
reaches beyond the section that it starts in, whichever section that is. -/
def Elfio.Written (arch : Arch) (elf : Elfio) (i : ℕ) : Prop :=
  (elf.sec i).alloc = true ∧ (elf.sec i).size ≠ 0 ∧ (elf.Copies i ∨ ∃ j k r, elf.RelaAt j k r ∧
    arch.width r.type ≠ 0 ∧ ((elf.sec j).info.toNat = i ∨
      (elf.sec (elf.sec j).info.toNat).size.toNat < r.offset.toNat + arch.width r.type / 8))

/-- A section with a field in it is written. -/
theorem Elfio.RelaAt.written_self {arch : Arch} {elf : Elfio} {j k : ℕ} {r : Rela}
    (h : elf.RelaAt j k r) (hwidth : arch.width r.type ≠ 0)
    (hfit : r.offset.toNat + arch.width r.type / 8 ≤
      (elf.sec (elf.sec j).info.toNat).size.toNat) :
    elf.Written arch (elf.sec j).info.toNat := by
  refine ⟨h.2.1.2.2, fun hzero => ?_, .inr ⟨j, k, r, h, hwidth, .inl rfl⟩⟩
  have hpos := arch.width_pos hwidth
  rw [hzero] at hfit
  exact absurd (show _ ≤ 0 from hfit) (by omega)

/-- So is every section, where a field reaches beyond its own. -/
theorem Elfio.RelaAt.written_of_beyond {arch : Arch} {elf : Elfio} {i j k : ℕ} {r : Rela}
    (h : elf.RelaAt j k r) (hwidth : arch.width r.type ≠ 0)
    (hlt : (elf.sec (elf.sec j).info.toNat).size.toNat <
      r.offset.toNat + arch.width r.type / 8) (ha : (elf.sec i).alloc = true)
    (hsize : (elf.sec i).size ≠ 0) : elf.Written arch i :=
  ⟨ha, hsize, .inr ⟨j, k, r, h, hwidth, .inr hlt⟩⟩

/-- The contents of the sections that are copied lie in the mapping of the file, and of no section
that is written an extent is lost to narrowing. -/
structure Pending.InBounds (arch : Arch) : Prop where
  layout : ∀ i < p.mod.elf.size, p.mod.elf.Written arch i → SectionFits p.mod.elf i
  file : ∀ i < p.mod.elf.size, p.mod.elf.Copies i → (p.mod.elf.sec i).size ≠ 0 →
    (p.mod.elf.sec i).offset.toNat + (p.mod.elf.sec i).size.toNat ≤ p.fileSize

theorem sectionFits_initSectionAddr {mod : Module} {i : ℕ} (h : SectionFits mod.elf i) :
    SectionFits (initSectionAddr mod).elf i := by
  have hcut : (initSectionAddr mod).elf.cut = (initSectionAddr mod.cut).elf := by
    simp only [initSectionAddr, Module.cut, Elfio.cut, Elfio.map, List.map_map]
    rfl
  have hreqs : (initSectionAddr mod).elf.cut.reqs 5 = mod.elf.cut.reqs 5 := by
    rw [hcut]
    exact reqs_initSectionAddr mod.cut 5
  refine ⟨fun p hp => ?_, fun p hp hi => ?_⟩
  · rw [hreqs] at hp
    exact h.offset_lt p hp
  · obtain ⟨a, ha⟩ := (readdressed_initSectionAddr mod).exists_sec i
    rw [hreqs] at hp ⊢
    rw [ha]
    exact h.room p hp hi

variable {p} {arch : Arch}

theorem Pending.InBounds.of_narrowFits (h : NarrowFits p.mod.elf)
    (hfile : ∀ i < p.mod.elf.size, p.mod.elf.Copies i →
      (p.mod.elf.sec i).offset.toNat + (p.mod.elf.sec i).size.toNat ≤ p.fileSize) :
    p.InBounds arch :=
  ⟨fun i _ _ => h.sectionFits i, fun i hi hc _ => hfile i hi hc⟩

theorem Pending.InBounds.inside (h : p.InBounds arch) {i : ℕ} (hi : i < p.mod.elf.size)
    (hw : p.mod.elf.Written arch i) :
    ((imageLayout p.mod).offset i).toNat + (p.mod.elf.sec i).size.toNat ≤
      (imageLayout p.mod).layout.totalSize.toNat := by
  have hsec := sec_initSectionAddr p.mod hi
  have hin := (sectionFits_initSectionAddr (h.layout i hi hw)).inside p.layout_zero
    (by rwa [size_initSectionAddr]) (by rw [hsec]; exact hw.1)
  rwa [hsec] at hin

variable (p) in
/-- The bytes of the sections of a module that is linked: those in the image, and the mapping of the
file, where the other ones are. -/
def Pending.sections (mod : Module) : Set Addr :=
  p.file ∪ {x | ∃ i < mod.elf.size, (mod.elf.sec i).alloc = true ∧ x ∈ (mod.elf.sec i).bytes}

variable (p) in
/-- The relocation fields of a module that is linked lie in its own sections. -/
def Pending.OwnFields (arch : Arch) (mod : Module) : Prop :=
  ∀ e ∈ mod.entries, e.field arch ⊆ p.sections mod

end Mappings

/-! ### What a load makes of its module -/

section Linked

variable {p : Pending} {env env' : SysEnv} {mc mc' : Machine}

theorem Pending.readdressed_moved (p : Pending) (mc : Machine) :
    Elfio.Readdressed p.mod.elf (p.moved mc).1.elf :=
  (readdressed_initSectionAddr _).trans
    (readdressed_moveModule (layoutSections (initSectionAddr p.mod)) (some p.base) mc)

/-- **A module is linked in the same way** whatever the memory holds, in environments that agree on
its imports. -/
theorem Pending.linked_congr (h : SameImports (p.moved mc).1.elf env env') :
    (p.linked env' mc').mod = (p.linked env mc).mod ∧
      (p.linked env' mc').imports = (p.linked env mc).imports := by
  have hmod : (p.moved mc').1 = (p.moved mc).1 := module_loadImage p.mod p.base mc mc'
  unfold Pending.linked
  rw [hmod]
  exact h.layoutSymbolAddr_eq

theorem Pending.env_linked : (p.linked env mc).env =
    env.addAll ((p.moved mc).1.elf.definitionsBelow (p.moved mc).1.elf.size) :=
  (layoutSymbolAddr_linked _ _ _).env_eq

theorem Pending.relinked : Elfio.Relinked p.mod.elf (p.linked env mc).mod.elf :=
  (p.readdressed_moved mc).relinked.trans (relinked_layoutSymbolAddr (p.moved mc).1 env p.junk)

theorem Pending.sameImports {q : Pending} (h : Independent p.mod.elf q.mod.elf) :
    SameImports (q.moved mc).1.elf env (p.linked env mc).env := by
  rw [Pending.env_linked]
  exact (h.readdressed (p.readdressed_moved mc) (q.readdressed_moved mc)).sameImports env

/-- **The environment** after both modules is the same in either order. -/
theorem Pending.env_comm {q : Pending} (h : Independent p.mod.elf q.mod.elf) (mc₁ mc₂ : Machine) :
    (p.linked (q.linked env mc).env mc₂).env = (q.linked (p.linked env mc).env mc₁).env := by
  have hp : (p.moved mc₂).1 = (p.moved mc).1 := module_loadImage p.mod p.base mc mc₂
  have hq : (q.moved mc₁).1 = (q.moved mc).1 := module_loadImage q.mod q.base mc mc₁
  rw [Pending.env_linked, Pending.env_linked, Pending.env_linked, Pending.env_linked, hp, hq]
  exact ((h.readdressed (p.readdressed_moved mc) (q.readdressed_moved mc)).addAll_comm env).symm

end Linked

/-! ### What a load does to the memory -/

section Effect

variable {arch : Arch} {p : Pending} {env : SysEnv} {mc : Machine} {mod : Module}

/-- The memory after `move_module` and the calls for the module `mod`, with their results. -/
def Pending.effect (arch : Arch) (p : Pending) (mod : Module) (m : Mem) :
    List (RelocEntry × ℤ) × Mem :=
  let st := relocAll arch mod.entries ⟨(p.moved ⟨m, fun _ => Prot.readWrite⟩).2.mem, []⟩
  (st.calls, st.mem)

/-- **A load that can be relocated** returns: this is what it leaves. -/
theorem install_eq (h : RelasFit p.mod.elf) : install arch p env mc = some
    ⟨(p.linked env mc).mod, (p.linked env mc).env,
      ⟨(p.effect arch (p.linked env mc).mod mc.mem).2,
        setProt mc.prot p.base (imageLayout p.mod).layout.totalSize.toNat Prot.readWrite⟩,
      (p.linked env mc).imports, (p.effect arch (p.linked env mc).mod mc.mem).1⟩ := by
  have hst := @relocateSymbol_eq arch (p.linked env mc).mod (Pending.relinked.relasFit_iff.mpr h)
    (p.moved mc).2.mem
  unfold install
  dsimp only
  rw [hst]
  rfl

theorem relasFit_of_install {a : Installed} (h : install arch p env mc = some a) :
    RelasFit p.mod.elf := by
  by_contra hfit
  unfold install at h
  dsimp only at h
  rw [relocateSymbol_eq_none (mt Pending.relinked.relasFit_iff.mp hfit)] at h
  cases h

theorem Pending.InBounds.bytes_subset (h : p.InBounds arch) {i : ℕ} (hi : i < p.mod.elf.size)
    (hw : p.mod.elf.Written arch i) : ((p.linked env mc).mod.elf.sec i).bytes ⊆ p.mappings := by
  have hsize : (imageLayout p.mod).elf.size = p.mod.elf.size := size_initSectionAddr p.mod
  obtain ⟨t, ht, -⟩ := @sec_imageAt (imageLayout p.mod) env p.junk mc p.base i (by rwa [hsize])
  have hlinked : (p.linked env mc).mod.elf.sec i = _ := ht
  have hsec : (imageLayout p.mod).elf.sec i = _ := sec_initSectionAddr p.mod hi
  have haddr : (imageLayout p.mod).imageAddress p.base i =
      p.base + (imageLayout p.mod).offset i := by
    rw [Module.imageAddress, hsec]
    exact if_pos hw.1
  rw [hlinked, hsec, haddr]
  exact (range_subset (h.inside hi hw)).trans Set.subset_union_right

/-- A field that lies in the sections of its module lies in sections that are written. -/
theorem Pending.InBounds.field_subset (h : p.InBounds arch) {e : RelocEntry}
    (he : e ∈ (p.linked env mc).mod.entries)
    (hown : e.field arch ⊆ p.sections (p.linked env mc).mod) : e.field arch ⊆ p.mappings := by
  have hr := @Pending.relinked p env mc
  obtain ⟨j, k, r, s, hrela, -, rfl⟩ := mem_entries_iff.mp he
  have hrela' := (hr.relaAt_iff j k r).mp hrela
  have hinfo : ((p.linked env mc).mod.elf.sec j).info = (p.mod.elf.sec j).info := by
    obtain ⟨a, t, ht⟩ := hr.sec j
    rw [ht]
  have hsec : ∀ i, ((p.linked env mc).mod.elf.sec i).alloc = (p.mod.elf.sec i).alloc ∧
      ((p.linked env mc).mod.elf.sec i).size = (p.mod.elf.sec i).size := by
    intro i
    obtain ⟨a, t, ht⟩ := hr.sec i
    rw [ht]
    exact ⟨rfl, rfl⟩
  by_cases hwidth : arch.width r.type = 0
  · have hempty : (Elfio.callAt (p.linked env mc).mod.elf j r s.value).field arch = ∅ := by
      rw [RelocEntry.field, show (Elfio.callAt (p.linked env mc).mod.elf j r s.value).rela = r
        from rfl, hwidth, Nat.zero_div, range_zero]
    rw [hempty]
    exact Set.empty_subset _
  · by_cases hfit : r.offset.toNat + arch.width r.type / 8 ≤
        (p.mod.elf.sec (p.mod.elf.sec j).info.toNat).size.toNat
    · refine Set.Subset.trans ?_ (@Pending.InBounds.bytes_subset arch p env mc h _
        hrela'.2.1.2.1 (hrela'.written_self hwidth hfit))
      unfold RelocEntry.field Elfio.callAt Elfio.place Section.bytes
      rw [hinfo, (hsec _).2]
      exact range_subset hfit
    · intro x hx
      rcases hown hx with hfile | ⟨i, hi, ha, hx⟩
      · exact .inl hfile
      · rw [hr.size] at hi
        rw [(hsec i).1] at ha
        have hsize : (p.mod.elf.sec i).size ≠ 0 := by
          rw [← (hsec i).2]
          rintro hzero
          rw [Section.bytes, hzero] at hx
          exact absurd hx (Nat.not_lt_zero _)
        exact h.bytes_subset hi (hrela'.written_of_beyond hwidth (not_le.mp hfit) ha hsize) hx

/-- **A load touches its mappings and nothing else.** -/
theorem Pending.InBounds.effect_local (h : p.InBounds arch)
    (hown : ∀ e ∈ mod.entries, e.field arch ⊆ p.mappings) :
    LocalTo p.mappings p.mappings (p.effect arch mod) := by
  have hcopies : ∀ i < (imageLayout p.mod).elf.size, (imageLayout p.mod).elf.Copies i →
      i < p.mod.elf.size ∧ p.mod.elf.Copies i := by
    intro i hi hc
    have hi' : i < p.mod.elf.size := (size_initSectionAddr p.mod) ▸ hi
    exact ⟨hi', (copies_initSectionAddr p.mod hi').mp hc⟩
  have hmove := @moveLoop_local (imageLayout p.mod).elf p.base (imageLayout p.mod).secLayout
    (imageLayout p.mod).layout.totalSize.toNat p.mappings Set.subset_union_right ?_ ?_
  · exact hmove.bind (g := fun _ m => ((relocAll arch mod.entries ⟨m, []⟩).calls,
      (relocAll arch mod.entries ⟨m, []⟩).mem)) fun _ => relocAll_local hown
  · intro i hi hc
    obtain ⟨hi', hc'⟩ := hcopies i hi hc
    refine (extent_initSectionAddr p.mod hi' p.base _).subset.trans ?_
    by_cases hzero : (p.mod.elf.sec i).size = 0
    · simp [hzero]
    · refine Set.Subset.trans ?_ Set.subset_union_right
      exact range_subset (h.inside hi' ⟨hc'.1, hzero, .inl hc'⟩)
  · intro i hi hc
    obtain ⟨hi', hc'⟩ := hcopies i hi hc
    rw [show (imageLayout p.mod).elf.sec i = _ from sec_initSectionAddr p.mod hi']
    by_cases hzero : (p.mod.elf.sec i).size = 0
    · simp [hzero]
    · refine Set.Subset.trans ?_ Set.subset_union_left
      exact range_subset (h.file i hi' hc' hzero)

end Effect

/-! ### Two loads -/

/-- Of two modules, `a` and then `b` are left by the one order, and `b'` and then `a'` by the other:
the environment is the same, each module has the same symbols and the same imports, and, when all
relocation fields lie in sections of their modules, the same image and the same calls. -/
structure SameOutcome (arch : Arch) (p q : Pending) (a b b' a' : Installed) : Prop where
  map : ∀ name, a'.env.getSymbol name = b.env.getSymbol name
  entry : a'.env.getEntry = b.env.getEntry
  left : a'.mod = a.mod ∧ a'.imports = a.imports
  right : b'.mod = b.mod ∧ b'.imports = b.imports
  image : p.OwnFields arch a.mod → q.OwnFields arch b.mod →
    a'.mc = b.mc ∧ a'.calls = a.calls ∧ b'.calls = b.calls

/-- **The order of the loads does not matter**: in both orders they return, with the same
outcome. -/
def OrderIrrelevant (arch : Arch) (p q : Pending) (env : SysEnv) (mc : Machine) : Prop :=
  ∃ a b b' a', installBoth arch p q env mc = some (a, b) ∧
    installBoth arch q p env mc = some (b', a') ∧ SameOutcome arch p q a b b' a'

section Two

variable {arch : Arch} {p q : Pending} {env : SysEnv} {mc : Machine}

theorem installBoth_eq_some {a b : Installed} (ha : install arch p env mc = some a)
    (hb : install arch q a.env a.mc = some b) : installBoth arch p q env mc = some (a, b) := by
  unfold installBoth
  rw [ha, Option.bind_some, hb, Option.map_some]

/-- **Two independent modules can be loaded in either order**, if and only if both can be relocated,
when the sections that are written are in bounds and the mappings do not meet. -/
theorem orderIrrelevant_iff (hp : p.InBounds arch) (hq : q.InBounds arch)
    (hind : Independent p.mod.elf q.mod.elf) (hdisj : Disjoint p.mappings q.mappings) :
    OrderIrrelevant arch p q env mc ↔ RelasFit p.mod.elf ∧ RelasFit q.mod.elf := by
  constructor
  · rintro ⟨a, b, b', a', hab, hba, -⟩
    obtain ⟨x, hx, -⟩ := Option.bind_eq_some_iff.mp hab
    obtain ⟨y, hy, -⟩ := Option.bind_eq_some_iff.mp hba
    exact ⟨relasFit_of_install hx, relasFit_of_install hy⟩
  · rintro ⟨hpfit, hqfit⟩
    -- each module is linked as if it were the first one
    have hlp := fun mc' => @Pending.linked_congr p env (q.linked env mc).env mc mc'
      (Pending.sameImports hind.symm)
    have hlq := fun mc' => @Pending.linked_congr q env (p.linked env mc).env mc mc'
      (Pending.sameImports hind)
    refine ⟨_, _, _, _, installBoth_eq_some (install_eq hpfit) (install_eq hqfit),
      installBoth_eq_some (install_eq hqfit) (install_eq hpfit), ?_, ?_, hlp _, ?_, ?_⟩
    · intro name
      exact congrArg (·.getSymbol name) (Pending.env_comm hind _ _)
    · exact congrArg SysEnv.getEntry (Pending.env_comm hind _ _)
    · exact ⟨(hlq _).1.symm, (hlq _).2.symm⟩
    · intro hop hoq
      dsimp only at hop hoq ⊢
      rw [(hlq _).1] at hoq ⊢
      rw [(hlp _).1]
      have hfp := hp.effect_local fun e he => hp.field_subset he (hop e he)
      have hfq := hq.effect_local fun e he => hq.field_subset he (hoq e he)
      obtain ⟨hmem, hcalls⟩ := hfp.comm hfq hdisj mc.mem
      obtain ⟨-, hcalls'⟩ := hfq.comm hfp hdisj.symm mc.mem
      refine ⟨?_, hcalls', hcalls.symm⟩
      rw [hmem, setProt_comm]

end Two

/-! ### Samples -/

/-- An object with 16 bytes of code, a function `name` in it, an import `host`, and an `R_X86_64_64`
against the import. -/
def callerObject (name : String) : Elfio := ⟨[default,
  { (default : Section) with type := 1, flags := 6, offset := 0x40, size := 16, addrAlign := 16 },
  { (default : Section) with
    type := 2
    size := 72
    entrySize := 24
    symbols := sampleTable 3 [⟨name, 4, 0, 1, 2, 1, 0⟩, ⟨"host", 0, 0, 1, 0, 0, 0⟩] },
  { (default : Section) with
    type := 4
    info := 1
    size := 24
    entrySize := 24
    relas := ⟨1, fun i => if i = 0 then some ⟨8, 2, 1, 0⟩ else none⟩ }], by simp⟩

/-- The object in a file of `0x50` bytes mapped at `file`, with its image to be mapped at `base`. -/
def callerPending (name : String) (file base : Addr) : Pending :=
  ⟨{ Module.fresh (callerObject name) with elfAddr := file }, 0x50, base, fun _ => 0, rfl⟩

theorem hasSymbol_callerObject {name : String} {s : Symbol}
    (h : (callerObject name).HasSymbol s) :
    s ∈ [Symbol.null, ⟨name, 4, 0, 1, 2, 1, 0⟩, ⟨"host", 0, 0, 1, 0, 0, 0⟩] := by
  obtain ⟨i, hi, ht, k, hk, hs⟩ := h
  match i, hi with
  | 2, _ =>
    have hk3 : k.toNat < 3 := hk
    have hs' : some (([Symbol.null, ⟨name, 4, 0, 1, 2, 1, 0⟩, ⟨"host", 0, 0, 1, 0, 0, 0⟩] :
        List Symbol).getD k.toNat Symbol.null) = some s := (if_pos hk).symm.trans hs
    rw [← Option.some.inj hs', List.getD_eq_getElem _ _ hk3]
    exact List.getElem_mem hk3
  | 0, _ | 1, _ | 3, _ => simp [callerObject, Elfio.sec, shtSymtab, default] at ht

theorem independent_callerObject {name name' : String} (h : name ≠ name') (hname : name ≠ "host")
    (hname' : name' ≠ "host") : Independent (callerObject name) (callerObject name') := by
  have hdef : ∀ {name n : String}, (callerObject name).Defines n → n = name := by
    rintro name n ⟨s, hs, rfl, -, hv, hb⟩
    have hm := hasSymbol_callerObject hs
    simp only [List.mem_cons, List.not_mem_nil, or_false] at hm
    rcases hm with rfl | rfl | rfl
    · simp [Symbol.null, stbGlobal] at hb
    · rfl
    · simp [Elfio.Valid, shnUndef] at hv
  have himp : ∀ {name n : String}, (callerObject name).Imports n → n = "host" := by
    rintro name n ⟨s, hs, rfl, himp⟩
    have hm := hasSymbol_callerObject hs
    simp only [List.mem_cons, List.not_mem_nil, or_false] at hm
    rcases hm with rfl | rfl | rfl
    · simp [Symbol.null, Symbol.IsImport, stbGlobal] at himp
    · simp [Symbol.IsImport, shnUndef] at himp
    · rfl
  refine ⟨fun n h1 h2 => h ?_, fun n h1 h2 => hname' ?_, fun n h1 h2 => hname ?_⟩
  · rw [← hdef h1, hdef h2]
  · rw [← hdef h2, himp h1]
  · rw [← hdef h2, himp h1]

/-- A caller of the host and another one. -/
theorem orderIrrelevant_callers : OrderIrrelevant .x86_64
    (callerPending "f" 0x100000000000 0x20000) (callerPending "g" 0x200000000000 0x30000)
    (SysEnv.empty.addSymbol "host" 0x1000) ⟨fun _ => 0x55, fun _ => Prot.readWrite⟩ := by
  have hbounds : (callerPending "f" 0x100000000000 0x20000).InBounds .x86_64 ∧
      (callerPending "g" 0x200000000000 0x30000).InBounds .x86_64 :=
    ⟨.of_narrowFits ⟨by decide +kernel, by decide +kernel⟩ (by decide +kernel),
      .of_narrowFits ⟨by decide +kernel, by decide +kernel⟩ (by decide +kernel)⟩
  refine (orderIrrelevant_iff hbounds.1 hbounds.2
    (independent_callerObject (by decide) (by decide) (by decide)) ?_).mpr
      ⟨by decide +kernel, by decide +kernel⟩
  refine Set.disjoint_union_left.mpr ⟨Set.disjoint_union_right.mpr ⟨?_, ?_⟩,
    Set.disjoint_union_right.mpr ⟨?_, ?_⟩⟩
  all_goals exact disjoint_range (by decide +kernel) (by decide +kernel) (by decide +kernel)

/-- 16 bytes of data, and 4 GiB of read-only data that is placed before them with size 0. -/
def widePending : Pending :=
  ⟨{ Module.fresh ⟨[default,
      { (default : Section) with type := 1, flags := 3, offset := 0x40, size := 16 },
      { (default : Section) with type := 1, flags := 2, offset := 0x50, size := 0x100000000 }],
      by simp⟩ with
    elfAddr := 0x100000000000 }, 0x100000050, 0x20000, fun _ => 0, rfl⟩

/-- 4 GiB of zeroed data, in an image behind the one page of the other one. -/
def zeroPending : Pending :=
  ⟨{ Module.fresh ⟨[default,
      { (default : Section) with type := 8, flags := 3, size := 0xfffff000 },
      { (default : Section) with type := 8, flags := 3, size := 0x1000 }],
      by simp⟩ with
    elfAddr := 0x200000000000 }, 0x40, 0x21000, fun _ => 0, rfl⟩

/-- **A section of 4 GiB**: its copy runs over the image of a module that is loaded before, and not
over that of one that is loaded after. -/
theorem wide_section_not_irrelevant :
    Independent widePending.mod.elf zeroPending.mod.elf ∧
    [widePending.file, widePending.image, zeroPending.file, zeroPending.image].Pairwise Disjoint ∧
    RelasFit widePending.mod.elf ∧ RelasFit zeroPending.mod.elf ∧ zeroPending.InBounds .x86_64 ∧
    ¬ OrderIrrelevant .x86_64 widePending zeroPending SysEnv.empty
      ⟨fun _ => 0x55, fun _ => Prot.readWrite⟩ := by
  have hsym : ∀ s, ¬ widePending.mod.elf.HasSymbol s := by
    rintro s ⟨i, hi, ht, -⟩
    match i, hi with
    | 0, _ | 1, _ | 2, _ => exact absurd ht (by decide)
  refine ⟨?_, ?_, by decide +kernel, by decide +kernel, ?_, ?_⟩
  · exact ⟨fun _ ⟨s, hs, _⟩ => absurd hs (hsym s), fun _ ⟨s, hs, _⟩ => absurd hs (hsym s),
      fun _ _ ⟨s, hs, _⟩ => hsym s hs⟩
  · simp only [List.pairwise_cons, List.mem_cons, List.not_mem_nil, or_false, forall_eq_or_imp,
      forall_eq, List.Pairwise.nil, and_true, IsEmpty.forall_iff, implies_true]
    refine ⟨⟨?_, ?_, ?_⟩, ⟨?_, ?_⟩, ?_⟩
    all_goals exact disjoint_range (by decide +kernel) (by decide +kernel) (by decide +kernel)
  · exact .of_narrowFits ⟨by decide +kernel, by decide +kernel⟩ (by decide +kernel)
  · rintro ⟨a, b, b', a', hab, hba, h⟩
    have h0 : (installBoth .x86_64 widePending zeroPending SysEnv.empty
        ⟨fun _ => 0x55, fun _ => Prot.readWrite⟩).map (fun r => (r.1.mod.entries, r.2.mod.entries,
          r.2.mc.mem 0x21000)) = some ([], [], 0) := by decide +kernel
    have h1 : (installBoth .x86_64 zeroPending widePending SysEnv.empty
        ⟨fun _ => 0x55, fun _ => Prot.readWrite⟩).map (fun r => r.2.mc.mem 0x21000) =
          some 0x55 := by decide +kernel
    rw [hab, Option.map_some, Option.some.injEq, Prod.mk.injEq, Prod.mk.injEq] at h0
    rw [hba, Option.map_some, Option.some.injEq] at h1
    obtain ⟨ha, hb, hbyte⟩ := h0
    dsimp only at ha hb hbyte h1
    -- there are no relocation fields
    have hp : widePending.OwnFields .x86_64 a.mod := by
      intro e he
      rw [ha] at he
      cases he
    have hq : zeroPending.OwnFields .x86_64 b.mod := by
      intro e he
      rw [hb] at he
      cases he
    have hmc := (h.image hp hq).1
    rw [hmc, hbyte] at h1
    exact absurd h1 (by decide)

end Umko

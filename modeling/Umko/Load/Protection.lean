import Umko.Load.Halting
import Umko.Load.Base
import Umko.Image.Protect

/-!
# The protection of the modules of a run

A load sets the protection of the pages of two mappings, of the file and of the image, and of no
other page. So what `mod_protect` has made of the image of a module lasts: as long as `mmap` gives
no page of it again, its code and read-only data can be executed and not written, and its data can
be written and not executed, whatever is loaded later. And no page can ever be both written and
executed, in whatever way the loads fail.
-/

namespace Umko

open Lib.Memory Lib.Bump

/-! ### Pages -/

/-- No page can be both written and executed. -/
def WriteXorExec (pt : PageTable) : Prop := ∀ q, (pt q).write = false ∨ (pt q).exec = false

theorem WriteXorExec.setProt {pt : PageTable} (h : WriteXorExec pt) (a : Addr) (len : ℕ) {p : Prot}
    (hp : p.write = false ∨ p.exec = false) : WriteXorExec (setProt pt a len p) := by
  intro q
  unfold Lib.Memory.setProt
  split
  · exact hp
  · exact h q

theorem setProt_of_notMem {pt : PageTable} {a q : Addr} {len : ℕ} {p : Prot}
    (h : q ∉ range a len) : setProt pt a len p q = pt q := if_neg h

/-! ### One load -/

section Load

variable (mod : Module) (w : World)

def World.filePages : Set Addr :=
  {q | w.openOk = true ∧ ∃ size p, w.fileSize = some size ∧ w.fileAddr = some p ∧
    q ∈ range p size.toNat}

/-- The pages of the image of the object that is loaded. -/
def imagePages : Set Addr :=
  {q | ∃ base, w.image = some base ∧ q ∈ range base (total 0 ((mod.object w).reqs 5))}

/-- A load of a new module, of an object whose layout fits, into an image at a page; `mprotect`
fails for an image that is not mapped. -/
structure PagedLoad : Prop where
  layout_zero : mod.layout = Layout.zero
  fits : LayoutFits (mod.object w)
  paged : ∀ base, w.image = some base → 4096 ∣ base.toNat
  unmapped : w.image = none → w.protectOk = false

variable {mod w} {arch : Arch} {env : SysEnv} {mc : Machine}

/-- The module before it is moved to its image. -/
def placedModule (mod : Module) (w : World) (mc : Machine) : Module :=
  layoutSections (initSectionAddr (loadRelocElf mod w mc).2.1)

theorem prot_loadRelocElf {q : Addr} (hq : q ∉ w.filePages) :
    (loadRelocElf mod w mc).2.2.prot q = mc.prot q := by
  unfold loadRelocElf
  cases hopen : w.openOk with
  | false => rfl
  | true =>
    cases hsize : w.fileSize with
    | none => rfl
    | some size =>
      cases haddr : w.fileAddr with
      | none => rfl
      | some p =>
        have hout : q ∉ range p size.toNat := fun hin => hq ⟨hopen, size, p, hsize, haddr, hin⟩
        cases hp : w.parsed.1 <;> simp [setProt_of_notMem hout]

theorem layout_loadRelocElf : (loadRelocElf mod w mc).2.1.layout = mod.layout := by
  unfold loadRelocElf
  repeat' split
  all_goals rfl

theorem PagedLoad.placed (h : PagedLoad mod w) (mc : Machine) :
    (initSectionAddr (loadRelocElf mod w mc).2.1).layout = Layout.zero ∧
    LayoutFits (initSectionAddr (loadRelocElf mod w mc).2.1).elf ∧
    ∀ m, (initSectionAddr (loadRelocElf mod w mc).2.1).elf.reqs m = (mod.object w).reqs m := by
  have helf : (loadRelocElf mod w mc).2.1.elf = mod.object w := elf_loadRelocElf
  refine ⟨layout_loadRelocElf.trans h.layout_zero, ?_, fun m => ?_⟩
  · rw [layoutFits_initSectionAddr, helf]
    exact h.fits
  · rw [reqs_initSectionAddr, helf]

theorem PagedLoad.layout_eq (h : PagedLoad mod w) (mc : Machine) :
    (placedModule mod w mc).layout.roAfterInitSize.toNat = total 0 ((mod.object w).reqs 3) ∧
    (placedModule mod w mc).layout.totalSize.toNat = total 0 ((mod.object w).reqs 5) := by
  obtain ⟨hzero, hfit, hreqs⟩ := h.placed mc
  rw [← hreqs, ← hreqs]
  exact ⟨(bounds_eq_total hzero hfit).2.2, totalSize_layoutSections hzero hfit⟩

theorem PagedLoad.page_bounds (h : PagedLoad mod w) (mc : Machine) {base : Addr}
    (hbase : 4096 ∣ base.toNat) {i : ℕ} (hi : i < (mod.object w).size) {x : Addr}
    (hx : x ∈ range (base + (placedModule mod w mc).offset i)
      ((mod.object w).sec i).size.toNat) :
    (((mod.object w).sec i).guarded = true →
      (pageOf x - base).toNat < total 0 ((mod.object w).reqs 3)) ∧
    (((mod.object w).sec i).unguarded = true →
      ¬ (pageOf x - base).toNat < total 0 ((mod.object w).reqs 3)) ∧
    (((mod.object w).sec i).alloc = true →
      (pageOf x - base).toNat < total 0 ((mod.object w).reqs 5)) := by
  obtain ⟨hzero, hfit, hreqs⟩ := h.placed mc
  have helf : (loadRelocElf mod w mc).2.1.elf = mod.object w := elf_loadRelocElf
  have hi' : i < (initSectionAddr (loadRelocElf mod w mc).2.1).elf.size := by
    rw [size_initSectionAddr, helf]
    exact hi
  have hsec : (initSectionAddr (loadRelocElf mod w mc).2.1).elf.sec i = _ :=
    sec_initSectionAddr _ (by rwa [size_initSectionAddr] at hi')
  have hx' : x ∈ range
      (base + (layoutSections (initSectionAddr (loadRelocElf mod w mc).2.1)).offset i)
      ((initSectionAddr (loadRelocElf mod w mc).2.1).elf.sec i).size.toNat := by
    rw [hsec, helf]
    exact hx
  rw [← hreqs, ← hreqs]
  refine ⟨fun hg => ?_, fun hu => ?_, fun ha => ?_⟩
  · exact guarded_page hzero hfit hbase hi' (by rw [hsec, helf]; exact hg) hx'
  · exact (unguarded_page hzero hfit hbase hi' (by rw [hsec, helf]; exact hu) hx').1
  · have ha' : ((initSectionAddr (loadRelocElf mod w mc).2.1).elf.sec i).alloc = true := by
      rw [hsec, helf]
      exact ha
    have hb := byte_bounds hzero hfit hi' ha' hx'
    have hin := (offset_inside hzero hfit hi' ha').1
    rw [totalSize_layoutSections hzero hfit] at hin
    exact pageOf_sub_lt_of_lt hbase (by omega)

theorem prot_prepare : (prepare mod w mc).2.prot = match w.image with
    | none => (loadRelocElf mod w mc).2.2.prot
    | some base => setProt (loadRelocElf mod w mc).2.2.prot base
        (placedModule mod w mc).layout.totalSize.toNat Prot.readWrite := by
  unfold prepare
  cases w.image <;> rfl

theorem layout_link : (link mod env w mc).mod.layout = match w.image with
    | none => (placedModule mod w mc).layout
    | some base => { (placedModule mod w mc).layout with base := base } := by
  refine (layoutSymbolAddr_linked (prepare mod w mc).1 env w.junk).layout.trans ?_
  unfold prepare
  cases w.image <;> rfl

/-- **The protection that a load leaves**: that of the mappings, but for `mprotect`, if the load
comes to it and it succeeds. -/
theorem prot_loadModule : (loadModule arch mod env w mc).mc.prot =
    if RelasFit (mod.object w) ∧ w.protectOk = true then
      setProt (prepare mod w mc).2.prot (link mod env w mc).mod.layout.base
        (link mod env w mc).mod.layout.roAfterInitSize.toNat Prot.readExec
    else (prepare mod w mc).2.prot := by
  have hfit : RelasFit (link mod env w mc).mod.elf ↔ RelasFit (mod.object w) :=
    relinked_link.relasFit_iff
  unfold loadModule
  dsimp only
  by_cases h : RelasFit (mod.object w)
  · have hprotect : ∀ mem, (modProtect (link mod env w mc).mod w.protectOk
        ⟨mem, (prepare mod w mc).2.prot⟩).2.prot =
          if RelasFit (mod.object w) ∧ w.protectOk = true then
            setProt (prepare mod w mc).2.prot (link mod env w mc).mod.layout.base
              (link mod env w mc).mod.layout.roAfterInitSize.toNat Prot.readExec
          else (prepare mod w mc).2.prot := by
      intro mem
      unfold modProtect
      cases w.protectOk <;> simp [h]
    rw [relocateSymbol_eq (hfit.mpr h)]
    dsimp only
    split <;> exact hprotect _
  · rw [relocateSymbol_eq_none (mt hfit.mp h), if_neg fun h' => h h'.1]

/-- **A load leaves other pages alone.** -/
theorem PagedLoad.prot_frame (h : PagedLoad mod w) {q : Addr} (hfile : q ∉ w.filePages)
    (himage : q ∉ imagePages mod w) : (loadModule arch mod env w mc).mc.prot q = mc.prot q := by
  obtain ⟨hro, htotal⟩ := h.layout_eq mc
  have hmono := total_reqs_mono (mod.object w) (show 3 ≤ 5 by omega)
  have hfileq := @prot_loadRelocElf mod w mc q hfile
  rw [prot_loadModule]
  cases hw : w.image with
  | none =>
    rw [if_neg (by simp [h.unmapped hw]), prot_prepare, hw]
    exact hfileq
  | some base =>
    have hout : q ∉ range base (total 0 ((mod.object w).reqs 5)) := fun hin =>
      himage ⟨base, hw, hin⟩
    have hprep : (prepare mod w mc).2.prot q = mc.prot q := by
      rw [prot_prepare, hw]
      dsimp only
      rw [htotal, setProt_of_notMem hout, hfileq]
    split
    · rw [layout_link, hw]
      dsimp only
      rw [hro, setProt_of_notMem (fun hin => hout (range_mono hmono hin)), hprep]
    · exact hprep

theorem size_placedModule : (placedModule mod w mc).elf.size = (mod.object w).size :=
  (size_initSectionAddr _).trans (congrArg Elfio.size elf_loadRelocElf)

theorem sec_placedModule {i : ℕ} (hi : i < (mod.object w).size) :
    (placedModule mod w mc).elf.sec i = { (mod.object w).sec i with
      address := (loadRelocElf mod w mc).2.1.elfAddr + ((mod.object w).sec i).offset } := by
  have helf : (loadRelocElf mod w mc).2.1.elf = mod.object w := elf_loadRelocElf
  rw [← helf] at hi ⊢
  exact sec_initSectionAddr _ hi

theorem sec_prepare_image {base : Addr} (hw : w.image = some base) {i : ℕ}
    (hi : i < (mod.object w).size) (ha : ((mod.object w).sec i).alloc = true) :
    (prepare mod w mc).1.elf.sec i = { (mod.object w).sec i with
      address := base + (placedModule mod w mc).offset i } := by
  have hplaced := @sec_placedModule mod w mc i hi
  have hmove : (prepare mod w mc).1.elf.sec i = { (placedModule mod w mc).elf.sec i with
      address := (placedModule mod w mc).imageAddress base i } := by
    unfold prepare
    rw [hw]
    exact sec_moveModule (size_placedModule.symm ▸ hi)
  have haddr : (placedModule mod w mc).imageAddress base i =
      base + (placedModule mod w mc).offset i := by
    unfold Module.imageAddress
    rw [hplaced]
    exact if_pos ha
  rw [hmove, haddr, hplaced]

theorem sec_link_image {base : Addr} (hw : w.image = some base) {i : ℕ}
    (hi : i < (mod.object w).size) (ha : ((mod.object w).sec i).alloc = true) :
    ∃ t, (link mod env w mc).mod.elf.sec i = { (mod.object w).sec i with
      address := base + (placedModule mod w mc).offset i, symbols := t } := by
  obtain ⟨t, ht, -⟩ := @sec_link mod env w mc i
  exact ⟨t, by rw [ht, sec_prepare_image hw hi ha]⟩

theorem PagedLoad.prot_section (h : PagedLoad mod w) (hfit : RelasFit (mod.object w))
    {base : Addr} (hw : w.image = some base) (hok : w.protectOk = true) {i : ℕ}
    (hi : i < (mod.object w).size) (ha : ((mod.object w).sec i).alloc = true) {x : Addr}
    (hx : x ∈ ((loadModule arch mod env w mc).mod.elf.sec i).bytes) :
    pageOf x ∈ imagePages mod w ∧
    (((mod.object w).sec i).guarded = true →
      (loadModule arch mod env w mc).mc.prot (pageOf x) = Prot.readExec) ∧
    (((mod.object w).sec i).unguarded = true →
      (loadModule arch mod env w mc).mc.prot (pageOf x) = Prot.readWrite) := by
  obtain ⟨hro, htotal⟩ := h.layout_eq mc
  have hprot : ∀ q, (loadModule arch mod env w mc).mc.prot q =
      if (q - base).toNat < total 0 ((mod.object w).reqs 3) then Prot.readExec
      else if (q - base).toNat < total 0 ((mod.object w).reqs 5) then Prot.readWrite
      else (loadRelocElf mod w mc).2.2.prot q := by
    intro q
    rw [prot_loadModule, if_pos ⟨hfit, hok⟩, layout_link, prot_prepare, hw]
    dsimp only
    rw [hro, htotal]
    rfl
  -- the bytes of the section are those of its extent in the image
  obtain ⟨t, ht⟩ := @sec_link_image mod w env mc base hw i hi ha
  rw [link_loadModule.1, ht] at hx
  obtain ⟨hg, hu, hin⟩ := h.page_bounds mc (h.paged base hw) hi hx
  refine ⟨⟨base, hw, hin ha⟩, fun hs => ?_, fun hs => ?_⟩
  · rw [hprot, if_pos (hg hs)]
  · rw [hprot, if_neg (hu hs), if_pos (hin ha)]

end Load

/-! ### Runs -/

def Action.image : Action → Set Addr
  | .registerFunc .. => ∅
  | .loadModule mod w => imagePages mod w

/-- The pages of both mappings that it makes. -/
def Action.pages : Action → Set Addr
  | .registerFunc .. => ∅
  | .loadModule mod w => w.filePages ∪ imagePages mod w

def Action.Paged : Action → Prop
  | .registerFunc .. => True
  | .loadModule mod w => PagedLoad mod w

/-- The images of a run are at pages that `mmap` does not give again. -/
structure PagesKept (as : List Action) : Prop where
  paged : ∀ a ∈ as, a.Paged
  apart : as.Pairwise fun a b => Disjoint a.image b.pages

section Run

variable {arch : Arch} {st : RunState} {as : List Action} {q : Addr}

theorem prot_runStep_frame {a : Action} (ha : a.Paged) (hq : q ∉ a.pages) :
    (runStep arch st a).mc.prot q = st.mc.prot q := by
  unfold runStep
  cases st.halted with
  | true => rfl
  | false =>
    cases a with
    | registerFunc name addr => rfl
    | loadModule mod w =>
      have hload : PagedLoad mod w := ha
      exact hload.prot_frame (fun hin => hq (.inl hin)) fun hin => hq (.inr hin)

end Run

end Umko

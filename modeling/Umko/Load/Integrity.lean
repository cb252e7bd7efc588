import Umko.Load.Linked

/-!
# The code of a module, to the end of the run

A load writes its two mappings and nothing else, and the code that it calls can write only where the
pages allow it. So the code and the read-only data of a module that has been protected are, at the
end of the run, what the linker has made of them: the bytes of the file, with every field relocated
by the address that its symbol has at the end.
-/

namespace Umko

open Lib.Memory Lib.Bump Lib.Local Lib.Loop

/-! ### What one load writes -/

/-- Code that writes to no page that cannot be written; on the others it may do anything. -/
def Obeys (code : Addr → Mem → Mem) (pt : PageTable) : Prop :=
  ∀ fn m x, (pt (pageOf x)).write = false → code fn m x = m x

section Load

variable {arch : Arch} {mod : Module} {env : SysEnv} {w : World} {mc : Machine} {x : Addr}

theorem mem_loadRelocElf (hx : x ∉ w.filePages) :
    (loadRelocElf mod w mc).2.2.mem x = mc.mem x := by
  unfold loadRelocElf
  cases hopen : w.openOk with
  | false => rfl
  | true =>
    cases hsize : w.fileSize with
    | none => rfl
    | some size =>
      cases haddr : w.fileAddr with
      | none => rfl
      | some p =>
        have hout : x ∉ range p size.toNat := fun hin => hx ⟨hopen, size, p, hsize, haddr, hin⟩
        cases hp : w.parsed.1 <;> simp [writeBytes_of_notMem hout]

theorem mem_moveLoop {elf : Elfio} {base : Addr} {vsec : List SectionLayout} {m : Mem}
    (hx : ∀ i < elf.size, elf.Copies i → x ∉ extent elf base vsec i) :
    ((List.range elf.size).foldl (moveStep base vsec) (m, elf)).1 x = m x := by
  have h0 : Moved elf base vsec 0 elf := ⟨rfl, fun j => by simp⟩
  refine (foldl_range_inv (f := moveStep base vsec) (s := (m, elf))
    (fun n st => Moved elf base vsec n st.2 ∧ st.1 x = m x) elf.size ⟨h0, rfl⟩ ?_).2
  · rintro i hi st ⟨hmoved, hst⟩
    refine ⟨moveStep_moved hi hmoved, ?_⟩
    unfold moveStep
    simp only [hmoved.sec_self, alloc_eq_false_iff]
    cases ha : (elf.sec i).alloc with
    | false => exact hst
    | true =>
      by_cases ht : (elf.sec i).type = shtNobits
      · simpa [ht] using hst
      · simp only [ht, ne_eq, not_false_eq_true, if_true, if_false, Bool.true_eq_false]
        exact (memcpy_of_notMem (hx i hi ⟨ha, ht⟩)).trans hst

theorem PagedLoad.extent_subset (h : PagedLoad mod w) (mc : Machine) {base : Addr}
    (hw : w.image = some base) {i : ℕ} (hi : i < (mod.object w).size)
    (ha : ((mod.object w).sec i).alloc = true) :
    range (base + (placedModule mod w mc).offset i) ((mod.object w).sec i).size.toNat ⊆
      imagePages mod w := by
  obtain ⟨hzero, hfit, -⟩ := h.placed mc
  have hi' : i < (initSectionAddr (loadRelocElf mod w mc).2.1).elf.size := by
    rw [size_initSectionAddr, elf_loadRelocElf]
    exact hi
  have hsec : (initSectionAddr (loadRelocElf mod w mc).2.1).elf.sec i = _ := sec_placedModule hi
  have hin := (offset_inside hzero hfit hi' (by rwa [hsec])).1
  rw [hsec, show (layoutSections (initSectionAddr (loadRelocElf mod w mc).2.1)).layout.totalSize.toNat
    = _ from (h.layout_eq mc).2] at hin
  exact fun y hy => ⟨base, hw, range_subset hin hy⟩

/-- **The stages up to the image** write the two mappings. -/
theorem PagedLoad.mem_prepare (h : PagedLoad mod w) (hfile : x ∉ w.filePages)
    (himage : x ∉ imagePages mod w) : (prepare mod w mc).2.mem x = mc.mem x := by
  have hload := @mem_loadRelocElf mod w mc x hfile
  cases hw : w.image with
  | none =>
    unfold prepare
    rw [hw]
    exact hload
  | some base =>
    have hloop : (prepare mod w mc).2.mem = ((List.range (placedModule mod w mc).elf.size).foldl
        (moveStep base (placedModule mod w mc).secLayout)
        (memset (loadRelocElf mod w mc).2.2.mem base 0
          (placedModule mod w mc).layout.totalSize.toNat, (placedModule mod w mc).elf)).1 := by
      unfold prepare
      rw [hw]
      rfl
    rw [hloop, mem_moveLoop, memset_of_notMem, hload]
    · rw [(h.layout_eq mc).2]
      exact fun hx => himage ⟨base, hw, hx⟩
    · intro i hi hc hx
      rw [size_placedModule] at hi
      have hsec := @sec_placedModule mod w mc i hi
      have ha : ((mod.object w).sec i).alloc = true := by
        have ha' := hc.1
        rwa [hsec] at ha'
      refine himage (h.extent_subset mc hw hi ha ?_)
      rw [extent, hsec] at hx
      exact hx

/-- A load that relocates its own sections only, and none without an image. -/
structure ContainedLoad (arch : Arch) (mod : Module) (w : World) : Prop extends
    PagedLoad mod w where
  confined : Confined arch mod w
  imageless : w.image = none → ∀ i < (mod.object w).size, ¬ (mod.object w).Relocates i

/-- **The pass** writes the image. -/
theorem ContainedLoad.mem_relocateSymbol (h : ContainedLoad arch mod w) {rel : RelocState}
    (hrel : relocateSymbol arch (link mod env w mc).mod (prepare mod w mc).2.mem = some rel)
    (himage : x ∉ imagePages mod w) : rel.mem x = (prepare mod w mc).2.mem x := by
  have hr := @relinked_link mod env w mc
  refine (isolatedPass_of_offsetsFit h.confined.offsetsFit rel
    (passState_of_relocateSymbol hrel)).frame x fun i hi hreloc hx => ?_
  rw [hr.size] at hi
  rw [hr.relocates_iff] at hreloc
  obtain ⟨hrela, hlt, ha⟩ := hreloc
  cases hw : w.image with
  | none => exact h.imageless hw i hi ⟨hrela, hlt, ha⟩
  | some base =>
    obtain ⟨a, t, ht⟩ := hr.sec i
    obtain ⟨t', ht'⟩ := @sec_link_image mod w env mc base hw _ hlt ha
    unfold Elfio.fixedBytes at hx
    rw [ht] at hx
    dsimp only at hx
    rw [ht'] at hx
    exact himage (h.extent_subset mc hw hlt ha hx)

/-- **The code of a module** leaves pages that cannot be written alone, also when its initialisation
is cut short. -/
theorem mem_modInitAndConstruct {code : Addr → Mem → Mem} {pt : PageTable} (hcode : Obeys code pt)
    (hx : (pt (pageOf x)).write = false) (mod : Module) (m : Mem) :
    (lastState (modInitAndConstruct mod code m)).mem x = m x := by
  have hcall : ∀ (st : InitState) c, (st.call code c).mem x = st.mem x := fun st c =>
    hcode c.fn st.mem x hx
  have hstep : ∀ (st : InitState) i, st.mem x = m x →
      (lastState (initStep code mod.elf st i)).mem x = m x := by
    intro st i hst
    unfold initStep
    dsimp only
    split
    · split
      · exact hst
      · exact foldl_range_inv (fun _ (s : InitState) => s.mem x = m x) _ hst
          fun _ _ s hs => (hcall s _).trans hs
    · exact hst
  have hloop := foldlM_lastState_inv (fun s : InitState => s.mem x = m x) hstep
    (List.range mod.elf.size) (s := ⟨m, []⟩) rfl
  unfold modInitAndConstruct
  cases hl : (List.range mod.elf.size).foldlM (initStep code mod.elf) (⟨m, []⟩ : InitState) with
  | error s =>
    rw [hl] at hloop
    exact hloop
  | ok s =>
    rw [hl] at hloop
    dsimp only [lastState]
    split
    · exact (hcall s _).trans hloop
    · exact hloop

theorem mc_loadModule {rel : RelocState}
    (hrel : relocateSymbol arch (link mod env w mc).mod (prepare mod w mc).2.mem = some rel) :
    (loadModule arch mod env w mc).mc = ⟨(lastState (modInitAndConstruct (link mod env w mc).mod
        w.code rel.mem)).mem, (modProtect (link mod env w mc).mod w.protectOk
          ⟨rel.mem, (prepare mod w mc).2.prot⟩).2.prot⟩ := by
  have hprotect : (modProtect (link mod env w mc).mod w.protectOk
      ⟨rel.mem, (prepare mod w mc).2.prot⟩).2.mem = rel.mem := by
    cases w.protectOk <;> rfl
  unfold loadModule
  dsimp only
  rw [hrel]
  dsimp only
  rw [hprotect]
  cases modInitAndConstruct (link mod env w mc).mod w.code rel.mem <;> rfl

/-- What a load whose pass ends leaves on a page that cannot be written: what the pass has left. -/
theorem mem_loadModule_of_pass (hcode : Obeys w.code (loadModule arch mod env w mc).mc.prot)
    (hx : ((loadModule arch mod env w mc).mc.prot (pageOf x)).write = false) {rel : RelocState}
    (hrel : relocateSymbol arch (link mod env w mc).mod (prepare mod w mc).2.mem = some rel) :
    (loadModule arch mod env w mc).mc.mem x = rel.mem x := by
  refine (congrArg (fun mc => mc.mem x) (mc_loadModule hrel)).trans ?_
  exact mem_modInitAndConstruct hcode hx _ _

/-- **A load leaves alone** what is outside its mappings, on pages that cannot be written. -/
theorem ContainedLoad.mem_frame (h : ContainedLoad arch mod w)
    (hcode : Obeys w.code (loadModule arch mod env w mc).mc.prot)
    (hx : ((loadModule arch mod env w mc).mc.prot (pageOf x)).write = false)
    (hfile : x ∉ w.filePages) (himage : x ∉ imagePages mod w) :
    (loadModule arch mod env w mc).mc.mem x = mc.mem x := by
  have hprepare := @PagedLoad.mem_prepare mod w mc x h.toPagedLoad hfile himage
  cases hrel : relocateSymbol arch (link mod env w mc).mod (prepare mod w mc).2.mem with
  | none =>
    have hmc : (loadModule arch mod env w mc).mc = (prepare mod w mc).2 := by
      unfold loadModule
      dsimp only
      rw [hrel]
    rw [hmc]
    exact hprepare
  | some rel =>
    rw [mem_loadModule_of_pass hcode hx hrel, h.mem_relocateSymbol hrel himage, hprepare]

end Load

/-! ### Runs -/

/-- The code that an action calls in a state obeys the protection that holds then. -/
def Action.Obeys (arch : Arch) (st : RunState) : Action → Prop
  | .registerFunc .. => True
  | .loadModule mod w => Umko.Obeys w.code (st.load arch mod w).mc.prot

def Action.Contained (arch : Arch) : Action → Prop
  | .registerFunc .. => True
  | .loadModule mod w => ContainedLoad arch mod w

/-- The processor and the offsets keep the code of a run in its bounds. -/
structure BoundedRun (arch : Arch) (st : RunState) (as : List Action) : Prop where
  contained : ∀ a ∈ as, a.Contained arch
  obeys : ∀ before a, before ++ [a] <+: as → a.Obeys arch (run arch st before)

section Run

variable {arch : Arch} {st : RunState} {as : List Action} {x : Addr}

theorem BoundedRun.tail {a : Action} (h : BoundedRun arch st (a :: as)) :
    BoundedRun arch (runStep arch st a) as where
  contained b hb := h.contained b (.tail _ hb)
  obeys before b hb := h.obeys (a :: before) b ((List.cons_prefix_cons).mpr ⟨rfl, hb⟩)

theorem BoundedRun.head {a : Action} (h : BoundedRun arch st (a :: as)) :
    a.Contained arch ∧ a.Obeys arch st :=
  ⟨h.contained a (.head _), h.obeys [] a ⟨as, rfl⟩⟩

theorem Action.Contained.paged {a : Action} (h : a.Contained arch) : a.Paged := by
  cases a with
  | registerFunc name addr => trivial
  | loadModule mod w => exact ContainedLoad.toPagedLoad h

/-- **An action leaves alone** what it does not map, on pages that cannot be written. -/
theorem mem_runStep_frame {a : Action} (ha : a.Contained arch) (hcode : a.Obeys arch st)
    (hx : x ∉ a.pages) (hpage : pageOf x ∉ a.pages) (hprot : (st.mc.prot (pageOf x)).write = false) :
    (runStep arch st a).mc.mem x = st.mc.mem x := by
  have hkeep := @prot_runStep_frame arch st _ a ha.paged hpage
  unfold runStep at hkeep ⊢
  cases hst : st.halted with
  | true => rfl
  | false =>
    cases a with
    | registerFunc name addr => rfl
    | loadModule mod w =>
      rw [hst] at hkeep
      have hload : ContainedLoad arch mod w := ha
      refine hload.mem_frame hcode ?_ (fun hin => hx (.inl hin)) fun hin => hx (.inr hin)
      rw [show (loadModule arch mod st.env w st.mc).mc.prot (pageOf x) = _ from hkeep]
      exact hprot

/-- **Bytes that no action maps again**, on pages that cannot be written, stay to the end. -/
theorem mem_run_frame (h : BoundedRun arch st as) (hx : ∀ a ∈ as, x ∉ a.pages)
    (hpage : ∀ a ∈ as, pageOf x ∉ a.pages) (hprot : (st.mc.prot (pageOf x)).write = false) :
    (run arch st as).mc.mem x = st.mc.mem x := by
  induction as generalizing st with
  | nil => rfl
  | cons a as ih =>
    obtain ⟨ha, hcode⟩ := h.head
    obtain ⟨hx1, hxs⟩ := List.forall_mem_cons.mp hx
    obtain ⟨hp1, hps⟩ := List.forall_mem_cons.mp hpage
    refine (ih h.tail hxs hps ?_).trans (mem_runStep_frame ha hcode hx1 hp1 hprot)
    rw [prot_runStep_frame ha.paged hp1]
    exact hprot

section Guarded

variable {before : List Action} {mod : Module} {w : World} {rel : RelocState}

/-- **The guarded sections of a module** hold at the end of a run what the relocation has left. -/
theorem mem_run_guarded (h : BoundedRun arch st as) (hkept : PagesKept as)
    (hload : before ++ [.loadModule mod w] <+: as) (hlive : (run arch st before).halted = false)
    (himage : w.image.isSome) (hok : w.protectOk = true) (hfit : RelasFit (mod.object w))
    (hrel : relocateSymbol arch (link mod (run arch st before).env w (run arch st before).mc).mod
      (prepare mod w (run arch st before).mc).2.mem = some rel) {i : ℕ}
    (hi : i < (mod.object w).size) (hg : ((mod.object w).sec i).guarded = true)
    (hx : x ∈ (((run arch st before).linked mod w).sec i).bytes) :
    (run arch st as).mc.mem x = rel.mem x := by
  obtain ⟨after, rfl⟩ := hload
  obtain ⟨base, hw⟩ := Option.isSome_iff_exists.mp himage
  have hpaged : PagedLoad mod w := hkept.paged (.loadModule mod w) (by simp)
  have hapart : ∀ a ∈ after, Disjoint (imagePages mod w) a.pages := by
    have hp := hkept.apart
    rw [List.append_assoc, List.pairwise_append] at hp
    exact (List.pairwise_cons.mp hp.2.1).1
  have ha := (guarded_passOf hg).1
  -- the page of the byte is protected by the load, and is in the image, as the byte is
  have hbytes : x ∈ ((loadModule arch mod (run arch st before).env w
      (run arch st before).mc).mod.elf.sec i).bytes := by
    rw [link_loadModule.1, bytes_link]
    exact hx
  obtain ⟨hpage, hexec, -⟩ := hpaged.prot_section hfit hw hok hi ha hbytes
  have himg : x ∈ imagePages mod w := by
    refine hpaged.extent_subset (run arch st before).mc hw hi ha ?_
    rw [RunState.linked, sec_prepare_image hw hi ha] at hx
    exact hx
  have hobeys : Obeys w.code ((run arch st before).load arch mod w).mc.prot :=
    h.obeys before (.loadModule mod w) (List.prefix_append _ _)
  have hafter : ∀ (bs cs : List Action) (st : RunState), BoundedRun arch st (bs ++ cs) →
      BoundedRun arch (run arch st bs) cs := by
    intro bs
    induction bs with
    | nil => exact fun _ _ h => h
    | cons b bs ih => exact fun cs st h => ih cs _ h.tail
  have hrun : run arch st (before ++ [.loadModule mod w]) = ⟨((run arch st before).load arch mod w).env,
      ((run arch st before).load arch mod w).mc,
      (run arch st before).loads ++ [(run arch st before).load arch mod w],
      ((run arch st before).load arch mod w).ret.isNone⟩ := by
    rw [run_append]
    show runStep arch (run arch st before) (.loadModule mod w) = _
    unfold runStep
    rw [hlive]
    rfl
  have hwrite : (((run arch st before).load arch mod w).mc.prot (pageOf x)).write = false :=
    congrArg Prot.write (hexec hg)
  rw [run_append, mem_run_frame (hafter _ _ _ h)
    (fun a hmem hin => Set.disjoint_left.mp (hapart a hmem) himg hin)
    (fun a hmem hin => Set.disjoint_left.mp (hapart a hmem) hpage hin) (by rw [hrun]; exact hwrite),
    hrun]
  exact mem_loadModule_of_pass hobeys hwrite hrel

end Guarded

theorem LinkedImage.congr {elf : Elfio} {file : ℕ → Byte} {env : SysEnv} {symtab : ℕ}
    {P Q : ℕ → Prop} {m m' : Mem} (h : LinkedImage arch elf file env symtab P m)
    (hfields : FieldsFit arch elf) (hQ : ∀ i, Q i → P i)
    (hm : ∀ i < elf.size, Q i → Set.EqOn m' m (elf.sec i).bytes) :
    LinkedImage arch elf file env symtab Q m' where
  plain i hi hq k hk hout := by
    have hlt := (elf.sec i).size.isLt
    rw [hm i hi hq ((add_ofNat_mem_range (by omega)).mpr hk)]
    exact h.plain i hi (hQ i hq) k hk hout
  field j r S hn hq raw hraw x hx := by
    obtain ⟨n, hr⟩ := hn.entry
    rw [hm _ hr.2.1.2.1 hq (range_subset (hfields.inside j n r hr) hx)]
    exact h.field j r S hn (hQ _ hq) raw hraw hx

variable {mc : Machine} {before : List Action} {mod : Module} {w : World} {size : BitVec 64}
  {p base : Addr} {symtab : ℕ}

theorem linkedImage_guarded (hfit : ∀ a ∈ as, a.Fits) (hbounded : BoundedRun arch (.start mc) as)
    (hkept : PagesKept as) (hload : before ++ [.loadModule mod w] <+: as)
    (hlive : (run arch (.start mc) before).halted = false)
    (h : LinkableLoad arch mod w size p base) (hok : w.protectOk = true)
    (ht : w.parsed.2.LastTable symtab) (hfound : AllFound arch mc before mod w) :
    let elf := (run arch (.start mc) before).linked mod w
    LinkedImage arch elf w.file (run arch (.start mc) as).env symtab
      (fun i => (elf.sec i).guarded = true) (run arch (.start mc) as).mc.mem := by
  intro elf
  obtain ⟨rel, hrel, hpass⟩ := exists_linkedPass hfit hload hlive h ht hfound
  have hr : Elfio.Readdressed (mod.object w) elf := readdressed_prepare
  refine hpass.image.congr h.fieldsFit (fun i hg => (guarded_passOf hg).1) fun i hi hg x hx => ?_
  obtain ⟨a, ha⟩ := hr.exists_sec i
  rw [hr.size] at hi
  rw [ha] at hg
  refine mem_run_guarded hbounded hkept hload hlive (by simp [h.image]) hok ?_ hrel hi hg hx
  rw [h.object_eq]
  exact h.relas

/-- The code and the read-only data of every module of a run that has been protected, and that has
found a definition of every name that it looks up, are at the end of the run the linked image, in
the environment of the end. -/
def CodeLinked (arch : Arch) (mc : Machine) (as : List Action) : Prop :=
  ∀ before mod w size p base symtab, before ++ [.loadModule mod w] <+: as →
    (run arch (.start mc) before).halted = false → LinkableLoad arch mod w size p base →
    w.protectOk = true → w.parsed.2.LastTable symtab → AllFound arch mc before mod w →
    let elf := (run arch (.start mc) before).linked mod w
    LinkedImage arch elf w.file (run arch (.start mc) as).env symtab
      (fun i => (elf.sec i).guarded = true) (run arch (.start mc) as).mc.mem

/-- **The code of the modules at the end of a run** is what the linker has made of it: when the
images are at pages that are not mapped again, and the code that is called obeys the protection. -/
theorem codeLinked_of_bounded (hfit : ∀ a ∈ as, a.Fits) (hbounded : BoundedRun arch (.start mc) as)
    (hkept : PagesKept as) : CodeLinked arch mc as :=
  fun _ _ _ _ _ _ _ hload hlive h hok ht hfound =>
    linkedImage_guarded hfit hbounded hkept hload hlive h hok ht hfound

end Run

theorem codeLinked_of_bounded_caller :
    let elf := (run .x86_64 (.start startMachine) [.registerFunc "host" 0x1000]).linked
      (Module.fresh ⟨[], by simp⟩) callerWorld
    LinkedImage .x86_64 elf callerWorld.file (run .x86_64 (.start startMachine) callerRun).env 2
      (fun i => (elf.sec i).guarded = true) (run .x86_64 (.start startMachine) callerRun).mc.mem := by
  have hload := linkableLoad_caller.toPagedLoad
  have hcontained : ∀ a ∈ callerRun, a.Contained .x86_64 := by
    intro a ha
    rcases List.mem_pair.mp ha with rfl | rfl
    · trivial
    · refine ⟨hload, ?_, fun h => by cases h⟩
      intro i hi hr j hj r hentry _
      obtain ⟨rfl, -, rfl⟩ := @relaAt_callerObject "f" i j.toNat r
        ⟨hi, hr, hj, (congrArg _ (BitVec.ofNat_toNat ..)).trans hentry⟩
      exact .inr (by decide)
  refine codeLinked_of_bounded fits_callerRun ⟨hcontained, fun before a hpre => ?_⟩
    ⟨fun a ha => (hcontained a ha).paged, ?_⟩ _ _ _ _ _ _ _ (List.prefix_refl _) rfl
    linkableLoad_caller rfl lastTable_caller allFound_caller
  · have ha : a ∈ callerRun := hpre.subset (List.mem_append_right _ (List.mem_singleton_self _))
    rcases List.mem_pair.mp ha with rfl | rfl
    · trivial
    · exact fun _ _ _ _ => rfl
  · exact List.pairwise_pair.mpr (Set.empty_disjoint _)

end Umko

import Umko.Load.Protection

/-!
# Objects whose file cannot be read

`load_module` goes on after `load_reloc_elf` has failed, with the object that the constructor of the
module has made. That object has nothing to place, to link, to relocate or to call: the load changes
neither the environment nor the machine. So a run is the same as the run without the objects whose
files cannot be read.
-/

namespace Umko

open Lib.Memory Lib.Bump

/-! ### The load of such an object -/

/-- `open`, `fstat` or the `mmap` of the file fails. -/
def World.NoFile (w : World) : Prop :=
  w.openOk = false ∨ w.fileSize = none ∨ w.fileAddr = none

instance (w : World) : Decidable w.NoFile := inferInstanceAs (Decidable (_ ∨ _ ∨ _))

/-- An object with nothing in the image, no symbols and no initialisers, such as the one that the
constructor of `elfio` makes. -/
structure Elfio.Inert (elf : Elfio) : Prop where
  alloc : ∀ i < elf.size, (elf.sec i).alloc = false
  symtab : ∀ i < elf.size, (elf.sec i).type ≠ shtSymtab
  initArray : ∀ i < elf.size, (elf.sec i).type ≠ shtInitArray

section Inert

variable {elf : Elfio}

theorem Elfio.Inert.relinked {elf' : Elfio} (h : elf.Inert) (hr : Elfio.Relinked elf elf') :
    elf'.Inert := by
  refine ⟨fun i hi => ?_, fun i hi => ?_, fun i hi => ?_⟩
  all_goals
    rw [hr.size] at hi
    obtain ⟨a, t, ht⟩ := hr.sec i
    rw [ht]
  · exact h.alloc i hi
  · exact h.symtab i hi
  · exact h.initArray i hi

theorem Elfio.Inert.not_relocates (h : elf.Inert) (i : ℕ) : ¬ elf.Relocates i := by
  rintro ⟨-, hi, ha⟩
  rw [h.alloc _ hi] at ha
  cases ha

theorem Elfio.Inert.total_reqs (h : elf.Inert) (m : ℕ) (hm : m ≤ 5) :
    total 0 (elf.reqs m) = 0 ∧ ∀ t ∈ totals 0 (elf.reqs m), t = 0 := by
  refine total_of_empty fun r hr => ?_
  rcases mem_reqs.mp hr with ⟨i, hi, hp, -⟩ | ⟨-, rfl⟩
  · have ha := (alloc_iff_passOf_lt elf i).mpr (by omega)
    rw [h.alloc i hi] at ha
    cases ha
  · rfl

theorem Elfio.Inert.loadable (h : elf.Inert) : elf.Loadable :=
  ⟨fun i _ hr => absurd hr (h.not_relocates i), fun i hi ht => absurd ht (h.initArray i hi)⟩

theorem Elfio.Inert.definitionsBelow (h : elf.Inert) : elf.definitionsBelow elf.size = [] :=
  List.flatMap_eq_nil_iff.mpr fun i hi => if_neg (h.symtab i (List.mem_range.mp hi))

theorem Elfio.Inert.initPointers (h : elf.Inert) : elf.initPointers elf.size = [] :=
  List.flatMap_eq_nil_iff.mpr fun i hi => if_neg (h.initArray i (List.mem_range.mp hi))

theorem Elfio.Inert.entries {mod : Module} (h : mod.elf.Inert) : mod.entries = [] :=
  List.flatMap_eq_nil_iff.mpr fun i _ => if_neg (h.not_relocates i)

end Inert

section Load

variable {arch : Arch} {mod : Module} {env : SysEnv} {w : World} {mc : Machine}

/-- A module as constructed, with the object that its constructor makes. -/
structure Module.Blank (mod : Module) : Prop where
  layout_zero : mod.layout = Layout.zero
  func_zero : mod.func = ⟨0⟩
  inert : mod.elf.Inert

theorem loadRelocElf_noFile (h : w.NoFile) : loadRelocElf mod w mc = (-1, mod, mc) := by
  unfold loadRelocElf
  rcases h with h | h | h
  · rw [if_pos h]
  · rw [h]
    split <;> rfl
  · rw [h]
    split
    · rfl
    · split <;> rfl

theorem object_noFile (h : w.NoFile) : mod.object w = mod.elf := by
  rw [← @elf_loadRelocElf mod w ⟨fun _ => 0, fun _ => Prot.readWrite⟩, loadRelocElf_noFile h]

theorem setProt_zero (pt : PageTable) (a : Addr) (p : Prot) : setProt pt a 0 p = pt :=
  funext fun _ => if_neg (Nat.not_lt_zero _)

theorem Module.Blank.layout_eq (hmod : mod.Blank) :
    (layoutSections (initSectionAddr mod)).layout.totalSize.toNat = 0 ∧
      (layoutSections (initSectionAddr mod)).layout.roAfterInitSize.toNat = 0 := by
  have hzero : (initSectionAddr mod).layout = Layout.zero := hmod.layout_zero
  have hfit : LayoutFits (initSectionAddr mod).elf := by
    rw [layoutFits_initSectionAddr]
    intro t ht
    rw [(hmod.inert.total_reqs 5 le_rfl).2 t ht]
    decide
  refine ⟨?_, ?_⟩
  · rw [totalSize_layoutSections hzero hfit, reqs_initSectionAddr]
    exact (hmod.inert.total_reqs 5 le_rfl).1
  · rw [(bounds_eq_total hzero hfit).2.2, reqs_initSectionAddr]
    exact (hmod.inert.total_reqs 3 (by omega)).1

theorem machine_prepare_noFile (h : w.NoFile) (hmod : mod.Blank) :
    (prepare mod w mc).2 = mc := by
  obtain ⟨htotal, -⟩ := hmod.layout_eq
  unfold prepare
  rw [loadRelocElf_noFile h]
  dsimp only
  cases w.image with
  | none => rfl
  | some base =>
    have hseparate : Separate (initSectionAddr mod).elf base
        (layoutSections (initSectionAddr mod)).secLayout 0 := by
      have hnone : ∀ i < (initSectionAddr mod).elf.size,
          ((initSectionAddr mod).elf.sec i).alloc ≠ true := by
        intro i hi
        rw [(hmod.inert.relinked (readdressed_initSectionAddr mod).relinked).alloc i hi]
        decide
      exact ⟨fun i hi ha => absurd ha (hnone i hi), fun i hi _ _ _ ha => absurd ha (hnone i hi),
        fun i hi hc => absurd hc.1 (hnone i hi)⟩
    have hcopied := @moveLoop_copied mc.mem _ _ _ _ hseparate
    have hmem : ∀ x, ((List.range (initSectionAddr mod).elf.size).foldl
        (moveStep base (layoutSections (initSectionAddr mod)).secLayout)
        (memset mc.mem base 0 0, (initSectionAddr mod).elf)).1 x = mc.mem x :=
      fun x => hcopied.outside x (Nat.not_lt_zero _)
    unfold moveModule
    dsimp only
    rw [htotal, setProt_zero]
    exact congrArg (Machine.mk · mc.prot) (funext hmem)

theorem link_noFile (h : w.NoFile) (hmod : mod.Blank) : (link mod env w mc).mod.elf.Inert ∧
    (link mod env w mc).env = env ∧ (link mod env w mc).imports = [] ∧
    (link mod env w mc).mod.func = ⟨0⟩ ∧
    (link mod env w mc).mod.layout.roAfterInitSize.toNat = 0 := by
  have hobj : (mod.object w).Inert := by
    rw [object_noFile h]
    exact hmod.inert
  have hinert := hobj.relinked (@readdressed_prepare mod w mc).relinked
  have hlinked := layoutSymbolAddr_linked (prepare mod w mc).1 env w.junk
  refine ⟨hobj.relinked relinked_link, ?_, ?_, ?_, ?_⟩
  · rw [env_link, hinert.definitionsBelow]
    rfl
  · refine hlinked.imports.trans (List.flatMap_eq_nil_iff.mpr fun i hi => ?_)
    exact if_neg (hinert.symtab i (List.mem_range.mp hi))
  · refine hlinked.func_eq.trans ?_
    rw [hinert.definitionsBelow, prepare_keeps.2, hmod.func_zero]
    rfl
  · rw [layout_link, placedModule, loadRelocElf_noFile h]
    split <;> exact hmod.layout_eq.2

/-- **A load whose file cannot be read** returns `0`, and changes and calls nothing. -/
theorem loadModule_noFile (h : w.NoFile) (hmod : mod.Blank) : loadModule arch mod env w mc =
    ⟨some 0, (link mod env w mc).mod, env, mc, [], [], []⟩ := by
  obtain ⟨hinert, henv, himports, hfunc, hro⟩ := @link_noFile mod env w mc h hmod
  have hprot : ∀ mem, (modProtect (link mod env w mc).mod w.protectOk ⟨mem, mc.prot⟩).2 =
      ⟨mem, mc.prot⟩ := by
    intro mem
    unfold modProtect
    split
    · dsimp only
      rw [hro, setProt_zero]
    · rfl
  have hinit : ∀ mem, modInitAndConstruct (link mod env w mc).mod w.code mem = .ok ⟨mem, []⟩ := by
    intro mem
    refine modInitAndConstruct_eq_ok_iff.mpr ⟨hinert.loadable.divides, ?_⟩
    rw [hfunc, if_neg (by simp), afterArrays, hinert.initPointers]
    rfl
  unfold loadModule
  dsimp only
  rw [relocateSymbol_eq hinert.loadable.relas, hinert.entries, machine_prepare_noFile h hmod, henv,
    himports]
  dsimp only [relocAll, List.foldl_nil]
  rw [hprot, hinit]

end Load

/-! ### Runs without such objects -/

/-- The action is the load of a module as constructed, whose file cannot be read. -/
def Action.Skipped : Action → Prop
  | .registerFunc .. => False
  | .loadModule mod w => w.NoFile ∧ mod.Blank

/-- The functions that the loads of a state have called, in order. -/
def RunState.called (st : RunState) : List Addr :=
  st.loads.flatMap fun l => l.calls.map Call.fn

/-- Two states of a run that differ in the loads that have called nothing. -/
structure SameEffects (st st' : RunState) : Prop where
  env : st'.env = st.env
  mc : st'.mc = st.mc
  halted : st'.halted = st.halted
  called : st'.called = st.called

section Run

variable {arch : Arch} {st st' : RunState} {a : Action} {as bs : List Action}

theorem sameEffects_skipped (ha : a.Skipped) : SameEffects (runStep arch st a) st := by
  cases a with
  | registerFunc name addr => exact ha.elim
  | loadModule mod w =>
    have hload : st.load arch mod w =
        ⟨some 0, (link mod st.env w st.mc).mod, st.env, st.mc, [], [], []⟩ :=
      loadModule_noFile ha.1 ha.2
    unfold runStep
    cases hh : st.halted with
    | true => exact ⟨rfl, rfl, rfl, rfl⟩
    | false =>
      dsimp only
      rw [hload]
      exact ⟨rfl, rfl, by simp [hh], by simp [RunState.called]⟩

theorem SameEffects.runStep (h : SameEffects st st') (a : Action) :
    SameEffects (runStep arch st a) (runStep arch st' a) := by
  unfold Umko.runStep RunState.load
  rw [h.halted, h.env, h.mc]
  cases hh : st.halted with
  | true => exact h
  | false =>
    cases a with
    | registerFunc name addr => exact ⟨rfl, rfl, rfl, h.called⟩
    | loadModule mod w =>
      refine ⟨rfl, rfl, rfl, ?_⟩
      have hcalled := h.called
      unfold RunState.called at hcalled ⊢
      simp [hcalled]

theorem SameEffects.run (h : SameEffects st st') (as : List Action) :
    SameEffects (run arch st as) (run arch st' as) := by
  induction as generalizing st st' with
  | nil => exact h
  | cons a as ih => exact ih (h.runStep a)

theorem SameEffects.trans {st'' : RunState} (h : SameEffects st st') (h' : SameEffects st' st'') :
    SameEffects st st'' :=
  ⟨h'.env.trans h.env, h'.mc.trans h.mc, h'.halted.trans h.halted, h'.called.trans h.called⟩

/-- **Objects that cannot be read leave no trace**: leaving loads of them out of a run, wherever they
stand, gives the same environment, the same memory and protection and the same calls. -/
theorem run_skip {p : Action → Bool} (h : ∀ a ∈ as, p a = false → a.Skipped) :
    SameEffects (run arch st as) (run arch st (as.filter p)) := by
  induction as generalizing st with
  | nil => exact ⟨rfl, rfl, rfl, rfl⟩
  | cons a as ih =>
    obtain ⟨ha, has⟩ := List.forall_mem_cons.mp h
    have hcons : run arch st (a :: as) = run arch (runStep arch st a) as := rfl
    rw [hcons, List.filter_cons]
    cases hp : p a with
    | true => exact ih has
    | false => exact ((sameEffects_skipped (ha hp)).run as).trans (ih has)

end Run

/-- A file that is not there, between two that are. -/
theorem run_skip_missing :
    let bad : World := { startWorld 0x40000 4 with openOk := false }
    let as : List Action := [.loadModule (Module.fresh ⟨[], by simp⟩) (startWorld 0x20000 4),
      .loadModule (Module.fresh ⟨[], by simp⟩) bad,
      .loadModule (Module.fresh ⟨[], by simp⟩) (startWorld 0x30000 4)]
    SameEffects (run .x86_64 (.start startMachine) as) (run .x86_64 (.start startMachine)
      (as.filter fun a => match a with | .loadModule _ w => w.openOk | _ => true)) := by
  intro bad as
  refine run_skip fun a ha hp => ?_
  simp only [as, List.mem_cons, List.not_mem_nil, or_false] at ha
  rcases ha with rfl | rfl | rfl
  · cases hp
  · exact ⟨.inl rfl, rfl, rfl, ⟨fun i hi => absurd hi (Nat.not_lt_zero i),
      fun i hi => absurd hi (Nat.not_lt_zero i), fun i hi => absurd hi (Nat.not_lt_zero i)⟩⟩
  · cases hp

end Umko

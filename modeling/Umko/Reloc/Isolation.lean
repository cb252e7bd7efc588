import Umko.Reloc.Simultaneous

/-!
# What the pass writes

The states that `relocate_symbol` goes through, also when it never ends. The offset of an entry is
added to the address of its section as it stands in the file; as long as the field at this offset
ends inside the section, the pass writes nothing outside the sections that it relocates.
-/

namespace Umko

open Lib.Memory Lib.Local Lib.Loop

/-! ### The states of the pass -/

/-- The state after `k` entries of section `i`, from the state `st` on. -/
def sectionRounds (arch : Arch) (elf : Elfio) (symbols : SymbolTable) (i k : ℕ) (st : RelocState) :
    RelocState :=
  if elf.Relocates i then
    rounds (elf.sec i).relas.num (relocStep arch (elf.sec i).relas
      (elf.sec (elf.sec i).info.toNat).address symbols (elf.sec i).info.toNat) k 0 st
  else st

/-- **A state that the pass goes through**: after the sections below `i`, and `k` entries of section
`i`. -/
def PassState (arch : Arch) (mod : Module) (mem : Mem) (st : RelocState) : Prop :=
  ∃ i ≤ mod.elf.size, ∃ st', (List.range i).foldlM (relocateStep arch mod.elf
      (mod.elf.sec mod.symSecIndex.toNat).symbols) ⟨mem, []⟩ = some st' ∧
    ∃ k, st = sectionRounds arch mod.elf (mod.elf.sec mod.symSecIndex.toNat).symbols i k st'

section States

variable {arch : Arch} {elf : Elfio} {symbols : SymbolTable} {mod : Module} {mem : Mem}
  {st st' : RelocState} {i : ℕ}

theorem passState_of_relocateSymbol (h : relocateSymbol arch mod mem = some st) :
    PassState arch mod mem st := by
  refine ⟨mod.elf.size, le_rfl, st, h, 0, ?_⟩
  unfold sectionRounds
  split <;> rfl

theorem exists_rounds_of_relocateStep (h : relocateStep arch elf symbols st i = some st') :
    ∃ k, st' = sectionRounds arch elf symbols i k st := by
  by_cases hr : elf.Relocates i
  · rw [relocateStep_apply hr, applyRelocateAdd] at h
    cases hloop : forU32 (elf.sec i).relas.num (relocStep arch (elf.sec i).relas
        (elf.sec (elf.sec i).info.toNat).address symbols (elf.sec i).info.toNat) st with
    | none =>
      rw [hloop] at h
      cases h
    | some s =>
      rw [hloop] at h
      refine ⟨2 ^ 32, ?_⟩
      rw [sectionRounds, if_pos hr]
      exact (Option.some.inj h).symm.trans (rounds_eq_of_iterate _ _ _ hloop).symm
  · rw [relocateStep_skip hr] at h
    refine ⟨0, ?_⟩
    rw [sectionRounds, if_neg hr]
    exact (Option.some.inj h).symm

/-- **The invariant rule of the pass.** -/
theorem PassState.inv (P : RelocState → Prop) (h0 : P ⟨mem, []⟩)
    (hs : ∀ i < mod.elf.size, mod.elf.Relocates i → ∀ (j : BitVec 32) (s : RelocState),
      j.setWidth 64 < (mod.elf.sec i).relas.num → P s → P (relocStep arch (mod.elf.sec i).relas
        (mod.elf.sec (mod.elf.sec i).info.toNat).address
        (mod.elf.sec mod.symSecIndex.toNat).symbols (mod.elf.sec i).info.toNat j s))
    (h : PassState arch mod mem st) : P st := by
  have hsection : ∀ i ≤ mod.elf.size, ∀ k s, P s →
      P (sectionRounds arch mod.elf (mod.elf.sec mod.symSecIndex.toNat).symbols i k s) := by
    intro i hi k s hP
    unfold sectionRounds
    split
    · rename_i hr
      rcases Nat.lt_or_eq_of_le hi with hi | rfl
      · exact rounds_inv (hs i hi hr) k 0 s hP
      · -- there is no section behind the last one
        have ht := hr.1
        rw [Elfio.sec_of_size_le le_rfl] at ht
        exact absurd ht (by decide)
    · exact hP
  have hbelow : ∀ i ≤ mod.elf.size, ∀ s, (List.range i).foldlM (relocateStep arch mod.elf
      (mod.elf.sec mod.symSecIndex.toNat).symbols) ⟨mem, []⟩ = some s → P s := by
    intro i
    induction i with
    | zero =>
      intro _ s hfold
      rw [← Option.some.inj hfold]
      exact h0
    | succ i ih =>
      intro hi s hfold
      rw [List.range_succ, List.foldlM_append] at hfold
      obtain ⟨s', hs', hlast⟩ := Option.bind_eq_some_iff.mp hfold
      rw [List.foldlM_cons] at hlast
      obtain ⟨s'', hs'', hnil⟩ := Option.bind_eq_some_iff.mp hlast
      obtain ⟨k, hk⟩ := exists_rounds_of_relocateStep hs''
      rw [← Option.some.inj hnil, hk]
      exact hsection i (by omega) k s' (ih (by omega) s' hs')
  obtain ⟨i, hi, st', hst', k, rfl⟩ := h
  exact hsection i hi k st' (hbelow i hi st' hst')

end States

/-! ### Isolation -/

/-- The bytes of the section that section `i` relocates. -/
def Elfio.fixedBytes (elf : Elfio) (i : ℕ) : Set Addr := (elf.sec (elf.sec i).info.toNat).bytes

/-- The field of every call so far lies in the section of the image that the RELA section names, and
the memory is as before outside the sections named. -/
structure IsolatedState (arch : Arch) (mod : Module) (mem : Mem) (st : RelocState) : Prop where
  inside : ∀ c ∈ st.calls, ∃ i < mod.elf.size, mod.elf.Relocates i ∧
    c.1.fixedSec = (mod.elf.sec i).info.toNat ∧ c.1.field arch ⊆ mod.elf.fixedBytes i
  frame : ∀ x, (∀ i < mod.elf.size, mod.elf.Relocates i → x ∉ mod.elf.fixedBytes i) →
    st.mem x = mem x

/-- **The pass is isolated** in every state that it goes through. -/
def IsolatedPass (arch : Arch) (mod : Module) (mem : Mem) : Prop :=
  ∀ st, PassState arch mod mem st → IsolatedState arch mod mem st

/-- The entries of an object that the counter reaches and that name a symbol, one of `symbols`, have
fields that end inside their sections, or no field. -/
def OffsetsFit (arch : Arch) (elf : Elfio) (symbols : SymbolTable) : Prop :=
  ∀ i < elf.size, elf.Relocates i → ∀ j : BitVec 32, j.setWidth 64 < (elf.sec i).relas.num →
    ∀ r, (elf.sec i).relas.entry (j.setWidth 64) = some r →
      (symbols.entry (r.symbol.setWidth 64)).isSome → arch.width r.type = 0 ∨
        r.offset.toNat + arch.width r.type / 8 ≤ (elf.sec (elf.sec i).info.toNat).size.toNat

theorem Elfio.Relinked.offsetsFit {arch : Arch} {elf elf' : Elfio} {symbols symbols' : SymbolTable}
    (h : Elfio.Relinked elf elf') (hfit : OffsetsFit arch elf symbols)
    (hs : ∀ x, (symbols'.entry x).isSome → (symbols.entry x).isSome) :
    OffsetsFit arch elf' symbols' := by
  intro i hi hr j hj r hentry hsome
  obtain ⟨a, t, ht⟩ := h.sec i
  obtain ⟨a', t', ht'⟩ := h.sec (elf.sec i).info.toNat
  rw [h.size] at hi
  rw [ht] at hj hentry ⊢
  show _ ∨ _ ≤ (elf'.sec (elf.sec i).info.toNat).size.toNat
  rw [ht']
  exact hfit i hi ((h.relocates_iff i).mp hr) j hj r hentry (hs _ hsome)

section Isolated

variable {arch : Arch} {mod : Module} {mem : Mem}

theorem relocStep_isolated (h : OffsetsFit arch mod.elf (mod.elf.sec mod.symSecIndex.toNat).symbols)
    {i : ℕ} (hi : i < mod.elf.size) (hr : mod.elf.Relocates i) {j : BitVec 32}
    (hj : j.setWidth 64 < (mod.elf.sec i).relas.num) (st : RelocState) :
    relocStep arch (mod.elf.sec i).relas (mod.elf.sec (mod.elf.sec i).info.toNat).address
        (mod.elf.sec mod.symSecIndex.toNat).symbols (mod.elf.sec i).info.toNat j st = st ∨
      ∃ e : RelocEntry, e.fixedSec = (mod.elf.sec i).info.toNat ∧
        e.field arch ⊆ mod.elf.fixedBytes i ∧
        relocStep arch (mod.elf.sec i).relas (mod.elf.sec (mod.elf.sec i).info.toNat).address
          (mod.elf.sec mod.symSecIndex.toNat).symbols (mod.elf.sec i).info.toNat j st =
            relocExec arch st e := by
  unfold relocStep readEntry RelaTable.getEntry SymbolTable.getSymbol
  cases hentry : (mod.elf.sec i).relas.entry (j.setWidth 64) with
  | none => exact .inl rfl
  | some r =>
    cases hsym : (mod.elf.sec mod.symSecIndex.toNat).symbols.entry (r.symbol.setWidth 64) with
    | none =>
      left
      simp [hsym]
    | some s =>
      right
      refine ⟨⟨(mod.elf.sec i).info.toNat, r,
        (mod.elf.sec (mod.elf.sec i).info.toNat).address + r.offset, s.value + r.addend⟩, rfl, ?_, ?_⟩
      · unfold RelocEntry.field Elfio.fixedBytes Section.bytes
        rcases h i hi hr j hj r hentry (by rw [hsym]; rfl) with h0 | hin
        · dsimp only
          rw [h0, Nat.zero_div, range_zero]
          exact Set.empty_subset _
        · exact range_subset hin
      · simp [hsym]

/-- **The pass is isolated when the offsets fit.** -/
theorem isolatedPass_of_offsetsFit
    (h : OffsetsFit arch mod.elf (mod.elf.sec mod.symSecIndex.toNat).symbols) :
    IsolatedPass arch mod mem := by
  intro st hst
  refine hst.inv (IsolatedState arch mod mem) ?_ fun i hi hr j s hj hs => ?_
  · exact ⟨fun c hc => (by cases hc), fun _ _ => rfl⟩
  · rcases relocStep_isolated h hi hr hj s with he | ⟨e, hfixed, hin, he⟩
    · rw [he]
      exact hs
    · rw [he]
      refine ⟨fun c hc => ?_, fun x hx => Eq.trans ?_ (hs.frame x hx)⟩
      · rcases List.mem_append.mp hc with hc | hc
        · exact hs.inside c hc
        · rw [List.mem_singleton.mp hc]
          exact ⟨i, hi, hr, hfixed, hin⟩
      · exact (relocCall_local arch e).frame s.mem x fun hxe => hx i hi hr (hin hxe)

end Isolated

end Umko

import Umko.Layout.Placement

/-!
# The extents of the sections in the image

What `layout_sections` gives, as long as the layout stays below `2 ^ 32`: every `SHF_ALLOC` section
is placed once, and the sections lie one beside the other, aligned, inside the total.
-/

namespace Umko

open Lib.Memory Lib.Bump

/-! ### Sections and passes -/

theorem alloc_iff_passOf_lt (elf : Elfio) (i : ℕ) :
    (elf.sec i).alloc = true ↔ passOf (elf.flag i) < 5 := by
  rw [passOf_eq]
  cases (elf.sec i).has shfExecinstr <;> cases (elf.sec i).alloc <;>
    cases (elf.sec i).has shfWrite <;> cases (elf.sec i).has shfRoAfterInit <;> decide

theorem mem_keys {elf : Elfio} {m i : ℕ} :
    i ∈ (elf.reqs m).filterMap (·.key) ↔ i < elf.size ∧ passOf (elf.flag i) < m := by
  rw [List.mem_filterMap]
  constructor
  · rintro ⟨r, hr, hk⟩
    rcases mem_reqs.mp hr with ⟨j, hj, hm, rfl⟩ | ⟨-, rfl⟩
    · obtain rfl : j = i := Option.some.inj hk
      exact ⟨hj, hm⟩
    · cases hk
  · rintro ⟨hi, hm⟩
    exact ⟨elf.req i, mem_reqs.mpr (.inl ⟨i, hi, hm, rfl⟩), rfl⟩

theorem nodup_keys (elf : Elfio) (m : ℕ) : ((elf.reqs m).filterMap (·.key)).Nodup := by
  induction m with
  | zero => exact List.nodup_nil
  | succ m ih =>
    have hpass : (elf.passReqs m elf.size).filterMap (·.key) =
        (List.range elf.size).filter fun i => passOf (elf.flag i) = m := by
      rw [Elfio.passReqs, List.filterMap_map]
      exact List.filterMap_some
    have hpage : (if m = 2 then [pageReq] else []).filterMap (·.key) = [] := by
      split <;> rfl
    rw [Elfio.reqs, List.filterMap_append, List.filterMap_append, hpage, List.append_nil, hpass]
    refine List.nodup_append'.mpr ⟨ih, List.nodup_range.filter _, ?_⟩
    intro i hi hi'
    have h1 := (mem_keys.mp hi).2
    have h2 : passOf (elf.flag i) = m := by simpa using (List.mem_filter.mp hi').2
    omega

/-! ### Where a section lies -/

section Where

variable {mod : Module}

theorem offset_layoutSections (i : ℕ) :
    (layoutSections mod).offset i = ((layoutRun mod).vsec.getD i ⟨0⟩).offset := rfl

theorem exists_offset (hmod : mod.layout = Layout.zero) (hfit : LayoutFits mod.elf)
    {i : ℕ} (hi : i < mod.elf.size) (ha : (mod.elf.sec i).alloc = true) :
    (mod.elf.req i, ((layoutSections mod).offset i).toNat) ∈ offsets 0 (mod.elf.reqs 5) := by
  have hr : mod.elf.req i ∈ mod.elf.reqs 5 :=
    mem_reqs.mpr (.inl ⟨i, hi, (alloc_iff_passOf_lt _ i).mp ha, rfl⟩)
  rw [← map_fst_offsets 0 (mod.elf.reqs 5)] at hr
  obtain ⟨p, hp, hpr⟩ := List.mem_map.mp hr
  have ho := (layoutRun_placed hmod hfit).offset p hp i (by rw [hpr]; rfl)
  rw [offset_layoutSections, ho, ← hpr]
  exact hp

theorem totalSize_layoutSections (hmod : mod.layout = Layout.zero) (hfit : LayoutFits mod.elf) :
    (layoutSections mod).layout.totalSize.toNat = total 0 (mod.elf.reqs 5) :=
  (layoutRun_placed hmod hfit).totalSize

theorem offset_ne_unplaced_iff (hmod : mod.layout = Layout.zero) (hfit : LayoutFits mod.elf)
    {i : ℕ} (hi : i < mod.elf.size) :
    (layoutSections mod).offset i ≠ unplaced ↔ (mod.elf.sec i).alloc = true := by
  have h := layoutRun_placed hmod hfit
  constructor
  · intro ho
    by_contra ha
    refine ho (h.rest i hi fun r hr hk => ha ?_)
    exact (alloc_iff_passOf_lt _ i).mpr
      (mem_keys.mp (List.mem_filterMap.mpr ⟨r, hr, hk⟩)).2
  · intro ha
    refine h.ne_unplaced (below_of_fits hfit le_rfl) ⟨mod.elf.req i, ?_, rfl⟩
    exact mem_reqs.mpr (.inl ⟨i, hi, (alloc_iff_passOf_lt _ i).mp ha, rfl⟩)

theorem offset_inside (hmod : mod.layout = Layout.zero) (hfit : LayoutFits mod.elf)
    {i : ℕ} (hi : i < mod.elf.size) (ha : (mod.elf.sec i).alloc = true) :
    ((layoutSections mod).offset i).toNat + (mod.elf.sec i).size.toNat ≤
        (layoutSections mod).layout.totalSize.toNat ∧
      (mod.elf.sec i).align ∣ ((layoutSections mod).offset i).toNat := by
  rw [totalSize_layoutSections hmod hfit]
  exact (offsets_spec (aligned_reqs _ _) (exists_offset hmod hfit hi ha)).2

theorem offset_disjoint (hmod : mod.layout = Layout.zero) (hfit : LayoutFits mod.elf)
    {i j : ℕ} (hi : i < mod.elf.size) (hj : j < mod.elf.size) (hij : i ≠ j)
    (hai : (mod.elf.sec i).alloc = true) (haj : (mod.elf.sec j).alloc = true) :
    ((layoutSections mod).offset i).toNat + (mod.elf.sec i).size.toNat ≤
        ((layoutSections mod).offset j).toNat ∨
      ((layoutSections mod).offset j).toNat + (mod.elf.sec j).size.toNat ≤
        ((layoutSections mod).offset i).toNat := by
  refine offsets_separate (aligned_reqs mod.elf 5) (exists_offset hmod hfit hi hai)
    (exists_offset hmod hfit hj haj) fun h => hij ?_
  exact Option.some.inj (congrArg (fun p => p.1.key) h)

end Where

/-! ### Layout correctness -/

/-- What `layout_sections` makes of a module: every `SHF_ALLOC` section is placed once and no other
one, of two sections one ends before the other one starts, and each lies inside the image at a
multiple of its alignment. -/
structure LayoutCorrect (mod : Module) : Prop where
  length : (layoutSections mod).secLayout.length = mod.elf.size
  once : (layoutRun mod).placed.Nodup
  placed : ∀ i, i ∈ (layoutRun mod).placed ↔ i < mod.elf.size ∧ (mod.elf.sec i).alloc = true
  offset_ne : ∀ i < mod.elf.size,
    (layoutSections mod).offset i ≠ unplaced ↔ (mod.elf.sec i).alloc = true
  disjoint : ∀ i < mod.elf.size, ∀ j < mod.elf.size, i ≠ j →
    (mod.elf.sec i).alloc = true → (mod.elf.sec j).alloc = true →
    ((layoutSections mod).offset i).toNat + (mod.elf.sec i).size.toNat ≤
        ((layoutSections mod).offset j).toNat ∨
      ((layoutSections mod).offset j).toNat + (mod.elf.sec j).size.toNat ≤
        ((layoutSections mod).offset i).toNat
  inside : ∀ i < mod.elf.size, (mod.elf.sec i).alloc = true →
    ((layoutSections mod).offset i).toNat + (mod.elf.sec i).size.toNat ≤
      (layoutSections mod).layout.totalSize.toNat
  aligned : ∀ i < mod.elf.size, (mod.elf.sec i).alloc = true →
    (mod.elf.sec i).align ∣ ((layoutSections mod).offset i).toNat

/-- **Layout correctness.** The layout of a fresh module is correct when it stays below `2 ^ 32`;
sizes and alignments need no bound of their own. -/
theorem layoutSections_correct {mod : Module} (hmod : mod.layout = Layout.zero)
    (hfit : LayoutFits mod.elf) : LayoutCorrect mod where
  length := (layoutRun_placed hmod hfit).length
  once := by
    rw [(layoutRun_placed hmod hfit).placed]
    exact nodup_keys _ _
  placed i := by rw [(layoutRun_placed hmod hfit).placed, mem_keys, alloc_iff_passOf_lt]
  offset_ne _ hi := offset_ne_unplaced_iff hmod hfit hi
  disjoint _ hi _ hj hij hai haj := offset_disjoint hmod hfit hi hj hij hai haj
  inside _ hi ha := (offset_inside hmod hfit hi ha).1
  aligned _ hi ha := (offset_inside hmod hfit hi ha).2

theorem layoutSections_correct_sample : LayoutCorrect (Module.fresh sampleElf) :=
  layoutSections_correct rfl (by decide)

end Umko

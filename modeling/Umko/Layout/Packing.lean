import Umko.Layout.Extents

/-!
# How large the image is

A bound that the section headers give without running the layout: the image is at least as large as
its sections together, and larger by no more than the rounding to their alignments and to one page.
When the bound stays below `2 ^ 32`, so does the layout.
-/

namespace Umko

open Lib.Memory Lib.Bump

def Elfio.allocated (elf : Elfio) : List ℕ :=
  (List.range elf.size).filter fun i => (elf.sec i).alloc

def Elfio.contents (elf : Elfio) : ℕ := (elf.allocated.map fun i => (elf.sec i).size.toNat).sum

/-- What the rounding to the alignments can add, and the rounding to a page after pass 2. -/
def Elfio.padding (elf : Elfio) : ℕ :=
  (elf.allocated.map fun i => (elf.sec i).align - 1).sum + 4095

section Packing

variable {elf : Elfio}

theorem filter_passOf_succ (elf : Elfio) (m : ℕ) :
    ((List.range elf.size).filter fun i => passOf (elf.flag i) < m + 1).Perm
      (((List.range elf.size).filter fun i => passOf (elf.flag i) < m) ++
        (List.range elf.size).filter fun i => passOf (elf.flag i) = m) := by
  have hdisj : List.Disjoint ((List.range elf.size).filter fun i => passOf (elf.flag i) < m)
      ((List.range elf.size).filter fun i => passOf (elf.flag i) = m) := by
    intro i hi hi'
    have h1 : passOf (elf.flag i) < m := by simpa using (List.mem_filter.mp hi).2
    have h2 : passOf (elf.flag i) = m := by simpa using (List.mem_filter.mp hi').2
    omega
  refine (List.perm_ext_iff_of_nodup (List.nodup_range.filter _) (List.nodup_append'.mpr
    ⟨List.nodup_range.filter _, List.nodup_range.filter _, hdisj⟩)).mpr fun i => ?_
  simp only [List.mem_append, List.mem_filter, List.mem_range, decide_eq_true_eq]
  omega

/-- **Every section of the image is requested once**, and one page is. -/
theorem reqs_perm (elf : Elfio) : (elf.reqs 5).Perm (pageReq :: elf.allocated.map elf.req) := by
  have key : ∀ m, (elf.reqs m).Perm ((if 3 ≤ m then [pageReq] else []) ++
      ((List.range elf.size).filter fun i => passOf (elf.flag i) < m).map elf.req) := by
    intro m
    induction m with
    | zero => simp [Elfio.reqs]
    | succ m ih =>
      have hsucc := (filter_passOf_succ elf m).map elf.req
      rw [List.map_append] at hsucc
      refine List.Perm.trans ((ih.append_right _).append_right _) ?_
      refine List.Perm.trans ?_ (hsucc.symm.append_left _)
      -- the page is requested after pass 2
      rcases Nat.lt_trichotomy m 2 with hm | rfl | hm
      · rw [if_neg (by omega), if_neg (by omega), if_neg (by omega), List.append_nil]
        exact .refl _
      · rw [if_neg (by omega), if_pos rfl, if_pos le_rfl]
        exact List.perm_append_singleton ..
      · rw [if_pos (by omega), if_neg (by omega), if_pos (by omega), List.append_nil,
          List.append_assoc]
        exact .refl _
  have halloc : elf.allocated = (List.range elf.size).filter fun i => passOf (elf.flag i) < 5 := by
    refine List.filter_congr fun i _ => ?_
    rw [Bool.eq_iff_iff, alloc_iff_passOf_lt, decide_eq_true_iff]
  rw [halloc]
  exact key 5

theorem sizes_reqs (elf : Elfio) : sizes (elf.reqs 5) = elf.contents := by
  unfold sizes Elfio.contents
  rw [((reqs_perm elf).map _).sum_eq, List.map_cons, List.sum_cons, List.map_map]
  exact Nat.zero_add _

theorem slack_reqs (elf : Elfio) : slack (elf.reqs 5) = elf.padding := by
  unfold slack Elfio.padding
  rw [((reqs_perm elf).map _).sum_eq, List.map_cons, List.sum_cons, List.map_map]
  exact Nat.add_comm ..

/-- **The image is packed**: when the sizes of the sections and the padding stay below `2 ^ 32`, the
layout does, and the total is between the sizes and the sizes with the padding. -/
theorem layoutSections_packed {mod : Module} (hmod : mod.layout = Layout.zero)
    (h : mod.elf.contents + mod.elf.padding < 2 ^ 32) :
    LayoutFits mod.elf ∧
      mod.elf.contents ≤ (layoutSections mod).layout.totalSize.toNat ∧
      (layoutSections mod).layout.totalSize.toNat ≤ mod.elf.contents + mod.elf.padding := by
  obtain ⟨h1, h2⟩ := @total_mem _ 0 _ (aligned_reqs mod.elf 5)
  rw [sizes_reqs, Nat.zero_add] at h1 h2
  rw [slack_reqs] at h2
  have hfit : LayoutFits mod.elf := fun s hs =>
    Nat.lt_of_le_of_lt ((le_total_of_mem_totals (aligned_reqs mod.elf 5) hs).trans h2) h
  rw [totalSize_layoutSections hmod hfit]
  exact ⟨hfit, h1, h2⟩

theorem layoutSections_packed_sample : LayoutFits sampleElf ∧
    sampleElf.contents ≤ (layoutSections (Module.fresh sampleElf)).layout.totalSize.toNat ∧
    (layoutSections (Module.fresh sampleElf)).layout.totalSize.toNat ≤
      sampleElf.contents + sampleElf.padding :=
  @layoutSections_packed (Module.fresh sampleElf) rfl (by decide +kernel)

end Packing

end Umko

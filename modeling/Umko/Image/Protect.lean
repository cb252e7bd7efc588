import Umko.Image.Copy

/-!
# The protection of the image

`mod_protect` makes the image read-only and executable up to the boundary that `layout_sections`
took after its third pass. The boundaries between passes are totals of the placement, so a section
lies below a boundary when an earlier pass took it, and above it otherwise; and the boundary that
counts is that of a page.
-/

namespace Umko

open Lib.Memory Lib.Bump Lib.Loop

/-! ### Boundaries -/

section Boundaries

variable {mod : Module}

theorem layoutUpTo_succ_bounds (mod : Module) {m : ℕ} (hm : m < 5) :
    (layoutUpTo mod (m + 1)).layout.textSize = (if m = 0
      then (layoutUpTo mod (m + 1)).layout.totalSize else (layoutUpTo mod m).layout.textSize) ∧
    (layoutUpTo mod (m + 1)).layout.roSize = (if m = 1
      then (layoutUpTo mod (m + 1)).layout.totalSize else (layoutUpTo mod m).layout.roSize) ∧
    (layoutUpTo mod (m + 1)).layout.roAfterInitSize = (if m = 2
      then (layoutUpTo mod (m + 1)).layout.totalSize
      else (layoutUpTo mod m).layout.roAfterInitSize) := by
  obtain ⟨mask, hmask⟩ := getElem?_masks hm
  rw [layoutUpTo_succ mod hmask]
  generalize layoutUpTo mod m = st
  have hin : ∀ t : LayoutState, t = (List.range mod.elf.size).foldl (layoutStep mod.elf mask) st →
      t.layout.textSize = st.layout.textSize ∧ t.layout.roSize = st.layout.roSize ∧
        t.layout.roAfterInitSize = st.layout.roAfterInitSize := by
    rintro t rfl
    refine foldl_range_inv (fun _ (t : LayoutState) => t.layout.textSize = st.layout.textSize ∧
      t.layout.roSize = st.layout.roSize ∧ t.layout.roAfterInitSize = st.layout.roAfterInitSize)
      mod.elf.size ⟨rfl, rfl, rfl⟩ fun i _ t ht => ?_
    unfold layoutStep
    dsimp only
    split <;> exact ht
  obtain ⟨h1, h2, h3⟩ := hin _ rfl
  unfold layoutPass
  match m, hm with
  | 0, _ => exact ⟨rfl, h2, h3⟩
  | 1, _ => exact ⟨h1, rfl, h3⟩
  | 2, _ => exact ⟨h1, h2, rfl⟩
  | 3, _ => exact ⟨h1, h2, h3⟩
  | 4, _ => exact ⟨h1, h2, h3⟩

/-- **The boundaries are the totals after the passes 0, 1 and 2.** -/
theorem layoutRun_bounds (mod : Module) :
    (layoutRun mod).layout.textSize = (layoutUpTo mod 1).layout.totalSize ∧
    (layoutRun mod).layout.roSize = (layoutUpTo mod 2).layout.totalSize ∧
    (layoutRun mod).layout.roAfterInitSize = (layoutUpTo mod 3).layout.totalSize := by
  obtain ⟨a1, -, -⟩ := layoutUpTo_succ_bounds mod (show 0 < 5 by omega)
  obtain ⟨b1, b2, -⟩ := layoutUpTo_succ_bounds mod (show 1 < 5 by omega)
  obtain ⟨c1, c2, c3⟩ := layoutUpTo_succ_bounds mod (show 2 < 5 by omega)
  obtain ⟨d1, d2, d3⟩ := layoutUpTo_succ_bounds mod (show 3 < 5 by omega)
  obtain ⟨e1, e2, e3⟩ := layoutUpTo_succ_bounds mod (show 4 < 5 by omega)
  rw [← layoutUpTo_five]
  exact ⟨e1.trans (d1.trans (c1.trans (b1.trans a1))), e2.trans (d2.trans (c2.trans b2)),
    e3.trans (d3.trans c3)⟩

variable {mod : Module}

theorem bounds_eq_total (hmod : mod.layout = Layout.zero) (hfit : LayoutFits mod.elf) :
    (layoutSections mod).layout.textSize.toNat = total 0 (mod.elf.reqs 1) ∧
    (layoutSections mod).layout.roSize.toNat = total 0 (mod.elf.reqs 2) ∧
    (layoutSections mod).layout.roAfterInitSize.toNat = total 0 (mod.elf.reqs 3) := by
  obtain ⟨h1, h2, h3⟩ := layoutRun_bounds mod
  show (layoutRun mod).layout.textSize.toNat = _ ∧ (layoutRun mod).layout.roSize.toNat = _ ∧
    (layoutRun mod).layout.roAfterInitSize.toNat = _
  rw [h1, h2, h3]
  exact ⟨(layoutUpTo_placed hmod hfit (by omega)).totalSize,
    (layoutUpTo_placed hmod hfit (by omega)).totalSize,
    (layoutUpTo_placed hmod hfit (by omega)).totalSize⟩

theorem total_reqs_mono (elf : Elfio) {m m' : ℕ} (h : m ≤ m') :
    total 0 (elf.reqs m) ≤ total 0 (elf.reqs m') := by
  induction h with
  | refl => exact le_rfl
  | @step k _ ih =>
    refine Nat.le_trans ih ?_
    rw [Elfio.reqs, List.append_assoc, total_append]
    refine le_total fun r hr => aligned_reqs elf (k + 1) r ?_
    rw [Elfio.reqs, List.append_assoc]
    exact List.mem_append_right _ hr

/-- **The boundary after pass 2 is that of a page.** -/
theorem page_dvd_total (elf : Elfio) : 4096 ∣ total 0 (elf.reqs 3) := by
  rw [Elfio.reqs, if_pos rfl, total_append]
  exact dvd_alignUp

/-- A section lies below the boundary after the passes up to its own, and above the one before
them. -/
theorem offset_bounds (hmod : mod.layout = Layout.zero) (hfit : LayoutFits mod.elf) {i m : ℕ}
    (hi : i < mod.elf.size) (ha : (mod.elf.sec i).alloc = true) (hm : m ≤ 5) :
    (passOf (mod.elf.flag i) < m →
      ((layoutSections mod).offset i).toNat + (mod.elf.sec i).size.toNat ≤
        total 0 (mod.elf.reqs m)) ∧
    (m ≤ passOf (mod.elf.flag i) →
      total 0 (mod.elf.reqs m) ≤ ((layoutSections mod).offset i).toNat) := by
  obtain ⟨l, hl⟩ : ∃ l, mod.elf.reqs 5 = mod.elf.reqs m ++ l := by
    rcases Nat.lt_or_eq_of_le hm with hm | rfl
    · obtain ⟨l, hl⟩ := reqs_split mod.elf hm (Nat.zero_le _)
      exact ⟨l, by simpa [Elfio.passReqs] using hl⟩
    · exact ⟨[], (List.append_nil _).symm⟩
  have hal : Aligned (mod.elf.reqs m ++ l) := hl ▸ aligned_reqs mod.elf 5
  have hp := exists_offset hmod hfit hi ha
  rw [hl, offsets_append, List.mem_append] at hp
  have hkey : (mod.elf.req i).key = some i := rfl
  constructor
  · intro hlt
    rcases hp with hp | hp
    · exact (offsets_spec (aligned_reqs _ _) hp).2.1
    · -- a section is requested once
      have h1 : i ∈ (mod.elf.reqs m).filterMap (·.key) := mem_keys.mpr ⟨hi, hlt⟩
      have h2 : i ∈ l.filterMap (·.key) := by
        have hr := List.mem_map_of_mem (f := (·.1)) hp
        rw [map_fst_offsets] at hr
        exact List.mem_filterMap.mpr ⟨_, hr, hkey⟩
      have hnd := nodup_keys mod.elf 5
      rw [hl, List.filterMap_append] at hnd
      exact absurd h2 (List.disjoint_left.mp (List.nodup_append'.mp hnd).2.2 h1)
  · intro hge
    rcases hp with hp | hp
    · have hr := List.mem_map_of_mem (f := (·.1)) hp
      rw [map_fst_offsets] at hr
      have := (mem_keys.mp (List.mem_filterMap.mpr ⟨_, hr, hkey⟩)).2
      omega
    · exact (offsets_spec (fun r hr => hal r (List.mem_append_right _ hr)) hp).1

end Boundaries

/-! ### Protection -/

/-- A section of the image that must not be written: code, or data that is read-only, from the
start or after initialisation. -/
def Section.guarded (s : Section) : Bool :=
  s.alloc && (s.has shfExecinstr || !s.has shfWrite || s.has shfRoAfterInit)

def Section.unguarded (s : Section) : Bool :=
  s.alloc && s.has shfWrite && !s.has shfExecinstr && !s.has shfRoAfterInit

theorem guarded_passOf {elf : Elfio} {i : ℕ} (h : (elf.sec i).guarded = true) :
    (elf.sec i).alloc = true ∧ passOf (elf.flag i) < 3 := by
  rw [passOf_eq]
  revert h
  unfold Section.guarded
  cases (elf.sec i).has shfExecinstr <;> cases (elf.sec i).alloc <;>
    cases (elf.sec i).has shfWrite <;> cases (elf.sec i).has shfRoAfterInit <;> decide

theorem unguarded_passOf {elf : Elfio} {i : ℕ} (h : (elf.sec i).unguarded = true) :
    (elf.sec i).alloc = true ∧ 3 ≤ passOf (elf.flag i) := by
  rw [passOf_eq]
  revert h
  unfold Section.unguarded
  cases (elf.sec i).has shfExecinstr <;> cases (elf.sec i).alloc <;>
    cases (elf.sec i).has shfWrite <;> cases (elf.sec i).has shfRoAfterInit <;> decide

theorem exec_passOf {elf : Elfio} {i : ℕ} (ha : (elf.sec i).alloc = true)
    (hx : (elf.sec i).has shfExecinstr = true) : passOf (elf.flag i) < 1 := by
  rw [passOf_eq, ha, hx]
  exact Nat.one_pos

/-- The process after the image of the laid out module is made at `base` and protected. -/
def protectedImage (mod : Module) (base : Addr) (mc : Machine) : Machine :=
  let r := moveModule (layoutSections mod) (some base) mc
  (modProtect r.2.1 true r.2.2).2

/-- The protection of a page: executable below the boundary, writable from there to the end of the
image, and as before elsewhere. -/
theorem prot_protectedImage (mod : Module) (base q : Addr) (mc : Machine) :
    (protectedImage mod base mc).prot q =
      if (q - base).toNat < (layoutSections mod).layout.roAfterInitSize.toNat then Prot.readExec
      else if (q - base).toNat < (layoutSections mod).layout.totalSize.toNat then Prot.readWrite
      else mc.prot q := rfl

/-- The protection of the image at `base` follows the flags of the sections. -/
structure ProtectionFollowsFlags (mod : Module) (base : Addr) (mc : Machine) : Prop where
  ordered : (layoutSections mod).layout.textSize.toNat ≤
      (layoutSections mod).layout.roSize.toNat ∧
    (layoutSections mod).layout.roSize.toNat ≤
      (layoutSections mod).layout.roAfterInitSize.toNat ∧
    (layoutSections mod).layout.roAfterInitSize.toNat ≤
      (layoutSections mod).layout.totalSize.toNat
  page : 4096 ∣ (layoutSections mod).layout.roAfterInitSize.toNat
  text : ∀ i < mod.elf.size, (mod.elf.sec i).alloc = true →
    (mod.elf.sec i).has shfExecinstr = true →
    ((layoutSections mod).offset i).toNat + (mod.elf.sec i).size.toNat ≤
      (layoutSections mod).layout.textSize.toNat
  readOnly : ∀ i < mod.elf.size, (mod.elf.sec i).alloc = true →
    (mod.elf.sec i).has shfWrite = false ∨ (mod.elf.sec i).has shfRoAfterInit = true →
    ((layoutSections mod).offset i).toNat + (mod.elf.sec i).size.toNat ≤
      (layoutSections mod).layout.roAfterInitSize.toNat
  writable : ∀ i < mod.elf.size, (mod.elf.sec i).unguarded = true →
    (layoutSections mod).layout.roAfterInitSize.toNat ≤ ((layoutSections mod).offset i).toNat ∧
    ((layoutSections mod).offset i).toNat + (mod.elf.sec i).size.toNat ≤
      (layoutSections mod).layout.totalSize.toNat
  apart : ∀ i < mod.elf.size, ∀ j < mod.elf.size, (mod.elf.sec i).guarded = true →
    (mod.elf.sec j).unguarded = true →
    ∀ x ∈ range (base + (layoutSections mod).offset i) (mod.elf.sec i).size.toNat,
    ∀ y ∈ range (base + (layoutSections mod).offset j) (mod.elf.sec j).size.toNat,
    pageOf x ≠ pageOf y
  guardedPages : ∀ i < mod.elf.size, (mod.elf.sec i).guarded = true →
    ∀ x ∈ range (base + (layoutSections mod).offset i) (mod.elf.sec i).size.toNat,
    (protectedImage mod base mc).prot (pageOf x) = Prot.readExec
  unguardedPages : ∀ i < mod.elf.size, (mod.elf.sec i).unguarded = true →
    ∀ x ∈ range (base + (layoutSections mod).offset i) (mod.elf.sec i).size.toNat,
    (protectedImage mod base mc).prot (pageOf x) = Prot.readWrite
  exclusive : ∀ q, (q - base).toNat < (layoutSections mod).layout.totalSize.toNat →
    ((protectedImage mod base mc).prot q).write = false ∨
      ((protectedImage mod base mc).prot q).exec = false

section Pages

variable {mod : Module} {base : Addr}

theorem byte_bounds (hmod : mod.layout = Layout.zero) (hfit : LayoutFits mod.elf) {i : ℕ}
    (hi : i < mod.elf.size) (ha : (mod.elf.sec i).alloc = true) {x : Addr}
    (hx : x ∈ range (base + (layoutSections mod).offset i) (mod.elf.sec i).size.toNat) :
    ((layoutSections mod).offset i).toNat ≤ (x - base).toNat ∧
      (x - base).toNat <
        ((layoutSections mod).offset i).toNat + (mod.elf.sec i).size.toNat := by
  have := (offset_inside hmod hfit hi ha).1
  exact sub_mem_of_mem_range (by omega) hx

theorem guarded_below (hmod : mod.layout = Layout.zero) (hfit : LayoutFits mod.elf) {i : ℕ}
    (hi : i < mod.elf.size) (h : (mod.elf.sec i).guarded = true) :
    ((layoutSections mod).offset i).toNat + (mod.elf.sec i).size.toNat ≤
      total 0 (mod.elf.reqs 3) := by
  obtain ⟨ha, hp⟩ := guarded_passOf h
  exact (offset_bounds hmod hfit hi ha (by omega)).1 hp

theorem unguarded_above (hmod : mod.layout = Layout.zero) (hfit : LayoutFits mod.elf) {i : ℕ}
    (hi : i < mod.elf.size) (h : (mod.elf.sec i).unguarded = true) :
    total 0 (mod.elf.reqs 3) ≤ ((layoutSections mod).offset i).toNat := by
  obtain ⟨ha, hp⟩ := unguarded_passOf h
  exact (offset_bounds hmod hfit hi ha (by omega)).2 hp

theorem guarded_page (hmod : mod.layout = Layout.zero) (hfit : LayoutFits mod.elf)
    (hbase : 4096 ∣ base.toNat) {i : ℕ} (hi : i < mod.elf.size)
    (h : (mod.elf.sec i).guarded = true) {x : Addr}
    (hx : x ∈ range (base + (layoutSections mod).offset i) (mod.elf.sec i).size.toNat) :
    (pageOf x - base).toNat < total 0 (mod.elf.reqs 3) := by
  have hb := byte_bounds hmod hfit hi (guarded_passOf h).1 hx
  have := guarded_below hmod hfit hi h
  exact (pageOf_sub_lt hbase (page_dvd_total mod.elf) x).mpr (by omega)

theorem unguarded_page (hmod : mod.layout = Layout.zero) (hfit : LayoutFits mod.elf)
    (hbase : 4096 ∣ base.toNat) {i : ℕ} (hi : i < mod.elf.size)
    (h : (mod.elf.sec i).unguarded = true) {x : Addr}
    (hx : x ∈ range (base + (layoutSections mod).offset i) (mod.elf.sec i).size.toNat) :
    ¬ (pageOf x - base).toNat < total 0 (mod.elf.reqs 3) ∧
      (pageOf x - base).toNat < total 0 (mod.elf.reqs 5) := by
  have ha := (unguarded_passOf h).1
  have hb := byte_bounds hmod hfit hi ha hx
  have hu := unguarded_above hmod hfit hi h
  have hin := (offset_inside hmod hfit hi ha).1
  rw [totalSize_layoutSections hmod hfit] at hin
  refine ⟨fun hlt => ?_, pageOf_sub_lt_of_lt hbase (by omega)⟩
  have := (pageOf_sub_lt hbase (page_dvd_total mod.elf) x).mp hlt
  omega

end Pages

/-- **Memory protection follows section flags**, for an image at a page. -/
theorem protection_follows_flags {mod : Module} {base : Addr} (mc : Machine)
    (hmod : mod.layout = Layout.zero) (hfit : LayoutFits mod.elf) (hbase : 4096 ∣ base.toNat) :
    ProtectionFollowsFlags mod base mc := by
  obtain ⟨h1, h2, h3⟩ := bounds_eq_total hmod hfit
  have h5 := totalSize_layoutSections hmod hfit
  refine ⟨?_, h3 ▸ page_dvd_total mod.elf, fun i hi ha hx => ?_, fun i hi ha hw => ?_,
    fun i hi h => ?_, fun i hi j hj hp hu x hx y hy he => ?_, fun i hi h x hx => ?_,
    fun i hi h x hx => ?_, fun q hq => ?_⟩
  · rw [h1, h2, h3, h5]
    exact ⟨total_reqs_mono _ (by omega), total_reqs_mono _ (by omega),
      total_reqs_mono _ (by omega)⟩
  · rw [h1]
    exact (offset_bounds hmod hfit hi ha (by omega)).1 (exec_passOf ha hx)
  · rw [h3]
    refine guarded_below hmod hfit hi ?_
    rcases hw with hw | hw <;> simp [Section.guarded, ha, hw]
  · rw [h3]
    exact ⟨unguarded_above hmod hfit hi h,
      (offset_inside hmod hfit hi (unguarded_passOf h).1).1⟩
  · refine (unguarded_page hmod hfit hbase hj hu hy).1 ?_
    rw [← he]
    exact guarded_page hmod hfit hbase hi hp hx
  · rw [prot_protectedImage, h3, if_pos (guarded_page hmod hfit hbase hi h hx)]
  · obtain ⟨hl, hu⟩ := unguarded_page hmod hfit hbase hi h hx
    rw [prot_protectedImage, h3, h5, if_neg hl, if_pos hu]
  · rw [prot_protectedImage, if_pos hq]
    split
    · exact .inl rfl
    · exact .inr rfl

theorem protection_follows_flags_sample :
    ProtectionFollowsFlags (Module.fresh sampleElf) 0x20000
      ⟨fun _ => 0, fun _ => Prot.readWrite⟩ :=
  protection_follows_flags _ rfl (by decide) (by decide)

end Umko

import Umko.Layout.Extents

/-!
# The narrow variables of `layout_sections`

`layout_sections` reads sizes and alignments into 32 bits, and `align_as` rounds in 32 bits. What it
computes is the placement of the sections with their sizes and alignments cut, until the first
offset that does not fit. The extents that `move_module` copies have the 64-bit sizes:
`noExtentLost_iff` says when they stay inside the image.
-/

namespace Umko

open Lib.Memory Lib.Bump Lib.Loop

/-! ### Sections with their fields cut -/

/-- A section with the size and the alignment that the loop sees. -/
def Section.cut (s : Section) : Section :=
  { s with
    size := (s.size.setWidth 32).setWidth 64
    addrAlign := (s.addrAlign.setWidth 32).setWidth 64 }

def Elfio.cut (elf : Elfio) : Elfio := elf.map Section.cut

def Module.cut (mod : Module) : Module := { mod with elf := mod.elf.cut }

/-- The second argument of `align_as` in `get_offset`, for a section. -/
def Section.divisor (s : Section) : BitVec 32 :=
  let shAlign := (s.addrAlign.setWidth 32).setWidth 64
  (if shAlign ≠ (0 : BitVec 64) then shAlign else 1).setWidth 32

@[simp] theorem size_cut (elf : Elfio) : elf.cut.size = elf.size := by simp [Elfio.cut]

@[simp] theorem sec_cut (elf : Elfio) (i : ℕ) : elf.cut.sec i = (elf.sec i).cut := by
  have hd : Section.cut default = default := rfl
  simp only [Elfio.sec, Elfio.cut, Elfio.map, List.getD_eq_getElem?_getD, List.getElem?_map]
  cases elf.sections[i]? with
  | none => exact hd.symm
  | some s => rfl

@[simp] theorem flag_cut (elf : Elfio) (i : ℕ) : elf.cut.flag i = elf.flag i := by
  simp [Elfio.flag, Section.cut]

theorem setWidth_cut (x : BitVec 64) : ((x.setWidth 32).setWidth 64).setWidth 32 = x.setWidth 32 := by
  apply BitVec.eq_of_toNat_eq
  simp only [BitVec.toNat_setWidth]
  omega

theorem toNat_cut (x : BitVec 64) : ((x.setWidth 32).setWidth 64).toNat = x.toNat % 2 ^ 32 := by
  simp only [BitVec.toNat_setWidth]
  omega

theorem toNat_divisor (s : Section) : s.divisor.toNat = s.cut.align := by
  unfold Section.divisor Section.align Section.cut
  dsimp only
  by_cases h : (s.addrAlign.setWidth 32).setWidth 64 = (0 : BitVec 64)
  · simp [h]
  · rw [if_pos h, if_neg h, setWidth_cut, toNat_cut, BitVec.toNat_setWidth]

theorem layoutStep_cut (elf : Elfio) : layoutStep elf.cut = layoutStep elf := by
  funext mask st i
  unfold layoutStep
  simp only [sec_cut, Section.cut, setWidth_cut]

theorem layoutUpTo_cut (mod : Module) (m : ℕ) : layoutUpTo mod.cut m = layoutUpTo mod m := by
  unfold layoutUpTo layoutPass Module.cut
  simp only [layoutStep_cut, size_cut]

/-! ### The states of the loops -/

/-- The state in pass `m` before section `k`. -/
def layoutAt (mod : Module) (m k : ℕ) : LayoutState :=
  (List.range k).foldl (layoutStep mod.elf (masks.getD m (0, 0))) (layoutUpTo mod m)

theorem getD_masks {m : ℕ} {mask : BitVec 32 × BitVec 32} (h : masks[m]? = some mask) :
    masks.getD m (0, 0) = mask := by
  rw [List.getD_eq_getElem?_getD, h, Option.getD_some]

theorem layoutAt_succ (mod : Module) (m k : ℕ) :
    layoutAt mod m (k + 1) = layoutStep mod.elf (masks.getD m (0, 0)) (layoutAt mod m k) k := by
  rw [layoutAt, List.range_succ, List.foldl_append]
  rfl

theorem layoutAt_cut (mod : Module) (m k : ℕ) : layoutAt mod.cut m k = layoutAt mod m k := by
  unfold layoutAt
  rw [layoutUpTo_cut, show mod.cut.elf = mod.elf.cut from rfl, layoutStep_cut]

/-- **No extent is lost to narrowing**: the total does not decrease in a step of the loops, a section
starts at the total of its moment or after it, at the end the extent of every `SHF_ALLOC` section,
with its size of 64 bits, is inside the image, and no alignment is zero. -/
structure NoExtentLost (mod : Module) : Prop where
  section_le : ∀ m < 5, ∀ k < mod.elf.size,
    (layoutAt mod m k).layout.totalSize ≤ (layoutAt mod m (k + 1)).layout.totalSize
  switch_le : ∀ m < 5, (layoutAt mod m mod.elf.size).layout.totalSize ≤
    (layoutUpTo mod (m + 1)).layout.totalSize
  start_le : ∀ m < 5, ∀ k < mod.elf.size, (layoutAt mod m (k + 1)).placed ≠
    (layoutAt mod m k).placed → (layoutAt mod m k).layout.totalSize ≤
      ((layoutAt mod m (k + 1)).vsec.getD k ⟨0⟩).offset
  inside : ∀ i < mod.elf.size, (mod.elf.sec i).alloc = true →
    ((layoutSections mod).offset i).toNat + (mod.elf.sec i).size.toNat ≤
      (layoutSections mod).layout.totalSize.toNat
  divisor_ne : ∀ i < mod.elf.size, (mod.elf.sec i).divisor ≠ 0

/-- The placement of the cut sections: every offset fits 32 bits, the page rounding included, and
what is cut off the size of a section, a multiple of `2 ^ 32`, is at most what is placed after it. -/
structure NarrowFits (elf : Elfio) : Prop where
  offset_lt : ∀ p ∈ offsets 0 (elf.cut.reqs 5), p.2 < 2 ^ 32
  room : ∀ p ∈ offsets 0 (elf.cut.reqs 5), ∀ i ∈ p.1.key,
    (elf.sec i).size.toNat / 2 ^ 32 * 2 ^ 32 ≤ total 0 (elf.cut.reqs 5) - (p.2 + p.1.size)

/-- The same for one section: what is cut off its size is at most what is placed after it. -/
structure SectionFits (elf : Elfio) (i : ℕ) : Prop where
  offset_lt : ∀ p ∈ offsets 0 (elf.cut.reqs 5), p.2 < 2 ^ 32
  room : ∀ p ∈ offsets 0 (elf.cut.reqs 5), i ∈ p.1.key →
    (elf.sec i).size.toNat / 2 ^ 32 * 2 ^ 32 ≤ total 0 (elf.cut.reqs 5) - (p.2 + p.1.size)

theorem NarrowFits.sectionFits {elf : Elfio} (h : NarrowFits elf) (i : ℕ) : SectionFits elf i :=
  ⟨h.offset_lt, fun p hp hi => h.room p hp i hi⟩

/-! ### Rounding in 32 bits -/

/-- **`align_as` does not go below its argument** when the rounded number fits 32 bits; when it does
not, it wraps below the argument. -/
theorem le_alignAs_iff {t : BitVec 64} {a : BitVec 32} (ha : 0 < a.toNat) :
    t ≤ (alignAs (t.setWidth 32) a).setWidth 64 ↔ alignUp t.toNat a.toNat < 2 ^ 32 := by
  have hlt := (alignAs (t.setWidth 32) a).isLt
  have hle := le_alignUp (x := t.toNat) ha
  have ha32 := a.isLt
  rw [BitVec.le_def, BitVec.toNat_setWidth, Nat.mod_eq_of_lt (by omega)]
  constructor
  · intro h
    by_contra hge
    have htw : (t.setWidth 32).toNat = t.toNat := by
      rw [BitVec.toNat_setWidth, Nat.mod_eq_of_lt (by omega)]
    have hx : ¬ t.toNat % a.toNat = 0 := by
      intro h0
      rw [alignUp, if_pos h0] at hge
      omega
    have hx0 : ¬ t.setWidth 32 % a = 0 := by
      rw [← BitVec.toNat_inj, BitVec.toNat_umod, htw]
      exact hx
    have ha2 : 2 ≤ a.toNat := by
      by_contra h1
      obtain h1 : a.toNat = 1 := by omega
      rw [h1, Nat.mod_one] at hx
      exact hx rfl
    have hq : t.toNat / a.toNat + 1 < 2 ^ 32 := by
      have hhalf : t.toNat / a.toNat ≤ t.toNat / 2 := Nat.div_le_div_left ha2 (by omega)
      omega
    have hval : (alignAs (t.setWidth 32) a).toNat =
        (t.toNat / a.toNat + 1) * a.toNat % 2 ^ 32 := by
      unfold alignAs
      simp only [hx0, if_false]
      rw [BitVec.toNat_mul, BitVec.toNat_add, BitVec.toNat_udiv, htw, show (1 : BitVec 32).toNat = 1
        from rfl, Nat.mod_eq_of_lt hq]
    have hup : alignUp t.toNat a.toNat = (t.toNat / a.toNat + 1) * a.toNat := if_neg hx
    rw [hup] at hge
    have hdiv := Nat.div_add_mod t.toNat a.toNat
    have hmod := Nat.mod_lt t.toNat ha
    have hprod : (t.toNat / a.toNat + 1) * a.toNat = a.toNat * (t.toNat / a.toNat) + a.toNat := by
      ring
    omega
  · intro h
    have htw : (t.setWidth 32).toNat = t.toNat := by
      rw [BitVec.toNat_setWidth, Nat.mod_eq_of_lt (by omega)]
    rw [toNat_alignAs ha (by rwa [htw]), htw]
    exact hle

/-! ### The run below the first offset that does not fit -/

section Run

variable {mod : Module}

theorem size_lt_of_mem_cut {elf : Elfio} {m : ℕ} {r : Req (Option ℕ)} (hr : r ∈ elf.cut.reqs m) :
    r.size < 2 ^ 32 := by
  rcases mem_reqs.mp hr with ⟨i, -, -, rfl⟩ | ⟨-, rfl⟩
  · show (elf.cut.sec i).size.toNat < 2 ^ 32
    rw [sec_cut]
    exact (toNat_cut (elf.sec i).size).trans_lt (Nat.mod_lt _ (by omega))
  · exact Nat.two_pow_pos 32

theorem below_cut {elf : Elfio} (h : ∀ p ∈ offsets 0 (elf.cut.reqs 5), p.2 < 2 ^ 32) :
    Below (2 ^ 32) (elf.cut.reqs 5) := by
  intro p hp
  refine ⟨h p hp, @size_lt_of_mem_cut elf 5 _ ?_⟩
  rw [← map_fst_offsets 0 (elf.cut.reqs 5)]
  exact List.mem_map_of_mem hp

theorem below_cut_reqs {elf : Elfio} (h : Below (2 ^ 32) (elf.cut.reqs 5)) {m k : ℕ} (hm : m < 5)
    (hk : k ≤ elf.size) : Below (2 ^ 32) (elf.cut.reqs m ++ elf.cut.passReqs m k) := by
  obtain ⟨l, hl⟩ := reqs_split elf.cut (k := k) hm (by rwa [size_cut])
  rw [hl] at h
  exact h.left

theorem layoutAt_placed (hmod : mod.layout = Layout.zero) {m k : ℕ} (hm : m < 5)
    (hk : k ≤ mod.elf.size)
    (hbelow : Below (2 ^ 32) (mod.elf.cut.reqs m ++ mod.elf.cut.passReqs m k)) :
    Placed mod.elf.cut (mod.elf.cut.reqs m ++ mod.elf.cut.passReqs m k) (layoutAt mod m k) := by
  obtain ⟨mask, hmask⟩ := getElem?_masks hm
  rw [← layoutAt_cut, layoutAt, getD_masks hmask]
  exact innerLoop_placed hmask (by rwa [size_cut])
    hbelow (@layoutUpTo_placed_of_below mod.cut hmod _ hm.le hbelow.left)

theorem layoutAt_place (hmod : mod.layout = Layout.zero) {m k : ℕ} (hm : m < 5)
    (hk : k < mod.elf.size) (heq : passOf (mod.elf.flag k) = m)
    (hbelow : Below (2 ^ 32) (mod.elf.cut.reqs m ++ mod.elf.cut.passReqs m k)) :
    layoutAt mod m (k + 1) =
      let st := layoutAt mod m k
      let r := getOffset (((mod.elf.sec k).addrAlign.setWidth 32).setWidth 64)
        (((mod.elf.sec k).size.setWidth 32).setWidth 64) st.layout.totalSize
      ⟨st.vsec.set k ⟨r.1⟩, { st.layout with totalSize := r.2 }, st.placed ++ [k]⟩ := by
  obtain ⟨mask, hmask⟩ := getElem?_masks hm
  rw [layoutAt_succ, getD_masks hmask]
  refine layoutStep_place (takes_of_passOf hmask heq) ?_
  refine (layoutAt_placed hmod hm hk.le hbelow).rest k (by rwa [size_cut]) fun r hr hkey => ?_
  have := passOf_lt_of_key hr hkey
  rw [flag_cut] at this
  omega

theorem layoutAt_skip (hmod : mod.layout = Layout.zero) {m k : ℕ} (hm : m < 5)
    (hk : k < mod.elf.size) (hne : passOf (mod.elf.flag k) ≠ m)
    (hbelow : Below (2 ^ 32) (mod.elf.cut.reqs m ++ mod.elf.cut.passReqs m k)) :
    layoutAt mod m (k + 1) = layoutAt mod m k := by
  obtain ⟨mask, hmask⟩ := getElem?_masks hm
  rw [layoutAt_succ, getD_masks hmask, ← layoutStep_cut]
  exact (layoutAt_placed hmod hm hk.le hbelow).skip hmask hbelow (by rwa [size_cut])
    (by rwa [flag_cut])

theorem offset_layoutAt_place (hmod : mod.layout = Layout.zero) {m k : ℕ} (hm : m < 5)
    (hk : k < mod.elf.size) (heq : passOf (mod.elf.flag k) = m)
    (hbelow : Below (2 ^ 32) (mod.elf.cut.reqs m ++ mod.elf.cut.passReqs m k)) :
    ((layoutAt mod m (k + 1)).vsec.getD k ⟨0⟩).offset =
      (alignAs ((layoutAt mod m k).layout.totalSize.setWidth 32)
        (mod.elf.sec k).divisor).setWidth 64 := by
  have hlen := (layoutAt_placed hmod hm hk.le hbelow).length
  rw [size_cut] at hlen
  rw [layoutAt_place hmod hm hk heq hbelow]
  simp [List.getD_eq_getElem?_getD, hlen, hk, getOffset, Section.divisor]

theorem start_le_iff (hmod : mod.layout = Layout.zero) {m k : ℕ} (hm : m < 5)
    (hk : k < mod.elf.size) (heq : passOf (mod.elf.flag k) = m)
    (hbelow : Below (2 ^ 32) (mod.elf.cut.reqs m ++ mod.elf.cut.passReqs m k)) :
    (layoutAt mod m k).layout.totalSize ≤
        ((layoutAt mod m (k + 1)).vsec.getD k ⟨0⟩).offset ↔
      alignUp (total 0 (mod.elf.cut.reqs m ++ mod.elf.cut.passReqs m k))
        (mod.elf.cut.req k).align < 2 ^ 32 := by
  have hdiv : (mod.elf.sec k).divisor.toNat = (mod.elf.cut.req k).align := by
    rw [toNat_divisor, ← sec_cut]
    rfl
  rw [offset_layoutAt_place hmod hm hk heq hbelow, le_alignAs_iff, hdiv,
    (layoutAt_placed hmod hm hk.le hbelow).totalSize]
  rw [hdiv]
  exact Section.align_pos _

theorem switch_le_iff (hmod : mod.layout = Layout.zero)
    (hbelow : Below (2 ^ 32) (mod.elf.cut.reqs 2 ++ mod.elf.cut.passReqs 2 mod.elf.size)) :
    (layoutAt mod 2 mod.elf.size).layout.totalSize ≤ (layoutUpTo mod 3).layout.totalSize ↔
      alignUp (total 0 (mod.elf.cut.reqs 2 ++ mod.elf.cut.passReqs 2 mod.elf.size)) 4096 <
        2 ^ 32 := by
  rw [← (layoutAt_placed hmod (by omega) le_rfl hbelow).totalSize]
  exact le_alignAs_iff (a := 4096) (by decide)

theorem switch_eq {m : ℕ} (hm : m < 5) (h2 : m ≠ 2) :
    (layoutUpTo mod (m + 1)).layout.totalSize =
      (layoutAt mod m mod.elf.size).layout.totalSize := by
  obtain ⟨mask, hmask⟩ := getElem?_masks hm
  rw [layoutUpTo_succ mod hmask, layoutPass, layoutAt, getD_masks hmask]
  unfold layoutSwitch
  split <;> first | rfl | exact absurd rfl h2

end Run

/-! ### When no extent is lost -/

section Iff

variable {mod : Module}

theorem below_of_noExtentLost (hmod : mod.layout = Layout.zero) (h : NoExtentLost mod) {m : ℕ}
    (hm : m ≤ 5) : Below (2 ^ 32) (mod.elf.cut.reqs m) := by
  induction m with
  | zero => exact fun p hp => by cases hp
  | succ m ih =>
    have hpass : ∀ k ≤ mod.elf.size,
        Below (2 ^ 32) (mod.elf.cut.reqs m ++ mod.elf.cut.passReqs m k) := by
      intro k
      induction k with
      | zero =>
        intro _
        rw [show mod.elf.cut.passReqs m 0 = [] from rfl, List.append_nil]
        exact ih (by omega)
      | succ k ihk =>
        intro hk
        have hbelow := ihk (by omega)
        rw [passReqs_succ, ← List.append_assoc, flag_cut]
        by_cases heq : passOf (mod.elf.flag k) = m
        · rw [if_pos heq]
          have hne : (layoutAt mod m (k + 1)).placed ≠ (layoutAt mod m k).placed := by
            rw [layoutAt_place hmod hm hk heq hbelow]
            simp
          refine below_append_singleton.mpr ⟨hbelow, ?_, ?_⟩
          · exact (start_le_iff hmod hm hk heq hbelow).mp (h.start_le m hm k hk hne)
          · refine size_lt_of_mem_cut (m := m + 1) (mem_reqs.mpr (.inl ⟨k, ?_, ?_, rfl⟩))
            · rwa [size_cut]
            · rw [flag_cut]
              omega
        · rw [if_neg heq, List.append_nil]
          exact hbelow
    have hlast := hpass mod.elf.size le_rfl
    rw [Elfio.reqs, size_cut]
    by_cases h2 : m = 2
    · subst h2
      rw [if_pos rfl]
      refine below_append_singleton.mpr ⟨hlast, ?_, Nat.two_pow_pos 32⟩
      exact (switch_le_iff hmod hlast).mp (h.switch_le 2 hm)
    · rw [if_neg h2, List.append_nil]
      exact hlast

theorem layoutRun_placed_cut (hmod : mod.layout = Layout.zero)
    (hbelow : Below (2 ^ 32) (mod.elf.cut.reqs 5)) :
    Placed mod.elf.cut (mod.elf.cut.reqs 5) (layoutRun mod) := by
  rw [← layoutUpTo_five, ← layoutUpTo_cut]
  exact @layoutUpTo_placed_of_below mod.cut hmod _ le_rfl hbelow

theorem exists_offset_cut (hmod : mod.layout = Layout.zero)
    (hbelow : Below (2 ^ 32) (mod.elf.cut.reqs 5)) {i : ℕ} (hi : i < mod.elf.size)
    (ha : (mod.elf.sec i).alloc = true) :
    (mod.elf.cut.req i, ((layoutSections mod).offset i).toNat) ∈
      offsets 0 (mod.elf.cut.reqs 5) := by
  have hr : mod.elf.cut.req i ∈ mod.elf.cut.reqs 5 := by
    refine mem_reqs.mpr (.inl ⟨i, by rwa [size_cut], ?_, rfl⟩)
    rw [flag_cut]
    exact (alloc_iff_passOf_lt _ i).mp ha
  rw [← map_fst_offsets 0 (mod.elf.cut.reqs 5)] at hr
  obtain ⟨p, hp, hpr⟩ := List.mem_map.mp hr
  have ho := (layoutRun_placed_cut hmod hbelow).offset p hp i (by rw [hpr]; rfl)
  rw [offset_layoutSections, ho, ← hpr]
  exact hp

theorem inside_iff {elf : Elfio} {i : ℕ} {o t : ℕ} (h : o + (elf.cut.req i).size ≤ t) :
    o + (elf.sec i).size.toNat ≤ t ↔
      (elf.sec i).size.toNat / 2 ^ 32 * 2 ^ 32 ≤ t - (o + (elf.cut.req i).size) := by
  have hsize : (elf.cut.req i).size = (elf.sec i).size.toNat % 2 ^ 32 := by
    rw [← toNat_cut]
    show (elf.cut.sec i).size.toNat = _
    rw [sec_cut]
    rfl
  rw [hsize] at h ⊢
  omega

theorem SectionFits.inside {i : ℕ} (h : SectionFits mod.elf i) (hmod : mod.layout = Layout.zero)
    (hi : i < mod.elf.size) (ha : (mod.elf.sec i).alloc = true) :
    ((layoutSections mod).offset i).toNat + (mod.elf.sec i).size.toNat ≤
      (layoutSections mod).layout.totalSize.toNat := by
  have hbelow := below_cut h.offset_lt
  have hp := exists_offset_cut hmod hbelow hi ha
  have hend := (offsets_spec (aligned_reqs mod.elf.cut 5) hp).2.1
  have htot : (layoutSections mod).layout.totalSize.toNat = total 0 (mod.elf.cut.reqs 5) :=
    (layoutRun_placed_cut hmod hbelow).totalSize
  rw [htot]
  exact (inside_iff hend).mpr (h.room _ hp rfl)

theorem NoExtentLost.narrowFits (h : NoExtentLost mod) (hmod : mod.layout = Layout.zero) :
    NarrowFits mod.elf := by
  have hbelow := below_of_noExtentLost hmod h le_rfl
  refine ⟨fun p hp => (hbelow p hp).1, fun p hp i hi => ?_⟩
  have hr : p.1 ∈ mod.elf.cut.reqs 5 := by
    rw [← map_fst_offsets 0 (mod.elf.cut.reqs 5)]
    exact List.mem_map_of_mem hp
  obtain ⟨j, hj, hpass, hreq⟩ | ⟨-, hreq⟩ := mem_reqs.mp hr
  · obtain rfl : j = i := by
      rw [hreq] at hi
      exact Option.some.inj hi
    rw [size_cut] at hj
    rw [flag_cut] at hpass
    have hin := h.inside j hj ((alloc_iff_passOf_lt _ j).mpr hpass)
    have ho := (layoutRun_placed_cut hmod hbelow).offset p hp j hi
    rw [offset_layoutSections, ho] at hin
    have hend := (offsets_spec (aligned_reqs mod.elf.cut 5) hp).2.1
    rw [hreq] at hend ⊢
    refine (inside_iff hend).mp ?_
    rw [← (layoutRun_placed_cut hmod hbelow).totalSize]
    exact hin
  · rw [hreq] at hi
    cases hi

theorem NarrowFits.below (h : NarrowFits mod.elf) {m k : ℕ} (hm : m < 5) (hk : k ≤ mod.elf.size) :
    Below (2 ^ 32) (mod.elf.cut.reqs m ++ mod.elf.cut.passReqs m k) :=
  below_cut_reqs (below_cut h.offset_lt) hm hk

theorem NarrowFits.section_le (h : NarrowFits mod.elf) (hmod : mod.layout = Layout.zero) {m k : ℕ}
    (hm : m < 5) (hk : k < mod.elf.size) :
    (layoutAt mod m k).layout.totalSize ≤ (layoutAt mod m (k + 1)).layout.totalSize := by
  have h1 := (layoutAt_placed hmod hm hk.le (h.below hm hk.le)).totalSize
  have h2 := (layoutAt_placed (k := k + 1) hmod hm hk (h.below hm hk)).totalSize
  rw [passReqs_succ, ← List.append_assoc, total_append] at h2
  rw [BitVec.le_def, h1, h2]
  refine le_total fun r hr => ?_
  split at hr
  · rw [List.mem_singleton.mp hr]
    exact Section.align_pos _
  · cases hr

theorem NarrowFits.switch_le (h : NarrowFits mod.elf) (hmod : mod.layout = Layout.zero) {m : ℕ}
    (hm : m < 5) : (layoutAt mod m mod.elf.size).layout.totalSize ≤
      (layoutUpTo mod (m + 1)).layout.totalSize := by
  by_cases h2 : m = 2
  · subst h2
    refine (switch_le_iff hmod (h.below hm le_rfl)).mpr ?_
    have hnext : Below (2 ^ 32) (mod.elf.cut.reqs 3) :=
      (h.below (m := 3) (k := 0) (by omega) (Nat.zero_le _)).left
    rw [Elfio.reqs, size_cut, if_pos rfl] at hnext
    exact (below_append_singleton.mp hnext).2.1
  · rw [switch_eq hm h2]
    exact BitVec.le_refl _

theorem NarrowFits.start_le (h : NarrowFits mod.elf) (hmod : mod.layout = Layout.zero) {m k : ℕ}
    (hm : m < 5) (hk : k < mod.elf.size)
    (hne : (layoutAt mod m (k + 1)).placed ≠ (layoutAt mod m k).placed) :
    (layoutAt mod m k).layout.totalSize ≤
      ((layoutAt mod m (k + 1)).vsec.getD k ⟨0⟩).offset := by
  by_cases heq : passOf (mod.elf.flag k) = m
  · have hnext := h.below hm (k := k + 1) hk
    rw [passReqs_succ, ← List.append_assoc, flag_cut, if_pos heq] at hnext
    exact (start_le_iff hmod hm hk heq (h.below hm hk.le)).mpr
      (below_append_singleton.mp hnext).2.1
  · rw [layoutAt_skip hmod hm hk heq (h.below hm hk.le)] at hne
    exact absurd rfl hne

/-- **When no extent is lost to narrowing**: exactly when the placement of the cut sections fits. -/
theorem noExtentLost_iff (hmod : mod.layout = Layout.zero) :
    NoExtentLost mod ↔ NarrowFits mod.elf := by
  refine ⟨fun h => h.narrowFits hmod, fun h => ?_⟩
  refine ⟨fun m hm k hk => h.section_le hmod hm hk, fun m hm => h.switch_le hmod hm,
    fun m hm k hk hne => h.start_le hmod hm hk hne, fun i hi ha => (h.sectionFits i).inside hmod hi ha,
    fun i hi hz => ?_⟩
  have hpos := (mod.elf.sec i).cut.align_pos
  rw [← toNat_divisor, hz] at hpos
  exact absurd hpos (by decide)

end Iff

/-- The sections of the sample. -/
theorem noExtentLost_iff_sample :
    NoExtentLost (Module.fresh sampleElf) ↔ NarrowFits sampleElf :=
  noExtentLost_iff rfl

def wideElf : Elfio := ⟨[default,
  { (default : Section) with type := 1, flags := 3, offset := 0x40, size := 8, addrAlign := 8 },
  { (default : Section) with type := 8, flags := 3, size := 0x100000000, addrAlign := 32 }],
  by decide⟩

/-- The size of the zeroed data is cut to 0: it ends behind the image. -/
theorem not_noExtentLost_wide :
    total 0 (wideElf.reqs 5) < 2 ^ 64 ∧ ¬ NoExtentLost (Module.fresh wideElf) := by
  refine ⟨by decide, fun h => ?_⟩
  exact absurd (h.inside 2 (by decide) (by decide)) (by decide)

end Umko

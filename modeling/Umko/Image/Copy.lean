import Umko.Image.Defs
import Umko.Layout.Extents

/-!
# The image is a copy of the object

The loop of `move_module` copies one section after another out of the mapping of the file. A copy
damages neither the copies before it, since the layout keeps the sections apart, nor the sources of
the copies after it, since the image does not meet the file.
-/

namespace Umko

open Lib.Memory Lib.Bump Lib.Loop

/-! ### The loop -/

/-- The sections that the loop copies: those in the image with contents in the file. -/
def Elfio.Copies (elf : Elfio) (i : ℕ) : Prop :=
  (elf.sec i).alloc = true ∧ (elf.sec i).type ≠ shtNobits

instance (elf : Elfio) (i : ℕ) : Decidable (elf.Copies i) := inferInstanceAs (Decidable (_ ∧ _))

theorem alloc_eq_false_iff (elf : Elfio) (i : ℕ) :
    (elf.sec i).flags.setWidth 32 &&& shfAlloc = 0 ↔ (elf.sec i).alloc = false := by
  have h := flag_and elf i (show 1 < 32 by omega)
  rw [show BitVec.twoPow 32 1 = shfAlloc by decide] at h
  exact h.2

/-- The extent of section `i` of an image at `base`. -/
def extent (elf : Elfio) (base : Addr) (vsec : List SectionLayout) (i : ℕ) : Set Addr :=
  range (base + (vsec.getD i ⟨0⟩).offset) (elf.sec i).size.toNat

/-- **The section table after the first `n` rounds of the loop**: the sections of the image below `n`
have their addresses in it. -/
structure Moved (elf : Elfio) (base : Addr) (vsec : List SectionLayout) (n : ℕ) (e : Elfio) :
    Prop where
  size : e.size = elf.size
  sec : ∀ j, e.sec j = if j < n ∧ (elf.sec j).alloc = true
    then { elf.sec j with address := base + (vsec.getD j ⟨0⟩).offset } else elf.sec j

/-- **What the first `n` rounds of the loop leave**: `m` is the memory before the `memset`, `elf` the
section table before the loop. -/
structure Copied (m : Mem) (elf : Elfio) (base : Addr) (vsec : List SectionLayout) (total n : ℕ)
    (st : Mem × Elfio) : Prop extends Moved elf base vsec n st.2 where
  outside : ∀ x ∉ range base total, st.1 x = m x
  bytes : ∀ j < n, elf.Copies j → ∀ x ∈ extent elf base vsec j,
    st.1 x = m ((elf.sec j).address + (x - (base + (vsec.getD j ⟨0⟩).offset)))
  zero : ∀ x ∈ range base total, (∀ j < n, elf.Copies j → x ∉ extent elf base vsec j) → st.1 x = 0

/-- What the loop needs of the layout and the two mappings. -/
structure Separate (elf : Elfio) (base : Addr) (vsec : List SectionLayout) (total : ℕ) : Prop where
  inside : ∀ i < elf.size, (elf.sec i).alloc = true → extent elf base vsec i ⊆ range base total
  disjoint : ∀ i < elf.size, ∀ j < elf.size, i ≠ j → (elf.sec i).alloc = true →
    (elf.sec j).alloc = true → Disjoint (extent elf base vsec i) (extent elf base vsec j)
  source : ∀ i < elf.size, elf.Copies i →
    Disjoint (range (elf.sec i).address (elf.sec i).size.toNat) (range base total)

section Loop

variable {m : Mem} {elf : Elfio} {base : Addr} {vsec : List SectionLayout} {total : ℕ}

theorem copied_zero : Copied m elf base vsec total 0 (memset m base 0 total, elf) where
  size := rfl
  sec j := by simp
  outside x hx := memset_of_notMem hx
  bytes j hj := absurd hj (Nat.not_lt_zero j)
  zero x hx _ := memset_of_mem hx

theorem Moved.skip {i : ℕ} {e : Elfio} (h : Moved elf base vsec i e)
    (ha : (elf.sec i).alloc = false) : Moved elf base vsec (i + 1) e where
  size := h.size
  sec j := by
    rw [h.sec j]
    by_cases hj : j = i
    · subst hj; simp [ha]
    · have : j < i + 1 ↔ j < i := by omega
      simp only [this]

theorem Moved.set {i : ℕ} {e : Elfio} (h : Moved elf base vsec i e) (hi : i < elf.size)
    (ha : (elf.sec i).alloc = true) :
    Moved elf base vsec (i + 1) (e.setAddress i (base + (vsec.getD i ⟨0⟩).offset)) where
  size := by simpa using h.size
  sec j := by
    rw [Elfio.sec_setAddress (by rw [h.size]; exact hi), h.sec i, h.sec j]
    by_cases hj : j = i
    · subst hj; simp [ha]
    · have : j < i + 1 ↔ j < i := by omega
      simp only [this, if_neg hj]

theorem Moved.sec_self {i : ℕ} {e : Elfio} (h : Moved elf base vsec i e) : e.sec i = elf.sec i := by
  rw [h.sec i, if_neg (by omega)]

theorem moveStep_moved {i : ℕ} {st : Mem × Elfio} (hi : i < elf.size)
    (h : Moved elf base vsec i st.2) : Moved elf base vsec (i + 1) (moveStep base vsec st i).2 := by
  unfold moveStep
  simp only [h.sec_self, alloc_eq_false_iff]
  cases ha : (elf.sec i).alloc with
  | false => exact h.skip ha
  | true => exact h.set hi ha

/-- **The section table after the loop**, whatever the layout. -/
theorem moveLoop_moved (mem : Mem) : Moved elf base vsec elf.size
    ((List.range elf.size).foldl (moveStep base vsec) (mem, elf)).2 :=
  foldl_range_inv (fun n (st : Mem × Elfio) => Moved elf base vsec n st.2) elf.size
    ⟨rfl, fun j => by simp⟩ fun _ hi _ ht => moveStep_moved hi ht

theorem Copied.skip {i : ℕ} {st : Mem × Elfio} (h : Copied m elf base vsec total i st)
    (ha : (elf.sec i).alloc = false) : Copied m elf base vsec total (i + 1) st where
  toMoved := h.toMoved.skip ha
  outside := h.outside
  bytes j hj hc := by
    rcases Nat.lt_succ_iff_lt_or_eq.mp hj with hj | rfl
    · exact h.bytes j hj hc
    · rw [hc.1] at ha; cases ha
  zero x hx hn := h.zero x hx fun j hj => hn j (by omega)

theorem Copied.copy {i : ℕ} {st : Mem × Elfio} {mem : Mem} (hs : Separate elf base vsec total)
    (hi : i < elf.size) (ha : (elf.sec i).alloc = true) (h : Copied m elf base vsec total i st)
    (hkeep : ∀ x, (elf.Copies i → x ∉ extent elf base vsec i) → mem x = st.1 x)
    (hnew : elf.Copies i → ∀ x ∈ extent elf base vsec i,
      mem x = st.1 ((elf.sec i).address + (x - (base + (vsec.getD i ⟨0⟩).offset)))) :
    Copied m elf base vsec total (i + 1)
      (mem, st.2.setAddress i (base + (vsec.getD i ⟨0⟩).offset)) where
  toMoved := h.toMoved.set hi ha
  outside x hx :=
    (hkeep x fun _ hx' => hx (hs.inside i hi ha hx')).trans (h.outside x hx)
  bytes j hj hc x hx := by
    rcases Nat.lt_succ_iff_lt_or_eq.mp hj with hj | rfl
    · have hd := hs.disjoint j (by omega) i hi (by omega) hc.1 ha
      exact (hkeep x fun _ => Set.disjoint_left.mp hd hx).trans (h.bytes j hj hc x hx)
    · refine (hnew hc x hx).trans (h.outside _ (Set.disjoint_left.mp (hs.source j hi hc) ?_))
      rw [mem_range, BitVec.add_comm, BitVec.add_sub_cancel]
      exact hx
  zero x hx hn :=
    (hkeep x (hn i (Nat.lt_succ_self i))).trans (h.zero x hx fun j hj => hn j (by omega))

theorem moveStep_copied {i : ℕ} {st : Mem × Elfio} (hs : Separate elf base vsec total)
    (hi : i < elf.size) (h : Copied m elf base vsec total i st) :
    Copied m elf base vsec total (i + 1) (moveStep base vsec st i) := by
  unfold moveStep
  simp only [h.sec_self, alloc_eq_false_iff]
  cases ha : (elf.sec i).alloc with
  | false => exact h.skip ha
  | true =>
    by_cases ht : (elf.sec i).type = shtNobits
    · simp only [ht, ne_eq, not_true_eq_false, if_false, Bool.true_eq_false]
      exact h.copy hs hi ha (fun _ _ => rfl) fun hc => absurd ht hc.2
    · simp only [ht, ne_eq, not_false_eq_true, if_true, if_false, Bool.true_eq_false]
      exact h.copy hs hi ha (fun x hx => memcpy_of_notMem (hx ⟨ha, ht⟩))
        fun _ x hx => memcpy_of_mem hx

/-- **The loop of `move_module`.** -/
theorem moveLoop_copied (hs : Separate elf base vsec total) :
    Copied m elf base vsec total elf.size
      ((List.range elf.size).foldl (moveStep base vsec) (memset m base 0 total, elf)) :=
  foldl_range_inv (Copied m elf base vsec total) elf.size copied_zero
    fun _ hi _ ht => moveStep_copied hs hi ht

end Loop

/-! ### Layouts -/

/-- The sections of the image lie in it, one beside the other. -/
structure LaidOut (mod : Module) : Prop where
  inside : ∀ i < mod.elf.size, (mod.elf.sec i).alloc = true →
    (mod.offset i).toNat + (mod.elf.sec i).size.toNat ≤ mod.layout.totalSize.toNat
  disjoint : ∀ i < mod.elf.size, ∀ j < mod.elf.size, i ≠ j →
    (mod.elf.sec i).alloc = true → (mod.elf.sec j).alloc = true →
    (mod.offset i).toNat + (mod.elf.sec i).size.toNat ≤ (mod.offset j).toNat ∨
      (mod.offset j).toNat + (mod.elf.sec j).size.toNat ≤ (mod.offset i).toNat

theorem laidOut_layoutSections {mod : Module} (hmod : mod.layout = Layout.zero)
    (hfit : LayoutFits mod.elf) : LaidOut (layoutSections mod) where
  inside _ hi ha := (offset_inside hmod hfit hi ha).1
  disjoint _ hi _ hj hij hai haj := offset_disjoint hmod hfit hi hj hij hai haj

theorem LaidOut.separate {mod : Module} (h : LaidOut mod) {base : Addr}
    (hsrc : ∀ i < mod.elf.size, mod.elf.Copies i →
      Disjoint (range (mod.elf.sec i).address (mod.elf.sec i).size.toNat)
        (range base mod.layout.totalSize.toNat)) :
    Separate mod.elf base mod.secLayout mod.layout.totalSize.toNat := by
  have htot := mod.layout.totalSize.isLt
  refine ⟨fun i hi ha => range_subset (h.inside i hi ha), fun i hi j hj hij hai haj => ?_, hsrc⟩
  have hi1 := h.inside i hi hai
  have hj1 := h.inside j hj haj
  exact disjoint_range_add (Nat.le_trans hi1 (by omega)) (Nat.le_trans hj1 (by omega))
    (h.disjoint i hi j hj hij hai haj)

/-! ### The section table before the loop -/

section InitSectionAddr

variable (mod : Module)

@[simp] theorem size_initSectionAddr : (initSectionAddr mod).elf.size = mod.elf.size :=
  Elfio.size_map _

theorem sec_initSectionAddr {i : ℕ} (hi : i < mod.elf.size) : (initSectionAddr mod).elf.sec i =
    { mod.elf.sec i with address := mod.elfAddr + (mod.elf.sec i).offset } :=
  Elfio.sec_map _ hi

theorem copies_initSectionAddr {i : ℕ} (hi : i < mod.elf.size) :
    (initSectionAddr mod).elf.Copies i ↔ mod.elf.Copies i := by
  unfold Elfio.Copies
  rw [sec_initSectionAddr mod hi]
  rfl

theorem extent_initSectionAddr {i : ℕ} (hi : i < mod.elf.size) (base : Addr)
    (vsec : List SectionLayout) : extent (initSectionAddr mod).elf base vsec i =
      range (base + (vsec.getD i ⟨0⟩).offset) (mod.elf.sec i).size.toNat := by
  rw [extent, sec_initSectionAddr mod hi]

theorem reqs_initSectionAddr (m : ℕ) : (initSectionAddr mod).elf.reqs m = mod.elf.reqs m := by
  have hsec : ∀ i < mod.elf.size, (initSectionAddr mod).elf.flag i = mod.elf.flag i ∧
      (initSectionAddr mod).elf.req i = mod.elf.req i := by
    intro i hi
    simp [Elfio.flag, Elfio.req, sec_initSectionAddr mod hi, Section.align]
  have hpass : ∀ m, (initSectionAddr mod).elf.passReqs m mod.elf.size =
      mod.elf.passReqs m mod.elf.size := by
    intro m
    unfold Elfio.passReqs
    have hf : (List.range mod.elf.size).filter
          (fun i => decide (passOf ((initSectionAddr mod).elf.flag i) = m)) =
        (List.range mod.elf.size).filter (fun i => decide (passOf (mod.elf.flag i) = m)) :=
      List.filter_congr fun i hi => by rw [(hsec i (List.mem_range.mp hi)).1]
    rw [hf]
    exact List.map_congr_left fun i hi =>
      (hsec i (List.mem_range.mp (List.mem_filter.mp hi).1)).2
  induction m with
  | zero => rfl
  | succ m ih => rw [Elfio.reqs, Elfio.reqs, ih, size_initSectionAddr, hpass]

theorem layoutFits_initSectionAddr : LayoutFits (initSectionAddr mod).elf ↔ LayoutFits mod.elf := by
  rw [LayoutFits, LayoutFits, reqs_initSectionAddr]

end InitSectionAddr

/-! ### The image -/

/-- The stages from the mapped object to its image at `base`. -/
def loadImage (mod : Module) (base : Addr) (mc : Machine) : ℤ × Module × Machine :=
  moveModule (layoutSections (initSectionAddr mod)) (some base) mc

/-- The layout that `loadImage` works with. -/
def imageLayout (mod : Module) : Module := layoutSections (initSectionAddr mod)

/-- The image at `base` is a copy of the object: of the file bytes of every section, zero where a
section has none and where there is no section; the sections of the image have their addresses in
it, the others theirs in the file, and the file is unchanged. -/
structure FaithfulImage (mod : Module) (file : ℕ → Byte) (fileSize : ℕ) (base : Addr)
    (mc : Machine) : Prop where
  atBase : (loadImage mod base mc).2.1.layout.base = base
  copied : ∀ i < mod.elf.size, (mod.elf.sec i).alloc = true → ∀ k < (mod.elf.sec i).size.toNat,
    (loadImage mod base mc).2.2.mem (base + (imageLayout mod).offset i + BitVec.ofNat 64 k) =
      if (mod.elf.sec i).type = shtNobits then 0 else file ((mod.elf.sec i).offset.toNat + k)
  zero : ∀ x ∈ range base (imageLayout mod).layout.totalSize.toNat,
    (∀ i < mod.elf.size, (mod.elf.sec i).alloc = true →
      x ∉ range (base + (imageLayout mod).offset i) (mod.elf.sec i).size.toNat) →
    (loadImage mod base mc).2.2.mem x = 0
  address : ∀ i < mod.elf.size, ((loadImage mod base mc).2.1.elf.sec i).address =
    if (mod.elf.sec i).alloc = true then base + (imageLayout mod).offset i
    else mod.elfAddr + (mod.elf.sec i).offset
  unchanged : ∀ x ∈ range mod.elfAddr fileSize, (loadImage mod base mc).2.2.mem x = mc.mem x

theorem separate_image {mod : Module} {fileSize : ℕ} {base : Addr}
    (hmod : mod.layout = Layout.zero) (hfit : LayoutFits mod.elf)
    (hin : ∀ i < mod.elf.size, (mod.elf.sec i).alloc = true → (mod.elf.sec i).type ≠ shtNobits →
      (mod.elf.sec i).offset.toNat + (mod.elf.sec i).size.toNat ≤ fileSize)
    (hdisj : Disjoint (range mod.elfAddr fileSize)
      (range base (imageLayout mod).layout.totalSize.toNat)) :
    Separate (initSectionAddr mod).elf base (imageLayout mod).secLayout
      (imageLayout mod).layout.totalSize.toNat := by
  have hout := laidOut_layoutSections (show (initSectionAddr mod).layout = Layout.zero from hmod)
    ((layoutFits_initSectionAddr mod).mpr hfit)
  refine hout.separate fun i hi hc => ?_
  have hi' : i < mod.elf.size := (size_initSectionAddr mod) ▸ hi
  have hsec : (layoutSections (initSectionAddr mod)).elf.sec i = _ := sec_initSectionAddr mod hi'
  refine hdisj.mono_left ?_
  obtain ⟨ha, ht⟩ := hc
  rw [hsec] at ha ht ⊢
  exact range_subset (hin i hi' ha ht)

theorem file_byte {a o : Addr} {k : ℕ} (d : Addr) :
    a + o + (d + BitVec.ofNat 64 k - d) = a + BitVec.ofNat 64 (o.toNat + k) := by
  rw [BitVec.ofNat_add, BitVec.ofNat_toNat, BitVec.setWidth_eq, BitVec.add_comm d,
    BitVec.add_sub_cancel, BitVec.add_assoc]

/-- **The image is a faithful copy of the object**, when the layout stays below `2 ^ 32`, the
sections copied lie in the file, and the image does not meet the mapping of the file. -/
theorem loadImage_faithful {mod : Module} {file : ℕ → Byte} {fileSize : ℕ} {base : Addr}
    {mc : Machine} (hmod : mod.layout = Layout.zero) (hfit : LayoutFits mod.elf)
    (hfile : ∀ k < fileSize, mc.mem (mod.elfAddr + BitVec.ofNat 64 k) = file k)
    (hin : ∀ i < mod.elf.size, (mod.elf.sec i).alloc = true → (mod.elf.sec i).type ≠ shtNobits →
      (mod.elf.sec i).offset.toNat + (mod.elf.sec i).size.toNat ≤ fileSize)
    (hdisj : Disjoint (range mod.elfAddr fileSize)
      (range base (imageLayout mod).layout.totalSize.toNat)) :
    FaithfulImage mod file fileSize base mc := by
  have hs := separate_image hmod hfit hin hdisj
  have hl := @moveLoop_copied mc.mem _ _ _ _ hs
  have hsize : ∀ i, i < (initSectionAddr mod).elf.size ↔ i < mod.elf.size := by simp
  refine ⟨rfl, fun i hi ha k hk => ?_, fun x hx hn => ?_, fun i hi => ?_, fun x hx => ?_⟩
  · have hi' := (hsize i).mpr hi
    have hai : ((initSectionAddr mod).elf.sec i).alloc = true := by
      rw [sec_initSectionAddr mod hi]
      exact ha
    have hx : base + (imageLayout mod).offset i + BitVec.ofNat 64 k ∈
        extent (initSectionAddr mod).elf base (imageLayout mod).secLayout i := by
      rw [extent_initSectionAddr mod hi]
      exact (add_ofNat_mem_range (Nat.lt_trans hk (mod.elf.sec i).size.isLt)).mpr hk
    split
    · rename_i ht
      -- no other section is copied over one without contents
      refine hl.zero _ (hs.inside i hi' hai hx) fun j hj hc => ?_
      have hne : i ≠ j := by
        rintro rfl
        exact ((copies_initSectionAddr mod hi).mp hc).2 ht
      exact Set.disjoint_left.mp (hs.disjoint i hi' j hj hne hai hc.1) hx
    · rename_i ht
      have hk' := hin i hi ha ht
      refine (hl.bytes i hi' ((copies_initSectionAddr mod hi).mpr ⟨ha, ht⟩) _ hx).trans ?_
      rw [sec_initSectionAddr mod hi, ← hfile _ (by omega)]
      exact congrArg mc.mem (file_byte _)
  · refine hl.zero x hx fun i hi hc => ?_
    have hi' := (hsize i).mp hi
    rw [extent_initSectionAddr mod hi']
    exact hn i hi' ((copies_initSectionAddr mod hi').mp hc).1
  · refine (congrArg Section.address (hl.sec i)).trans ?_
    rw [sec_initSectionAddr mod hi]
    show (if i < (initSectionAddr mod).elf.size ∧ (mod.elf.sec i).alloc = true then _ else _ :
      Section).address = _
    by_cases ha : (mod.elf.sec i).alloc = true
    · rw [if_pos ⟨(hsize i).mpr hi, ha⟩, if_pos ha]
      rfl
    · rw [if_neg fun h => ha h.2, if_neg ha]
  · exact hl.outside x (Set.disjoint_left.mp hdisj hx)

/-- The sample object in a file mapped at `0x10000`. -/
def sampleMapped : Module := { Module.fresh sampleElf with elfAddr := 0x10000 }

theorem loadImage_faithful_sample : FaithfulImage sampleMapped
    (fun k => (0x10000 + BitVec.ofNat 64 k).setWidth 8) 0x55 0x20000
    ⟨fun x => x.setWidth 8, fun _ => Prot.readWrite⟩ :=
  loadImage_faithful rfl (by decide) (fun _ _ => rfl) (by decide)
    (@disjoint_range_add 0 0x10000 0x20000 0x55 _ (by decide) (by decide) (by decide))

end Umko

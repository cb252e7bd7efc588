import Umko.Image.Copy

/-!
# The alignment of the addresses

`layout_sections` aligns the offsets in the image and `mmap` chooses where the image starts, at a
page. The address of a section is aligned when the start of the image is.
-/

namespace Umko

open Lib.Memory Lib.Bump

/-- The module after `layout_sections` and `move_module`, with the image at `base`. -/
def movedModule (mod : Module) (base : Addr) (mc : Machine) : Module :=
  (moveModule (layoutSections mod) (some base) mc).2.1

/-- The address of every section of the image is a multiple of its alignment. -/
def AddressesAligned (mod : Module) (base : Addr) (mc : Machine) : Prop :=
  ∀ i < mod.elf.size, (mod.elf.sec i).alloc = true →
    (mod.elf.sec i).align ∣ ((movedModule mod base mc).elf.sec i).address.toNat

/-- The alignments of the section table are `0` or powers of two. -/
def Elfio.PowerAligned (elf : Elfio) : Prop :=
  ∀ i < elf.size, (elf.sec i).addrAlign = 0 ∨ ∃ e, (elf.sec i).addrAlign.toNat = 2 ^ e

section Align

variable {mod : Module} {base : Addr} {mc : Machine} {i : ℕ}

theorem address_movedModule (hi : i < mod.elf.size) (ha : (mod.elf.sec i).alloc = true) :
    ((movedModule mod base mc).elf.sec i).address = base + (layoutSections mod).offset i := by
  have h := (@moveLoop_moved mod.elf base (layoutSections mod).secLayout
    (memset mc.mem base 0 (layoutSections mod).layout.totalSize.toNat)).sec i
  rw [if_pos ⟨hi, ha⟩] at h
  exact congrArg Section.address h

theorem Elfio.PowerAligned.exists_pow (h : mod.elf.PowerAligned) (hi : i < mod.elf.size) :
    ∃ e < 64, (mod.elf.sec i).align = 2 ^ e := by
  unfold Section.align
  rcases h i hi with h0 | ⟨e, he⟩
  · exact ⟨0, by omega, if_pos h0⟩
  · refine ⟨e, ?_, ?_⟩
    · have hlt := (mod.elf.sec i).addrAlign.isLt
      rw [he] at hlt
      exact (Nat.pow_lt_pow_iff_right (by omega)).mp hlt
    · refine (if_neg fun h0 => ?_).trans he
      rw [h0] at he
      exact absurd he.symm (by simp)

/-- Past an aligned offset, an address is aligned when the start is: going around the end of the
address space keeps the residues of powers of two. -/
theorem dvd_toNat_add_iff {e : ℕ} (he : e < 64) {o : BitVec 64} (ho : 2 ^ e ∣ o.toNat) :
    2 ^ e ∣ (base + o).toNat ↔ 2 ^ e ∣ base.toNat := by
  have hpow : 2 ^ e ∣ 2 ^ 64 := pow_dvd_pow 2 (by omega)
  rw [BitVec.toNat_add, (Nat.dvd_mod_iff hpow)]
  exact (Nat.dvd_add_iff_left ho).symm

theorem align_dvd_address_iff (hmod : mod.layout = Layout.zero) (hfit : LayoutFits mod.elf)
    (hpow : mod.elf.PowerAligned) (hi : i < mod.elf.size) (ha : (mod.elf.sec i).alloc = true) :
    (mod.elf.sec i).align ∣ ((movedModule mod base mc).elf.sec i).address.toNat ↔
      (mod.elf.sec i).align ∣ base.toNat := by
  obtain ⟨e, he, halign⟩ := hpow.exists_pow hi
  have ho := (offset_inside hmod hfit hi ha).2
  rw [address_movedModule hi ha]
  rw [halign] at ho ⊢
  exact dvd_toNat_add_iff he ho

/-- **When the addresses are aligned**: exactly when every alignment of a section of the image
divides the start of the image; and so at every page exactly when none of them exceeds a page. -/
theorem addressesAligned_iff (hmod : mod.layout = Layout.zero) (hfit : LayoutFits mod.elf)
    (hpow : mod.elf.PowerAligned) :
    (∀ base mc, AddressesAligned mod base mc ↔
      ∀ i < mod.elf.size, (mod.elf.sec i).alloc = true → (mod.elf.sec i).align ∣ base.toNat) ∧
    ((∀ base mc, 4096 ∣ base.toNat → AddressesAligned mod base mc) ↔
      ∀ i < mod.elf.size, (mod.elf.sec i).alloc = true → (mod.elf.sec i).align ≤ 4096) := by
  have hone : ∀ base mc, AddressesAligned mod base mc ↔
      ∀ i < mod.elf.size, (mod.elf.sec i).alloc = true →
        (mod.elf.sec i).align ∣ base.toNat := by
    intro base mc
    exact forall_congr' fun i => forall_congr' fun hi => forall_congr' fun ha =>
      align_dvd_address_iff hmod hfit hpow hi ha
  refine ⟨hone, fun h i hi ha => ?_, fun h base mc hbase => (hone base mc).mpr fun i hi ha => ?_⟩
  · have hd := (hone 4096#64 ⟨fun _ => 0, fun _ => Prot.readWrite⟩).mp
      (h _ _ (by decide)) i hi ha
    exact Nat.le_of_dvd (by omega) hd
  · obtain ⟨e, -, he⟩ := hpow.exists_pow hi
    have hle := h i hi ha
    rw [he] at hle ⊢
    have he12 : e ≤ 12 := (Nat.pow_le_pow_iff_right (a := 2) (by omega)).mp (by omega)
    exact (pow_dvd_pow 2 he12).trans hbase

end Align

/-- An object with 8 bytes of data of a given alignment. -/
def alignedElf (align : BitVec 64) : Elfio :=
  ⟨[default, { (default : Section) with
    type := 1, flags := 3, offset := 0x40, size := 8, addrAlign := align }], by simp⟩

theorem powerAligned_alignedElf {e : ℕ} (he : e < 64) :
    (alignedElf (BitVec.ofNat 64 (2 ^ e))).PowerAligned := by
  intro i hi
  have hi2 : i < 2 := hi
  interval_cases i
  · exact .inl rfl
  · have hpow : (BitVec.ofNat 64 (2 ^ e)).toNat = 2 ^ e := by
      rw [BitVec.toNat_ofNat, Nat.mod_eq_of_lt (Nat.pow_lt_pow_right (by omega) he)]
    exact .inr ⟨e, hpow⟩

theorem addressesAligned_iff_page : AddressesAligned (Module.fresh (alignedElf 4096))
    0x7f0000001000 ⟨fun _ => 0, fun _ => Prot.readWrite⟩ :=
  (addressesAligned_iff rfl (by decide)
    (powerAligned_alignedElf (show 12 < 64 by omega))).2.mpr (by decide) _ _ (by decide)

/-- Two pages of alignment, and an image that starts at an odd page. -/
theorem not_addressesAligned_odd : (alignedElf 8192).PowerAligned ∧ LayoutFits (alignedElf 8192) ∧
    4096 ∣ (0x7f0000001000 : Addr).toNat ∧
    ¬ AddressesAligned (Module.fresh (alignedElf 8192)) 0x7f0000001000
      ⟨fun _ => 0, fun _ => Prot.readWrite⟩ := by
  refine ⟨powerAligned_alignedElf (show 13 < 64 by omega), by decide, by decide, fun h => ?_⟩
  have h1 := h 1 (by decide) (by decide)
  rw [address_movedModule (by decide) (by decide)] at h1
  exact absurd h1 (by decide)

end Umko

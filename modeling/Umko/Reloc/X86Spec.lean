import Umko.Reloc.X86
import Umko.Lib.BitField

/-!
# x86-64 relocation against the psABI

What the psABI asks of the field of each type, and when `do_relocate_add` delivers it: always, but
for `R_X86_64_PC32` and `R_X86_64_PLT32`, which cut a distance that does not fit their 32 bits and
report success.
-/

namespace Umko.X86

open Lib.Memory Lib.Patch Lib.BitField

/-! ### The psABI -/

/-- The value of a type: `S + A`, or `S + A - P` for the types relative to the place. -/
def RelocType.psAbiValue (t : RelocType) (loc : Addr) (val : BitVec 64) : BitVec 64 :=
  match t with
  | .none | .r64 | .r32 | .r32s => val
  | .pc32 | .plt32 | .pc64 => val - loc

/-- The field of a type as a number of 64 bits. -/
def RelocType.decode (t : RelocType) (m : Mem) (loc : Addr) : BitVec 64 :=
  match t with
  | .none => 0
  | .r64 | .pc64 => load 64 m loc
  | .r32 => (load 32 m loc).setWidth 64
  | .r32s | .pc32 | .plt32 => (load 32 m loc).signExtend 64

/-- The values that the field of a type can hold. -/
def RelocType.Fits (t : RelocType) (v : BitVec 64) : Prop :=
  match t with
  | .none | .r64 | .pc64 => True
  | .r32 => v.toNat < 2 ^ 32
  | .r32s | .pc32 | .plt32 => -2 ^ 31 ≤ v.toInt ∧ v.toInt < 2 ^ 31

/-- A relocation is right: success means that the field holds the psABI value, no byte beside the
field changes, a value that does not fit is refused, and so is a field that is not zero, which is
then left alone. -/
structure Right (t : RelocType) (loc : Addr) (val : BitVec 64) (m : Mem) : Prop where
  value : t ≠ .none → (doRelocateAdd t.code loc val m).1 = 0 →
    t.decode (doRelocateAdd t.code loc val m).2 loc = t.psAbiValue loc val
  frame : ∀ x ∉ range loc (t.width / 8), (doRelocateAdd t.code loc val m).2 x = m x
  overflow : ¬ t.Fits (t.psAbiValue loc val) → (doRelocateAdd t.code loc val m).1 ≠ 0
  occupied : load t.width m loc ≠ 0 →
    (doRelocateAdd t.code loc val m).1 ≠ 0 ∧ (doRelocateAdd t.code loc val m).2 = m

/-! ### The code -/

theorem value_eq_psAbiValue (t : RelocType) (loc : Addr) (val : BitVec 64) :
    t.value loc val = t.psAbiValue loc val := by
  cases t <;> rfl

/-- The types whose check is missing. -/
def RelocType.Unchecked (t : RelocType) : Prop := t = .pc32 ∨ t = .plt32

instance (t : RelocType) : Decidable t.Unchecked := inferInstanceAs (Decidable (_ ∨ _))

theorem cut_iff {t : RelocType} (ht : ¬ t.Unchecked) (v : BitVec 64) :
    t.cut v = true ↔ ¬ t.Fits v := by
  cases t with
  | pc32 => exact absurd (.inl rfl) ht
  | plt32 => exact absurd (.inr rfl) ht
  | r32 =>
    have h := eq_zeroExtend_iff v (show 32 ≤ 64 by omega)
    simp only [RelocType.cut, RelocType.Fits, decide_eq_true_eq, ne_eq, h]
  | r32s =>
    have h := eq_signExtend_iff v (show 0 < 32 by omega) (show 32 ≤ 64 by omega)
    simp only [RelocType.cut, RelocType.Fits, decide_eq_true_eq, ne_eq, h]
  | none | r64 | pc64 => simp [RelocType.cut, RelocType.Fits]

theorem not_cut_of_unchecked {t : RelocType} (ht : t.Unchecked) (v : BitVec 64) :
    t.cut v = false := by
  rcases ht with rfl | rfl <;> rfl

theorem decode_store_iff {t : RelocType} (ht : t ≠ .none) (m : Mem) (loc : Addr) (v : BitVec 64) :
    t.decode (store m loc (v.setWidth t.width)) loc = v ↔ t.Fits v := by
  have h32 : ∀ u : BitVec 32, load 32 (store m loc u) loc = u := fun u =>
    load_store u (by omega) (by omega)
  have h64 : ∀ u : BitVec 64, load 64 (store m loc u) loc = u := fun u =>
    load_store u (by omega) (by omega)
  have hz := eq_zeroExtend_iff v (show 32 ≤ 64 by omega)
  have hs := eq_signExtend_iff v (show 0 < 32 by omega) (show 32 ≤ 64 by omega)
  cases t with
  | none => exact absurd rfl ht
  | r64 | pc64 =>
    refine ⟨fun _ => trivial, fun _ => ?_⟩
    exact (h64 _).trans (BitVec.setWidth_eq v)
  | r32 =>
    show (load 32 (store m loc (v.setWidth 32)) loc).setWidth 64 = v ↔ _
    rw [h32, eq_comm]
    exact hz
  | r32s | pc32 | plt32 =>
    show (load 32 (store m loc (v.setWidth 32)) loc).signExtend 64 = v ↔ _
    rw [h32, eq_comm]
    exact hs

theorem doRelocateAdd_occupied {t : RelocType} {loc : Addr} {m : Mem}
    (h : load t.width m loc ≠ 0) (val : BitVec 64) :
    doRelocateAdd t.code loc val m = (noexec, m) := by
  rw [doRelocateAdd_eq_patch, patchWord_patchField, if_pos h]

theorem doRelocateAdd_free {t : RelocType} {loc : Addr} {m : Mem}
    (h : load t.width m loc = 0) (val : BitVec 64) : doRelocateAdd t.code loc val m =
      (if t.cut (t.psAbiValue loc val) then noexec else 0,
        store m loc ((t.psAbiValue loc val).setWidth t.width)) := by
  rw [doRelocateAdd_eq_patch, patchWord_patchField, if_neg (not_not.mpr h), value_eq_psAbiValue]

/-- **When x86-64 relocation is right**: always, unless the type is `R_X86_64_PC32` or
`R_X86_64_PLT32`, the place holds zero, and the distance does not fit 32 signed bits. -/
theorem right_iff (t : RelocType) (loc : Addr) (val : BitVec 64) (m : Mem) :
    Right t loc val m ↔ ¬ (t.Unchecked ∧ load t.width m loc = 0 ∧ ¬ t.Fits (val - loc)) := by
  have hframe : ∀ x ∉ range loc (t.width / 8), (doRelocateAdd t.code loc val m).2 x = m x := by
    intro x hx
    rw [doRelocateAdd_eq_patch]
    exact patchWord_of_notMem hx
  by_cases hz : load t.width m loc = 0
  · have hfree := doRelocateAdd_free hz val
    by_cases hu : t.Unchecked
    · have hv : t.psAbiValue loc val = val - loc := by rcases hu with rfl | rfl <;> rfl
      have hret : (doRelocateAdd t.code loc val m).1 = 0 := by
        rw [hfree, not_cut_of_unchecked hu]
        rfl
      have hne : t ≠ .none := by rcases hu with rfl | rfl <;> decide
      constructor
      · rintro h ⟨-, -, hf⟩
        exact h.overflow (hv ▸ hf) hret
      · intro h
        have hf : t.Fits (val - loc) := by
          by_contra hf
          exact h ⟨hu, hz, hf⟩
        refine ⟨fun _ _ => ?_, hframe, fun h' => absurd (hv ▸ hf) h', fun h' => absurd hz h'⟩
        rw [hfree]
        exact (decode_store_iff hne m loc _).mpr (hv ▸ hf)
    · refine ⟨fun _ h => hu h.1, fun _ => ⟨fun hne hret => ?_, hframe, fun h' => ?_,
        fun h' => absurd hz h'⟩⟩
      · have hcut : t.cut (t.psAbiValue loc val) = false := by
          rw [hfree] at hret
          by_contra hc
          rw [Bool.not_eq_false] at hc
          rw [hc] at hret
          exact noexec_ne_zero hret
        rw [hfree]
        refine (decode_store_iff hne m loc _).mpr ?_
        by_contra hf
        rw [(cut_iff hu _).mpr hf] at hcut
        cases hcut
      · rw [hfree, (cut_iff hu _).mpr h']
        exact noexec_ne_zero
  · have hocc := doRelocateAdd_occupied hz val
    refine ⟨fun _ h => hz h.2.1, fun _ => ⟨fun _ hret => ?_, hframe, fun _ => ?_, fun _ => ?_⟩⟩
    · rw [hocc] at hret
      exact absurd hret noexec_ne_zero
    · rw [hocc]
      exact noexec_ne_zero
    · rw [hocc]
      exact ⟨noexec_ne_zero, rfl⟩

/-- A distance of `2 ^ 32` in a 32-bit field: cut to `0`, and success reported. -/
theorem pc32_far_not_right : ¬ Right .pc32 0x1000 0x100001000 fun _ => 0 := by
  intro h
  refine h.overflow (fun hf => absurd hf.2 (by decide)) ?_
  rw [doRelocateAdd_free (load_zero _ _), not_cut_of_unchecked (.inl rfl)]
  rfl

end Umko.X86

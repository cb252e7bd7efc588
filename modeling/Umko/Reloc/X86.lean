import Umko.Reloc.Defs

/-!
# `do_relocate_add` for x86-64

The place must hold zero; the value is written, and read back to see whether it was cut.
-/

namespace Umko

open Lib.Memory Lib.Patch Lib.Local

namespace X86

/-- The types that the switch of `do_relocate_add` knows: `R_X86_64_NONE`, `_64`, `_32`, `_32S`,
`_PC32`, `_PLT32` and `_PC64`. -/
inductive RelocType where
  | none | r64 | r32 | r32s | pc32 | plt32 | pc64
  deriving DecidableEq

/-- The number of a type in the psABI. -/
def RelocType.code : RelocType → BitVec 32
  | .none => 0
  | .r64 => 1
  | .pc32 => 2
  | .plt32 => 4
  | .r32 => 10
  | .r32s => 11
  | .pc64 => 24

/-- The `case` of a number, if there is one. -/
def RelocType.ofCode (c : BitVec 32) : Option RelocType :=
  [.none, .r64, .r32, .r32s, .pc32, .plt32, .pc64].find? fun t => t.code = c

def doRelocateAdd (relocType : BitVec 32) (loc : Addr) (val : BitVec 64) (m : Mem) : ℤ × Mem :=
  match RelocType.ofCode relocType with
  | some .none => (0, m)
  | some .r64 =>
    if load 64 m loc ≠ 0 then (noexec, m)
    else (0, store m loc val)
  | some .r32 =>
    if load 32 m loc ≠ 0 then (noexec, m)
    else
      let m := store m loc (val.setWidth 32)
      if val ≠ (load 32 m loc).setWidth 64 then (noexec, m) else (0, m)
  | some .r32s =>
    if load 32 m loc ≠ 0 then (noexec, m)
    else
      let m := store m loc (val.setWidth 32)
      if val ≠ (load 32 m loc).signExtend 64 then (noexec, m) else (0, m)
  | some .pc32 | some .plt32 =>
    if load 32 m loc ≠ 0 then (noexec, m)
    else
      let val := val - loc
      (0, store m loc (val.setWidth 32))
  | some .pc64 =>
    if load 64 m loc ≠ 0 then (noexec, m)
    else
      let val := val - loc
      (0, store m loc val)
  | none => (noexec, m)

/-! ### The types as patches -/

theorem ofCode_code (t : RelocType) : RelocType.ofCode t.code = some t := by
  cases t <;> decide

theorem code_of_ofCode {c : BitVec 32} {t : RelocType} (h : RelocType.ofCode c = some t) :
    t.code = c := by simpa using List.find?_some h

def RelocType.width : RelocType → ℕ
  | .none => 0
  | .r64 | .pc64 => 64
  | .r32 | .r32s | .pc32 | .plt32 => 32

theorem RelocType.width_mem (t : RelocType) : t.width ∈ [0, 16, 32, 64] := by
  cases t <;> decide

/-- The value that a type puts into its field. -/
def RelocType.value (t : RelocType) (loc : Addr) (val : BitVec 64) : BitVec 64 :=
  match t with
  | .pc32 | .plt32 | .pc64 => val - loc
  | _ => val

/-- Whether the code finds that the value was cut. -/
def RelocType.cut (t : RelocType) (v : BitVec 64) : Bool :=
  match t with
  | .r32 => v ≠ (v.setWidth 32).setWidth 64
  | .r32s => v ≠ (v.setWidth 32).signExtend 64
  | _ => false

/-- What `do_relocate_add` does with the word in a field of `w` bits. -/
def patchField (w : ℕ) (cut : Bool) (v : BitVec 64) (old : BitVec w) : ℤ × Option (BitVec w) :=
  if old ≠ 0 then (noexec, none) else (if cut then noexec else 0, some (v.setWidth w))

theorem patchWord_patchField (w : ℕ) (cut : Bool) (v : BitVec 64) (loc : Addr) (m : Mem) :
    patchWord loc (patchField w cut v) m =
      if load w m loc ≠ 0 then (noexec, m)
      else (if cut then noexec else 0, store m loc (v.setWidth w)) := by
  unfold patchWord patchField
  split <;> rfl

/-- **Every supported type is a patch of its field.** -/
theorem doRelocateAdd_eq_patch (t : RelocType) (loc : Addr) (val : BitVec 64) (m : Mem) :
    doRelocateAdd t.code loc val m = patchWord loc
      (patchField t.width (t.cut (t.value loc val)) (t.value loc val)) m := by
  have hls : ∀ v : BitVec 32, load 32 (store m loc v) loc = v := fun v =>
    load_store v (by omega) (by omega)
  unfold doRelocateAdd
  rw [ofCode_code]
  cases t with
  | none =>
    show (0, m) = patchWord loc (patchField 0 false val) m
    rw [patchWord_patchField, if_neg (fun h => h BitVec.of_length_zero)]
    refine Prod.ext rfl (funext fun x => ?_)
    have hx : x ∉ range loc (0 / 8) := by simp
    exact (@store_of_notMem m loc x 0 (val.setWidth 0) hx).symm
  | r64 =>
    show _ = patchWord loc (patchField 64 false val) m
    rw [patchWord_patchField, BitVec.setWidth_eq]
    rfl
  | pc64 =>
    show _ = patchWord loc (patchField 64 false (val - loc)) m
    rw [patchWord_patchField, BitVec.setWidth_eq]
    rfl
  | r32 =>
    show _ = patchWord loc (patchField 32 (val ≠ (val.setWidth 32).setWidth 64) val) m
    simp only [patchWord_patchField, hls, decide_eq_true_eq]
    by_cases h : load 32 m loc ≠ 0
    · rw [if_pos h, if_pos h]
    · rw [if_neg h, if_neg h]
      split <;> rfl
  | r32s =>
    show _ = patchWord loc (patchField 32 (val ≠ (val.setWidth 32).signExtend 64) val) m
    simp only [patchWord_patchField, hls, decide_eq_true_eq]
    by_cases h : load 32 m loc ≠ 0
    · rw [if_pos h, if_pos h]
    · rw [if_neg h, if_neg h]
      split <;> rfl
  | pc32 | plt32 =>
    show _ = patchWord loc (patchField 32 false (val - loc)) m
    rw [patchWord_patchField]
    rfl

theorem doRelocateAdd_unsupported {c : BitVec 32} (h : RelocType.ofCode c = none) (loc : Addr)
    (val : BitVec 64) (m : Mem) : doRelocateAdd c loc val m = (noexec, m) := by
  unfold doRelocateAdd
  rw [h]

end X86

end Umko

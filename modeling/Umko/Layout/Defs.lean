import Umko.Module

/-!
# The layout of a module

`layout_sections` gives every `SHF_ALLOC` section an offset in the image: five passes over the
section table, one for each mask, in the order code, read-only data, data read-only after
initialisation, writable data, and whatever is left.
-/

namespace Umko

open Lib.Memory

/-- `ARCH_SHF_SMALL` -/
def archShfSmall : BitVec 32 := 0

/-- `align_as`: 32 bits throughout. Its callers pass no zero alignment. -/
def alignAs (input align : BitVec 32) : BitVec 32 :=
  let ret := input % align
  if ret = 0 then input else (input / align + 1) * align

/-- `debug_align(X)`, in the branch of the `#if 0` that is compiled. -/
def debugAlign (x : BitVec 64) : BitVec 64 := x

/-- `get_offset`: the offset, and the new value of `size`. The total and the alignment are
narrowed to the 32 bits of `align_as`. -/
def getOffset (secAlign secSize size : BitVec 64) : BitVec 64 × BitVec 64 :=
  let ret := (alignAs (size.setWidth 32)
    ((if secAlign ≠ 0 then secAlign else 1).setWidth 32)).setWidth 64
  (ret, ret + secSize)

/-- The flags a section must have, and those it must not have, in each pass. -/
def masks : List (BitVec 32 × BitVec 32) :=
  [(shfExecinstr ||| shfAlloc, archShfSmall),
   (shfAlloc, shfWrite ||| archShfSmall),
   (shfRoAfterInit ||| shfAlloc, archShfSmall),
   (shfWrite ||| shfAlloc, archShfSmall),
   (archShfSmall ||| shfAlloc, 0)]

/-- The state of `layout_sections`: `vsec`, the layout, and the sections of its "layout offset" log
lines, one for each section placed. -/
structure LayoutState where
  vsec : List SectionLayout
  layout : Layout
  placed : List ℕ

/-- `~0UL`, the offset of a section that is not placed. -/
def unplaced : BitVec 64 := ~~~0

/-- The body of the inner loop: section `i` in the pass with masks `mask`. -/
def layoutStep (elf : Elfio) (mask : BitVec 32 × BitVec 32) (st : LayoutState) (i : ℕ) :
    LayoutState :=
  let sec := elf.sec i
  let shFlag := sec.flags.setWidth 32
  let shAlign := sec.addrAlign.setWidth 32
  let shSize := sec.size.setWidth 32
  let offset := (st.vsec.getD i ⟨0⟩).offset
  if shFlag &&& mask.1 ≠ mask.1 ∨ shFlag &&& mask.2 ≠ 0 ∨ offset ≠ unplaced then st
  else
    let r := getOffset (shAlign.setWidth 64) (shSize.setWidth 64) st.layout.totalSize
    { vsec := st.vsec.set i ⟨r.1⟩
      layout := { st.layout with totalSize := r.2 }
      placed := st.placed ++ [i] }

/-- The `switch (m)` after pass `m`. -/
def layoutSwitch (m : ℕ) (l : Layout) : Layout :=
  match m with
  | 0 => { l with totalSize := debugAlign l.totalSize, textSize := debugAlign l.totalSize }
  | 1 => { l with totalSize := debugAlign l.totalSize, roSize := debugAlign l.totalSize }
  | 2 =>
    let total := (alignAs (l.totalSize.setWidth 32) 4096).setWidth 64
    { l with totalSize := total, roAfterInitSize := total }
  | 4 => { l with totalSize := debugAlign l.totalSize }
  | _ => l

/-- Pass `m` with masks `mask`. -/
def layoutPass (elf : Elfio) (mask : BitVec 32 × BitVec 32) (m : ℕ) (st : LayoutState) :
    LayoutState :=
  let st' := (List.range elf.size).foldl (layoutStep elf mask) st
  { st' with layout := layoutSwitch m st'.layout }

/-- The loops of `layout_sections`, from `vsec.resize` on. -/
def layoutRun (mod : Module) : LayoutState :=
  masks.zipIdx.foldl (fun st p => layoutPass mod.elf p.1 p.2 st)
    ⟨List.replicate mod.elf.size ⟨unplaced⟩, mod.layout, []⟩

def layoutSections (mod : Module) : Module :=
  { mod with layout := (layoutRun mod).layout, secLayout := (layoutRun mod).vsec }

end Umko

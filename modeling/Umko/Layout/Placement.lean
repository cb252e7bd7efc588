import Umko.Layout.Defs
import Umko.Lib.Bump
import Umko.Lib.Loop
import Umko.Lib.BitField

/-!
# `layout_sections` as a placement

The five passes place the sections of the object in one order: those of the first mask that takes
them, and within a mask by index, with the rounding to a page after the third pass. As long as
the running totals of that placement, in unbounded integers, stay below `2 ^ 32`, the loops of
`layout_sections` compute it: `layoutRun_placed`.
-/

namespace Umko

open Lib.Memory Lib.Bump Lib.Loop Lib.BitField

/-! ### The placement order -/

/-- The test of the inner loop on the flags of a section. -/
def takes (flag : BitVec 32) (mask : BitVec 32 × BitVec 32) : Bool :=
  flag &&& mask.1 == mask.1 && flag &&& mask.2 == 0

/-- The first pass whose masks take the flags, `5` if none does. -/
def passOf (flag : BitVec 32) : ℕ := masks.findIdx (takes flag)

/-- What the loops see of the flags of section `i`. -/
def Elfio.flag (elf : Elfio) (i : ℕ) : BitVec 32 := (elf.sec i).flags.setWidth 32

/-- The alignment of a section, `1` when it is `0`. -/
def Section.align (s : Section) : ℕ := if s.addrAlign = 0 then 1 else s.addrAlign.toNat

/-- The request of section `i`, in unbounded integers. -/
def Elfio.req (elf : Elfio) (i : ℕ) : Req (Option ℕ) :=
  ⟨some i, (elf.sec i).align, (elf.sec i).size.toNat⟩

/-- The requests of pass `m` among the sections below `k`. -/
def Elfio.passReqs (elf : Elfio) (m k : ℕ) : List (Req (Option ℕ)) :=
  ((List.range k).filter fun i => passOf (elf.flag i) = m).map elf.req

/-- The rounding to a page after pass 2. -/
def pageReq : Req (Option ℕ) := ⟨none, 4096, 0⟩

/-- The requests of the first `m` passes, page rounding included. -/
def Elfio.reqs (elf : Elfio) : ℕ → List (Req (Option ℕ))
  | 0 => []
  | m + 1 => elf.reqs m ++ elf.passReqs m elf.size ++ if m = 2 then [pageReq] else []

/-- **The layout stays below `2 ^ 32`**: every running total of the placement in unbounded integers
does, page rounding included. -/
def LayoutFits (elf : Elfio) : Prop := ∀ t ∈ totals 0 (elf.reqs 5), t < 2 ^ 32

instance (elf : Elfio) : Decidable (LayoutFits elf) := inferInstanceAs (Decidable (∀ _ ∈ _, _))

theorem Section.align_pos (s : Section) : 0 < s.align := by
  unfold Section.align
  split
  · exact Nat.one_pos
  · rename_i h
    rcases Nat.eq_zero_or_pos s.addrAlign.toNat with h0 | h0
    · exact absurd (BitVec.eq_of_toNat_eq h0) h
    · exact h0

theorem mem_passReqs {elf : Elfio} {m k : ℕ} {r : Req (Option ℕ)} :
    r ∈ elf.passReqs m k ↔ ∃ i < k, passOf (elf.flag i) = m ∧ r = elf.req i := by
  simp only [Elfio.passReqs, List.mem_map, List.mem_filter, List.mem_range, decide_eq_true_eq]
  constructor
  · rintro ⟨i, ⟨hi, hm⟩, rfl⟩; exact ⟨i, hi, hm, rfl⟩
  · rintro ⟨i, hi, hm, rfl⟩; exact ⟨i, ⟨hi, hm⟩, rfl⟩

/-- A request is that of a section some earlier pass takes, or the page rounding. -/
theorem mem_reqs {elf : Elfio} {m : ℕ} {r : Req (Option ℕ)} :
    r ∈ elf.reqs m ↔
      (∃ i < elf.size, passOf (elf.flag i) < m ∧ r = elf.req i) ∨ (3 ≤ m ∧ r = pageReq) := by
  induction m with
  | zero => simp [Elfio.reqs]
  | succ m ih =>
    simp only [Elfio.reqs, List.mem_append, ih, mem_passReqs]
    constructor
    · rintro (((⟨i, hi, hm, rfl⟩ | ⟨hm, rfl⟩) | ⟨i, hi, hm, rfl⟩) | h)
      · exact .inl ⟨i, hi, by omega, rfl⟩
      · exact .inr ⟨by omega, rfl⟩
      · exact .inl ⟨i, hi, by omega, rfl⟩
      · split at h
        · exact .inr ⟨by omega, by simpa using h⟩
        · cases h
    · rintro (⟨i, hi, hm, rfl⟩ | ⟨hm, rfl⟩)
      · rcases Nat.lt_or_ge (passOf (elf.flag i)) m with h | h
        · exact .inl (.inl (.inl ⟨i, hi, h, rfl⟩))
        · exact .inl (.inr ⟨i, hi, by omega, rfl⟩)
      · rcases Nat.eq_or_lt_of_le hm with h | h
        · obtain rfl : m = 2 := by omega
          exact .inr (by simp)
        · exact .inl (.inl (.inr ⟨by omega, rfl⟩))

theorem aligned_reqs (elf : Elfio) (m : ℕ) : Aligned (elf.reqs m) := by
  intro r hr
  rcases mem_reqs.mp hr with ⟨i, -, -, rfl⟩ | ⟨-, rfl⟩
  · exact (elf.sec i).align_pos
  · exact Nat.succ_pos _

theorem passReqs_succ (elf : Elfio) (m k : ℕ) : elf.passReqs m (k + 1) =
    elf.passReqs m k ++ if passOf (elf.flag k) = m then [elf.req k] else [] := by
  simp only [Elfio.passReqs, List.range_succ, List.filter_append, List.map_append]
  congr 1
  by_cases h : passOf (elf.flag k) = m <;> simp [h]

theorem passReqs_prefix (elf : Elfio) (m : ℕ) {k k' : ℕ} (hk : k ≤ k') :
    elf.passReqs m k <+: elf.passReqs m k' := by
  obtain ⟨d, rfl⟩ := Nat.exists_eq_add_of_le hk
  rw [Elfio.passReqs, Elfio.passReqs, List.range_add, List.filter_append, List.map_append]
  exact List.prefix_append ..

theorem reqs_split (elf : Elfio) {m k : ℕ} (hm : m < 5) (hk : k ≤ elf.size) :
    ∃ l, elf.reqs 5 = elf.reqs m ++ elf.passReqs m k ++ l := by
  have hpre : ∀ m' ≤ 5, elf.reqs m' <+: elf.reqs 5 := by
    intro m' hm'
    induction hm' using Nat.decreasingInduction with
    | self => exact List.prefix_rfl
    | of_succ j hj ih =>
      refine List.IsPrefix.trans ?_ ih
      rw [Elfio.reqs, List.append_assoc]
      exact List.prefix_append ..
  obtain ⟨l, hl⟩ := passReqs_prefix elf m hk
  obtain ⟨l', hl'⟩ := hpre (m + 1) hm
  refine ⟨l ++ (if m = 2 then [pageReq] else []) ++ l', ?_⟩
  rw [← hl', Elfio.reqs, ← hl]
  simp

theorem below_of_fits {elf : Elfio} (hfit : LayoutFits elf) {m : ℕ} (hm : m ≤ 5) :
    Below (2 ^ 32) (elf.reqs m) := by
  have h := below_of_totals hfit
  rcases Nat.lt_or_eq_of_le hm with hm | rfl
  · obtain ⟨l, hl⟩ := reqs_split elf hm (Nat.zero_le _)
    rw [hl] at h
    exact h.left.left
  · exact h

/-! ### The arithmetic of a step -/

/-- `align_as` rounds up when the result fits its 32 bits. -/
theorem toNat_alignAs {x a : BitVec 32} (ha : 0 < a.toNat)
    (h : alignUp x.toNat a.toNat < 2 ^ 32) :
    (alignAs x a).toNat = alignUp x.toNat a.toNat := by
  have h0 : x % a = 0 ↔ x.toNat % a.toNat = 0 := by
    rw [← BitVec.toNat_inj, BitVec.toNat_umod]; rfl
  unfold alignAs alignUp at *
  simp only [h0]
  split
  · rfl
  · rename_i hx
    rw [if_neg hx] at h
    have h1 : x.toNat / a.toNat + 1 < 2 ^ 32 := Nat.lt_of_le_of_lt (Nat.le_mul_of_pos_right _ ha) h
    have h2 : (x / a + 1).toNat = x.toNat / a.toNat + 1 := by
      rw [BitVec.toNat_add, BitVec.toNat_udiv]
      exact Nat.mod_eq_of_lt h1
    rw [BitVec.toNat_mul, h2, Nat.mod_eq_of_lt h]

theorem alignAs_zero (a : BitVec 32) : alignAs 0 a = 0 := by simp [alignAs]

/-- **A step of the placement**: when the offset and the size fit, `get_offset` gives the offset and
the total of the unbounded placement. An alignment that does not fit 32 bits can only meet the total
`0`, which is aligned to everything. -/
theorem getOffset_eq {t align size : BitVec 64} {a : ℕ}
    (ha : a = if align = 0 then 1 else align.toNat)
    (hfit : alignUp t.toNat a < 2 ^ 32) (hsize : size.toNat < 2 ^ 32) :
    (getOffset ((align.setWidth 32).setWidth 64) ((size.setWidth 32).setWidth 64) t).1.toNat =
        alignUp t.toNat a ∧
      (getOffset ((align.setWidth 32).setWidth 64) ((size.setWidth 32).setWidth 64) t).2.toNat =
        alignUp t.toNat a + size.toNat := by
  have ha0 : 0 < a := by
    rw [ha]
    split
    · exact Nat.one_pos
    · rename_i h
      exact Nat.pos_of_ne_zero fun h0 => h (BitVec.eq_of_toNat_eq h0)
  have ht : t.toNat < 2 ^ 32 := Nat.lt_of_le_of_lt (le_alignUp ha0) (by omega)
  have hsz : ((size.setWidth 32).setWidth 64).toNat = size.toNat := by
    simp only [BitVec.toNat_setWidth]; omega
  have htw : (t.setWidth 32).toNat = t.toNat := by
    simp only [BitVec.toNat_setWidth]; omega
  set al : BitVec 32 := (if (align.setWidth 32).setWidth 64 ≠ (0 : BitVec 64)
    then (align.setWidth 32).setWidth 64 else 1).setWidth 32 with hal
  have key : (alignAs (t.setWidth 32) al).toNat = alignUp t.toNat a := by
    rcases Nat.eq_zero_or_pos t.toNat with h0 | h0
    · have : t.setWidth 32 = 0 := BitVec.eq_of_toNat_eq (by rw [htw, h0]; rfl)
      rw [this, alignAs_zero, h0, alignUp_zero]; rfl
    · have hlt : a < 2 ^ 32 := Nat.lt_of_le_of_lt (align_le_alignUp ha0 h0) (by omega)
      have hala : al.toNat = a := by
        rw [hal, ha]
        by_cases hz : align = 0
        · subst hz; simp
        · have hw : (align.setWidth 32).setWidth 64 = align := by
            apply BitVec.eq_of_toNat_eq
            simp only [BitVec.toNat_setWidth]
            rw [ha, if_neg hz] at hlt
            omega
          rw [hw, if_pos hz, if_neg hz, BitVec.toNat_setWidth]
          rw [ha, if_neg hz] at hlt
          exact Nat.mod_eq_of_lt hlt
      rw [toNat_alignAs (by omega) (by rw [htw, hala]; omega), htw, hala]
  have h1 : ((alignAs (t.setWidth 32) al).setWidth 64).toNat = alignUp t.toNat a := by
    rw [BitVec.toNat_setWidth, key, Nat.mod_eq_of_lt (by omega)]
  refine ⟨h1, ?_⟩
  show ((alignAs (t.setWidth 32) al).setWidth 64 + (size.setWidth 32).setWidth 64).toNat = _
  rw [BitVec.toNat_add, h1, hsz, Nat.mod_eq_of_lt (by omega)]

/-! ### What the masks take -/

theorem takes_of_passOf {flag : BitVec 32} {m : ℕ} {mask : BitVec 32 × BitVec 32}
    (hm : masks[m]? = some mask) (h : passOf flag = m) : takes flag mask = true := by
  subst h
  obtain ⟨hlt, rfl⟩ := List.getElem?_eq_some_iff.mp hm
  exact List.findIdx_getElem (w := hlt)

theorem takes_of_lt_passOf {flag : BitVec 32} {m : ℕ} {mask : BitVec 32 × BitVec 32}
    (hm : masks[m]? = some mask) (h : m < passOf flag) : takes flag mask = false := by
  obtain ⟨hlt, rfl⟩ := List.getElem?_eq_some_iff.mp hm
  exact List.not_of_lt_findIdx h

theorem has_twoPow (s : Section) {j : ℕ} (hj : j < 32) :
    s.has (BitVec.twoPow 32 j) = s.flags.getLsbD j := by
  have hw : (BitVec.twoPow 32 j).setWidth 64 = BitVec.twoPow 64 j := by
    apply BitVec.eq_of_toNat_eq
    rw [BitVec.toNat_setWidth, BitVec.toNat_twoPow, BitVec.toNat_twoPow,
      Nat.mod_eq_of_lt (Nat.pow_lt_pow_right (by omega) hj),
      Nat.mod_eq_of_lt (Nat.pow_lt_pow_right (by omega) (by omega))]
  have h := and_twoPow_eq_zero_iff s.flags (show j < 64 by omega)
  unfold Section.has
  rw [hw]
  cases hb : s.flags.getLsbD j
  · simpa using h.mpr hb
  · refine bne_iff_ne.mpr fun h0 => ?_
    rw [h.mp h0] at hb
    cases hb

theorem flag_and (elf : Elfio) (i : ℕ) {j : ℕ} (hj : j < 32) :
    (elf.flag i &&& BitVec.twoPow 32 j = BitVec.twoPow 32 j ↔
        (elf.sec i).has (BitVec.twoPow 32 j) = true) ∧
      (elf.flag i &&& BitVec.twoPow 32 j = 0#32 ↔
        (elf.sec i).has (BitVec.twoPow 32 j) = false) := by
  rw [and_twoPow_eq_iff _ hj, and_twoPow_eq_zero_iff _ hj, has_twoPow _ hj, Elfio.flag,
    BitVec.getLsbD_setWidth, decide_eq_true hj, Bool.true_and]
  exact ⟨Iff.rfl, Iff.rfl⟩

/-- **Which pass takes a section**, by its flags. -/
theorem passOf_eq (elf : Elfio) (i : ℕ) : passOf (elf.flag i) =
    if (elf.sec i).has shfExecinstr && (elf.sec i).alloc then 0
    else if (elf.sec i).alloc && !(elf.sec i).has shfWrite then 1
    else if (elf.sec i).has shfRoAfterInit && (elf.sec i).alloc then 2
    else if (elf.sec i).has shfWrite && (elf.sec i).alloc then 3
    else if (elf.sec i).alloc then 4 else 5 := by
  have hW := flag_and elf i (show 0 < 32 by omega)
  have hA := flag_and elf i (show 1 < 32 by omega)
  have hX := flag_and elf i (show 2 < 32 by omega)
  have hR := flag_and elf i (show 21 < 32 by omega)
  have eW : BitVec.twoPow 32 0 = shfWrite := by decide
  have eA : BitVec.twoPow 32 1 = shfAlloc := by decide
  have eX : BitVec.twoPow 32 2 = shfExecinstr := by decide
  have eR : BitVec.twoPow 32 21 = shfRoAfterInit := by decide
  rw [eW] at hW
  rw [eA, show (elf.sec i).has shfAlloc = (elf.sec i).alloc from rfl] at hA
  rw [eX] at hX
  rw [eR] at hR
  have key : ∀ (mask : BitVec 32 × BitVec 32), takes (elf.flag i) mask =
      (decide (elf.flag i &&& mask.1 = mask.1) && decide (elf.flag i &&& mask.2 = 0#32)) :=
    fun mask => by simp [takes, Bool.beq_eq_decide_eq]
  have e0 : (0 : BitVec 32) = 0#32 := rfl
  simp only [passOf, masks, List.findIdx_cons, List.findIdx_nil, key, archShfSmall, e0,
    and_or_eq_iff, BitVec.or_zero, BitVec.and_zero, hW, hA, hX, hR, Bool.decide_and,
    Bool.decide_eq_true, Bool.decide_eq_false, decide_true, Bool.and_true, Bool.true_and]
  cases (elf.sec i).has shfExecinstr <;> cases (elf.sec i).alloc <;>
    cases (elf.sec i).has shfWrite <;> cases (elf.sec i).has shfRoAfterInit <;> rfl

/-! ### One pass -/

/-- **The state of the loops when the requests `L` are placed**: the total is that of the placement,
every placed section has its offset, every other one the sentinel, and the log lists the placed
sections in order. -/
structure Placed (elf : Elfio) (L : List (Req (Option ℕ))) (st : LayoutState) : Prop where
  length : st.vsec.length = elf.size
  totalSize : st.layout.totalSize.toNat = total 0 L
  placed : st.placed = L.filterMap (·.key)
  offset : ∀ p ∈ offsets 0 L, ∀ i, p.1.key = some i → (st.vsec.getD i ⟨0⟩).offset.toNat = p.2
  rest : ∀ i < elf.size, (∀ r ∈ L, r.key ≠ some i) → (st.vsec.getD i ⟨0⟩).offset = unplaced

theorem layoutStep_skip {elf : Elfio} {mask : BitVec 32 × BitVec 32} {st : LayoutState} {i : ℕ}
    (h : takes (elf.flag i) mask = false ∨ (st.vsec.getD i ⟨0⟩).offset ≠ unplaced) :
    layoutStep elf mask st i = st := by
  unfold layoutStep
  refine if_pos ?_
  rcases h with h | h
  · rcases Bool.and_eq_false_iff.mp h with h | h
    · exact .inl (by simpa [Elfio.flag] using h)
    · exact .inr (.inl (by simpa [Elfio.flag] using h))
  · exact .inr (.inr h)

theorem layoutStep_place {elf : Elfio} {mask : BitVec 32 × BitVec 32} {st : LayoutState} {i : ℕ}
    (h : takes (elf.flag i) mask = true) (ho : (st.vsec.getD i ⟨0⟩).offset = unplaced) :
    layoutStep elf mask st i =
      let r := getOffset (((elf.sec i).addrAlign.setWidth 32).setWidth 64)
        (((elf.sec i).size.setWidth 32).setWidth 64) st.layout.totalSize
      ⟨st.vsec.set i ⟨r.1⟩, { st.layout with totalSize := r.2 }, st.placed ++ [i]⟩ := by
  unfold layoutStep
  refine if_neg ?_
  obtain ⟨h1, h2⟩ := Bool.and_eq_true_iff.mp h
  rintro (h' | h' | h')
  · exact h' (by simpa [Elfio.flag] using h1)
  · exact h' (by simpa [Elfio.flag] using h2)
  · exact h' ho

theorem Placed.place {elf : Elfio} {L : List (Req (Option ℕ))} {st : LayoutState} {i : ℕ}
    {mask : BitVec 32 × BitVec 32} (h : Placed elf L st) (hi : i < elf.size)
    (ht : takes (elf.flag i) mask = true) (hL : ∀ r ∈ L, r.key ≠ some i)
    (hbelow : Below (2 ^ 32) (L ++ [elf.req i])) :
    Placed elf (L ++ [elf.req i]) (layoutStep elf mask st i) := by
  rw [layoutStep_place ht (h.rest i hi hL)]
  obtain ⟨-, hfit, hsize⟩ := below_append_singleton.mp hbelow
  rw [← h.totalSize] at hfit
  obtain ⟨h1, h2⟩ := @getOffset_eq st.layout.totalSize (elf.sec i).addrAlign (elf.sec i).size
    (elf.sec i).align rfl hfit hsize
  have hget : ∀ (o : BitVec 64) (j : ℕ), ((st.vsec.set i ⟨o⟩).getD j ⟨0⟩).offset =
      if j = i then o else (st.vsec.getD j ⟨0⟩).offset := by
    intro o j
    simp only [List.getD_eq_getElem?_getD, List.getElem?_set, h.length, hi, if_true]
    by_cases hj : i = j
    · simp [hj]
    · simp [hj, Ne.symm hj]
  constructor
  · simp [h.length]
  · simp only [total_append, ← h.totalSize]
    exact h2
  · simp [h.placed, Elfio.req]
  · intro p hp j hj
    simp only [hget]
    rw [offsets_append, List.mem_append] at hp
    rcases hp with hp | hp
    · have hr : p.1 ∈ L := by
        rw [← map_fst_offsets 0 L]
        exact List.mem_map_of_mem hp
      rw [if_neg (by rintro rfl; exact hL _ hr hj)]
      exact h.offset p hp j hj
    · rw [List.mem_singleton.mp hp] at hj ⊢
      obtain rfl : i = j := Option.some.inj hj
      rw [if_pos rfl, h1, h.totalSize]
      rfl
  · intro j hj hr
    have hne : j ≠ i := by
      rintro rfl
      exact hr (elf.req j) (by simp) rfl
    simp only [hget, if_neg hne]
    exact h.rest j hj fun r hrL => hr r (List.mem_append_left _ hrL)

theorem Placed.ne_unplaced {elf : Elfio} {L : List (Req (Option ℕ))} {st : LayoutState} {i : ℕ}
    (h : Placed elf L st) (hbelow : Below (2 ^ 32) L)
    (hi : ∃ r ∈ L, r.key = some i) : (st.vsec.getD i ⟨0⟩).offset ≠ unplaced := by
  obtain ⟨r, hr, hk⟩ := hi
  rw [← map_fst_offsets 0 L] at hr
  obtain ⟨p, hp, rfl⟩ := List.mem_map.mp hr
  have h1 := h.offset p hp i hk
  have h2 := (hbelow p hp).1
  intro h'
  rw [h'] at h1
  have h3 : unplaced.toNat = 2 ^ 64 - 1 := rfl
  omega

theorem passOf_lt_of_key {elf : Elfio} {m k : ℕ} {r : Req (Option ℕ)}
    (hr : r ∈ elf.reqs m ++ elf.passReqs m k) (hkey : r.key = some k) : passOf (elf.flag k) < m := by
  rcases List.mem_append.mp hr with hr | hr
  · rcases mem_reqs.mp hr with ⟨i, -, hi, rfl⟩ | ⟨-, rfl⟩
    · obtain rfl : i = k := Option.some.inj hkey
      exact hi
    · cases hkey
  · obtain ⟨i, hi, -, rfl⟩ := mem_passReqs.mp hr
    obtain rfl : i = k := Option.some.inj hkey
    omega

/-- The body of the inner loop on a section of another pass: an earlier pass has placed it, or the
masks leave it to a later one. -/
theorem Placed.skip {elf : Elfio} {m k : ℕ} {mask : BitVec 32 × BitVec 32} {st : LayoutState}
    (hmask : masks[m]? = some mask) (h : Placed elf (elf.reqs m ++ elf.passReqs m k) st)
    (hbelow : Below (2 ^ 32) (elf.reqs m ++ elf.passReqs m k)) (hk : k < elf.size)
    (hne : passOf (elf.flag k) ≠ m) : layoutStep elf mask st k = st := by
  rcases Nat.lt_or_gt_of_ne hne with hlt | hgt
  · exact layoutStep_skip (.inr (h.ne_unplaced hbelow
      ⟨elf.req k, List.mem_append_left _ (mem_reqs.mpr (.inl ⟨k, hk, hlt, rfl⟩)), rfl⟩))
  · exact layoutStep_skip (.inl (takes_of_lt_passOf hmask hgt))

/-- **The inner loop**: pass `m` places the sections whose pass it is and skips all others, those
placed before because of the sentinel and those of later passes because of the masks. -/
theorem innerLoop_placed {elf : Elfio} {m : ℕ} {mask : BitVec 32 × BitVec 32}
    (hmask : masks[m]? = some mask) {n : ℕ} (hn : n ≤ elf.size)
    (hbelow : Below (2 ^ 32) (elf.reqs m ++ elf.passReqs m n)) {st : LayoutState}
    (h : Placed elf (elf.reqs m) st) : Placed elf (elf.reqs m ++ elf.passReqs m n)
      ((List.range n).foldl (layoutStep elf mask) st) := by
  refine foldl_range_inv (fun k t => Placed elf (elf.reqs m ++ elf.passReqs m k) t) n
    (by simpa [Elfio.passReqs] using h) fun k hk t ht => ?_
  have hbelow' : ∀ k' ≤ n, Below (2 ^ 32) (elf.reqs m ++ elf.passReqs m k') := by
    intro k' hk'
    obtain ⟨l, hl⟩ := passReqs_prefix elf m hk'
    rw [← hl, ← List.append_assoc] at hbelow
    exact hbelow.left
  have hnext := hbelow' (k + 1) hk
  rw [passReqs_succ, ← List.append_assoc] at hnext ⊢
  by_cases heq : passOf (elf.flag k) = m
  · rw [if_pos heq] at hnext ⊢
    refine ht.place (by omega) (takes_of_passOf hmask heq) (fun r hr hkey => ?_) hnext
    have := passOf_lt_of_key hr hkey
    omega
  · rw [if_neg heq, List.append_nil, ht.skip hmask (hbelow' k hk.le) (by omega) heq]
    exact ht

theorem toNat_alignPage {t : BitVec 64} (h : alignUp t.toNat 4096 < 2 ^ 32) :
    ((alignAs (t.setWidth 32) 4096).setWidth 64).toNat = alignUp t.toNat 4096 := by
  have hle := le_alignUp (x := t.toNat) (a := 4096) (by omega)
  have hw : (t.setWidth 32).toNat = t.toNat := by
    rw [BitVec.toNat_setWidth, Nat.mod_eq_of_lt (by omega)]
  have hal : (alignAs (t.setWidth 32) 4096).toNat = alignUp t.toNat 4096 := by
    rw [← hw] at h ⊢
    exact toNat_alignAs (by decide) h
  rw [BitVec.toNat_setWidth, hal, Nat.mod_eq_of_lt (by omega)]

/-- **One pass**, with the rounding to a page after pass 2. -/
theorem layoutPass_placed {elf : Elfio} {m : ℕ} {mask : BitVec 32 × BitVec 32}
    (hmask : masks[m]? = some mask) (hbelow : Below (2 ^ 32) (elf.reqs (m + 1)))
    {st : LayoutState} (h : Placed elf (elf.reqs m) st) :
    Placed elf (elf.reqs (m + 1)) (layoutPass elf mask m st) := by
  rw [Elfio.reqs] at hbelow ⊢
  have hin := innerLoop_placed hmask le_rfl hbelow.left h
  unfold layoutPass
  generalize (List.range elf.size).foldl (layoutStep elf mask) st = st' at hin
  by_cases h2 : m = 2
  · subst h2
    rw [if_pos rfl] at hbelow ⊢
    have hpage := (below_append_singleton.mp hbelow).2.1
    rw [← hin.totalSize] at hpage
    refine ⟨hin.length, ?_, ?_, ?_, ?_⟩
    · rw [total_append, ← hin.totalSize]
      exact toNat_alignPage hpage
    · simp [hin.placed, pageReq]
    · intro p hp i hi
      rw [offsets_append, List.mem_append] at hp
      rcases hp with hp | hp
      · exact hin.offset p hp i hi
      · rw [List.mem_singleton.mp hp] at hi
        cases hi
    · exact fun i hi hr => hin.rest i hi fun r hrL => hr r (List.mem_append_left _ hrL)
  · rw [if_neg h2, List.append_nil]
    have hsw : (layoutSwitch m st'.layout).totalSize = st'.layout.totalSize := by
      unfold layoutSwitch
      split <;> first | rfl | exact absurd rfl h2
    exact ⟨hin.length, hsw ▸ hin.totalSize, hin.placed, hin.offset, hin.rest⟩

/-! ### The whole run -/

/-- The state after the first `m` passes. -/
def layoutUpTo (mod : Module) (m : ℕ) : LayoutState :=
  (masks.zipIdx.take m).foldl (fun st p => layoutPass mod.elf p.1 p.2 st)
    ⟨List.replicate mod.elf.size ⟨unplaced⟩, mod.layout, []⟩

theorem layoutUpTo_five (mod : Module) : layoutUpTo mod 5 = layoutRun mod := rfl

theorem layoutUpTo_succ (mod : Module) {m : ℕ} {mask : BitVec 32 × BitVec 32}
    (h : masks[m]? = some mask) :
    layoutUpTo mod (m + 1) = layoutPass mod.elf mask m (layoutUpTo mod m) := by
  have hz : masks.zipIdx[m]? = some (mask, m) := by simp [List.getElem?_zipIdx, h]
  rw [layoutUpTo, List.take_add_one, hz, List.foldl_append]
  rfl

theorem getElem?_masks {m : ℕ} (hm : m < 5) : ∃ mask, masks[m]? = some mask :=
  ⟨masks.get ⟨m, hm⟩, List.getElem?_eq_getElem hm⟩

/-- **The passes compute the placement**, as long as its offsets and sizes fit 32 bits. -/
theorem layoutUpTo_placed_of_below {mod : Module} (hmod : mod.layout = Layout.zero) {m : ℕ}
    (hm : m ≤ 5) (hbelow : Below (2 ^ 32) (mod.elf.reqs m)) :
    Placed mod.elf (mod.elf.reqs m) (layoutUpTo mod m) := by
  induction m with
  | zero =>
    refine ⟨by simp [layoutUpTo], by simp [layoutUpTo, hmod, Layout.zero, Elfio.reqs], rfl,
      by simp [Elfio.reqs, offsets], fun i hi _ => ?_⟩
    simp [layoutUpTo, hi]
  | succ m ih =>
    obtain ⟨mask, hmask⟩ := getElem?_masks hm
    rw [layoutUpTo_succ mod hmask]
    exact layoutPass_placed hmask hbelow (ih (by omega) hbelow.left.left)

theorem layoutUpTo_placed {mod : Module} (hmod : mod.layout = Layout.zero)
    (hfit : LayoutFits mod.elf) {m : ℕ} (hm : m ≤ 5) :
    Placed mod.elf (mod.elf.reqs m) (layoutUpTo mod m) :=
  layoutUpTo_placed_of_below hmod hm (below_of_fits hfit hm)

theorem layoutRun_placed {mod : Module} (hmod : mod.layout = Layout.zero)
    (hfit : LayoutFits mod.elf) : Placed mod.elf (mod.elf.reqs 5) (layoutRun mod) :=
  layoutUpTo_placed hmod hfit le_rfl

end Umko

import Umko.Lib.BitField
import Umko.Lib.Pages

/-!
# Instructions that put an address together

The AArch64 instructions that build a 64-bit number from the immediates of several words: the
move-wide ones, by lanes of 16 bits, and ADRP with an addition or a load or store, by page and
offset. Each is given by its encoding and what it does with the register or the address.
-/

namespace Lib.A64

open Lib.BitField Lib.Memory

/-! ### Move wide -/

inductive MoveOp where
  | movn
  | movz
  | movk
  deriving DecidableEq

/-- The operation of the bits 29 and 30. -/
def MoveOp.ofCode (c : BitVec 2) : Option MoveOp :=
  if c = 0b00#2 then some .movn
  else if c = 0b10#2 then some .movz
  else if c = 0b11#2 then some .movk
  else none

/-- A move-wide instruction on a 64-bit register. -/
structure MoveWide where
  op : MoveOp
  hw : BitVec 2
  imm : BitVec 16
  rd : BitVec 5
  deriving DecidableEq

def MoveWide.decode (w : BitVec 32) : Option MoveWide :=
  if w.extractLsb' 31 1 = 1#1 ∧ w.extractLsb' 23 6 = 0b100101#6 then
    (MoveOp.ofCode (w.extractLsb' 29 2)).map fun op =>
      ⟨op, w.extractLsb' 21 2, w.extractLsb' 5 16, w.extractLsb' 0 5⟩
  else none

/-- The new value of the register: MOVZ writes one lane and clears the others, MOVN writes the
complement of that, MOVK replaces one lane. -/
def MoveWide.value (i : MoveWide) (old : BitVec 64) : BitVec 64 :=
  match i.op with
  | .movz => i.imm.setWidth 64 <<< (16 * i.hw.toNat)
  | .movn => ~~~(i.imm.setWidth 64 <<< (16 * i.hw.toNat))
  | .movk => setField old (16 * i.hw.toNat) 16 i.imm

/-- The registers by number; no number is set apart for the zero register. -/
abbrev Regs := BitVec 5 → BitVec 64

def MoveWide.exec (i : MoveWide) (r : Regs) : Regs := Function.update r i.rd (i.value (r i.rd))

/-- Some words one after the other, all of them move-wide instructions. -/
def runMoves (ws : List (BitVec 32)) (r : Regs) : Option Regs :=
  ws.foldlM (fun r w => (MoveWide.decode w).map (·.exec r)) r

/-- The word moves lane `hw` of register `rd`. -/
def IsMoveWide (w : BitVec 32) (op : MoveOp) (hw : BitVec 2) (rd : BitVec 5) : Prop :=
  ∃ imm, MoveWide.decode w = some ⟨op, hw, imm, rd⟩

section Decode

variable {w : BitVec 32} {op : MoveOp} {hw : BitVec 2} {imm : BitVec 16} {rd : BitVec 5} {u : ℕ}

theorem decode_eq_some_iff : MoveWide.decode w = some ⟨op, hw, imm, rd⟩ ↔
    (w.extractLsb' 31 1 = 1#1 ∧ w.extractLsb' 23 6 = 0b100101#6) ∧
      MoveOp.ofCode (w.extractLsb' 29 2) = some op ∧ w.extractLsb' 21 2 = hw ∧
      w.extractLsb' 5 16 = imm ∧ w.extractLsb' 0 5 = rd := by
  unfold MoveWide.decode
  by_cases h : w.extractLsb' 31 1 = 1#1 ∧ w.extractLsb' 23 6 = 0b100101#6
  · simp only [if_pos h, Option.map_eq_some_iff, MoveWide.mk.injEq]
    constructor
    · rintro ⟨op', h1, rfl, h2⟩
      exact ⟨h, h1, h2⟩
    · rintro ⟨-, h1, h2⟩
      exact ⟨op, h1, rfl, h2⟩
  · simp only [if_neg h, reduceCtorEq, false_iff]
    exact fun hc => h hc.1

theorem IsMoveWide.decode_setImm (h : IsMoveWide w op hw rd) (v : BitVec u) :
    MoveWide.decode (setField w 5 16 v) = some ⟨op, hw, v.setWidth 16, rd⟩ := by
  obtain ⟨imm, h⟩ := h
  obtain ⟨⟨h1, h2⟩, h3, h4, -, h5⟩ := decode_eq_some_iff.mp h
  refine decode_eq_some_iff.mpr ⟨⟨?_, ?_⟩, ?_, ?_, extract_setField w v (by omega), ?_⟩
  · rw [extract_setField_of_disjoint w v (by omega) (by omega), h1]
  · rw [extract_setField_of_disjoint w v (by omega) (by omega), h2]
  · rw [extract_setField_of_disjoint w v (by omega) (by omega), h3]
  · rw [extract_setField_of_disjoint w v (by omega) (by omega), h4]
  · rw [extract_setField_of_disjoint w v (by omega) (by omega), h5]

theorem IsMoveWide.setOp (h : IsMoveWide w op hw rd) {c : BitVec 2} {op' : MoveOp}
    (hc : MoveOp.ofCode c = some op') : IsMoveWide (setField w 29 2 c) op' hw rd := by
  obtain ⟨imm, h⟩ := h
  obtain ⟨⟨h1, h2⟩, -, h3, h4, h5⟩ := decode_eq_some_iff.mp h
  refine ⟨imm, decode_eq_some_iff.mpr ⟨⟨?_, ?_⟩, ?_, ?_, ?_, ?_⟩⟩
  · rw [extract_setField_of_disjoint w c (by omega) (by omega), h1]
  · rw [extract_setField_of_disjoint w c (by omega) (by omega), h2]
  · rw [extract_setField w c (by omega), BitVec.setWidth_eq, hc]
  · rw [extract_setField_of_disjoint w c (by omega) (by omega), h3]
  · rw [extract_setField_of_disjoint w c (by omega) (by omega), h4]
  · rw [extract_setField_of_disjoint w c (by omega) (by omega), h5]

theorem IsMoveWide.getLsbD_26 (h : IsMoveWide w op hw rd) : w.getLsbD 26 = false := by
  obtain ⟨imm, h⟩ := h
  have h2 := (decode_eq_some_iff.mp h).1.2
  have hb := BitVec.getLsbD_extractLsb' 23 6 w 3
  rw [h2] at hb
  simpa using hb.symm

end Decode

/-! ### Building a value lane by lane -/

/-- The two words have the same bits from bit `n` on. -/
def AgreeFrom (n : ℕ) (a b : BitVec 64) : Prop := ∀ i < 64, n ≤ i → a.getLsbD i = b.getLsbD i

theorem AgreeFrom.eq {a b : BitVec 64} (h : AgreeFrom 0 a b) : a = b :=
  BitVec.eq_of_getLsbD_eq fun i hi => h i hi (Nat.zero_le i)

/-- A lane of the value, put in its place, brings the agreement down by one lane. -/
theorem AgreeFrom.setField_lane {g : ℕ} {old val : BitVec 64}
    (h : AgreeFrom (16 * (g + 1)) old val) :
    AgreeFrom (16 * g) (setField old (16 * g) 16 (val.extractLsb' (16 * g) 16)) val := by
  intro i hi hgi
  rw [getLsbD_setField _ _ _ _ hi]
  by_cases hlt : i < 16 * g + 16
  · rw [if_pos ⟨hgi, hlt⟩, BitVec.getLsbD_extractLsb', show 16 * g + (i - 16 * g) = i by omega]
    simp [show i - 16 * g < 16 by omega]
  · rw [if_neg (by omega)]
    exact h i hi (by omega)

/-- The word is the MOVK of lane `k` of the value. -/
def MovesLane (val : BitVec 64) (rd : BitVec 5) (w : BitVec 32) (k : ℕ) : Prop :=
  MoveWide.decode w = some ⟨.movk, BitVec.ofNat 2 k, val.extractLsb' (16 * k) 16, rd⟩

theorem MoveWide.value_movk {k : ℕ} (hk : k < 4) (imm : BitVec 16) (rd : BitVec 5)
    (old : BitVec 64) : MoveWide.value ⟨.movk, BitVec.ofNat 2 k, imm, rd⟩ old =
      setField old (16 * k) 16 imm := by
  unfold MoveWide.value
  simp only [BitVec.toNat_ofNat]
  rw [Nat.mod_eq_of_lt (by omega)]

/-- **The lanes below `g` complete a register** that agrees with the value from lane `g` on. -/
theorem runMoves_lanes {val : BitVec 64} {rd : BitVec 5} (words : ℕ → BitVec 32) :
    ∀ g ≤ 4, (∀ k < g, MovesLane val rd (words k) k) →
      ∀ r : Regs, AgreeFrom (16 * g) (r rd) val →
        runMoves ((List.range g).reverse.map words) r = some (Function.update r rd val) := by
  intro g
  induction g with
  | zero =>
    intro _ _ r h
    rw [← AgreeFrom.eq h, Function.update_eq_self]
    rfl
  | succ g ih =>
    intro hg hw r h
    have hstep : runMoves ((List.range (g + 1)).reverse.map words) r =
        ((MoveWide.decode (words g)).map (·.exec r)).bind
          (runMoves ((List.range g).reverse.map words)) := by
      rw [List.range_succ, List.reverse_append]
      rfl
    have hg' := hw g (by omega)
    rw [hstep, hg', Option.map_some, Option.bind_some]
    refine (ih (by omega) (fun k hk => hw k (by omega)) _ ?_).trans ?_
    · unfold MoveWide.exec
      rw [Function.update_self, MoveWide.value_movk (by omega)]
      exact h.setField_lane
    · unfold MoveWide.exec
      rw [Function.update_idem]

/-- **A first word and the lanes below it** leave the value, when the first word makes the register
agree from its lane on. -/
theorem runMoves_cons {val : BitVec 64} {rd : BitVec 5} {w : BitVec 32} {i : MoveWide}
    (words : ℕ → BitVec 32) {g : ℕ} (hg : g ≤ 4) (hlow : ∀ k < g, MovesLane val rd (words k) k)
    (hw : MoveWide.decode w = some i) (hrd : i.rd = rd)
    (hi : ∀ old, AgreeFrom (16 * g) (i.value old) val) (r : Regs) :
    runMoves (w :: (List.range g).reverse.map words) r = some (Function.update r rd val) := by
  have hstep : runMoves (w :: (List.range g).reverse.map words) r =
      ((MoveWide.decode w).map (·.exec r)).bind (runMoves ((List.range g).reverse.map words)) := rfl
  subst hrd
  rw [hstep, hw, Option.map_some, Option.bind_some]
  refine (runMoves_lanes words g hg hlow _ ?_).trans ?_
  · unfold MoveWide.exec
    rw [Function.update_self]
    exact hi _
  · unfold MoveWide.exec
    rw [Function.update_idem]

/-! ### The first lane -/

section First

variable {g : ℕ} {rd : BitVec 5} {val : BitVec 64}

theorem getLsbD_shifted_lane (hg : g < 4) (val : BitVec 64) {i : ℕ} (hi : i < 64)
    (hgi : 16 * g ≤ i) :
    ((val.extractLsb' (16 * g) 16).setWidth 64 <<< (16 * (BitVec.ofNat 2 g).toNat)).getLsbD i =
      (decide (i < 16 * g + 16) && val.getLsbD i) := by
  rw [BitVec.toNat_ofNat, Nat.mod_eq_of_lt (by omega), BitVec.getLsbD_shiftLeft,
    BitVec.getLsbD_setWidth, BitVec.getLsbD_extractLsb', show 16 * g + (i - 16 * g) = i by omega]
  simp only [hi, decide_true, Bool.true_and, show ¬ i < 16 * g by omega, decide_false,
    Bool.not_false, show i - 16 * g < 64 by omega]
  congr 1
  exact decide_eq_decide.mpr (by omega)

theorem agreeFrom_movz (hg : g < 4) (h : val.toNat < 2 ^ (16 * g + 16)) (old : BitVec 64) :
    AgreeFrom (16 * g) (MoveWide.value ⟨.movz, BitVec.ofNat 2 g, val.extractLsb' (16 * g) 16, rd⟩
      old) val := by
  intro i hi hgi
  refine (getLsbD_shifted_lane hg val hi hgi).trans ?_
  by_cases hlt : i < 16 * g + 16
  · simp [hlt]
  · have h0 : val.getLsbD i = false := by
      rw [← BitVec.testBit_toNat]
      exact Nat.testBit_lt_two_pow
        (Nat.lt_of_lt_of_le h (Nat.pow_le_pow_right (by omega) (by omega)))
    simp [hlt, h0]

theorem agreeFrom_movn (hg : g < 4) (h : (~~~val).toNat < 2 ^ (16 * g + 16)) (old : BitVec 64) :
    AgreeFrom (16 * g) (MoveWide.value
      ⟨.movn, BitVec.ofNat 2 g, (~~~val).extractLsb' (16 * g) 16, rd⟩ old) val := by
  intro i hi hgi
  have hz : (MoveWide.value ⟨.movz, BitVec.ofNat 2 g, (~~~val).extractLsb' (16 * g) 16, rd⟩
      old).getLsbD i = (~~~val).getLsbD i := agreeFrom_movz hg h old i hi hgi
  refine (BitVec.getLsbD_not).trans ?_
  refine (congrArg (decide (i < 64) && !·) hz).trans ?_
  rw [BitVec.getLsbD_not]
  simp [hi]

end First

/-! ### Page and offset -/

def IsAdrp (w : BitVec 32) : Prop := w.extractLsb' 31 1 = 1#1 ∧ w.extractLsb' 24 5 = 0b10000#5

/-- The immediate of ADRP: `immhi:immlo`. -/
def adrpImm (w : BitVec 32) : BitVec 21 := w.extractLsb' 5 19 ++ w.extractLsb' 29 2

/-- The page that the ADRP `w` at `pc` computes. -/
def adrpPage (pc : BitVec 64) (w : BitVec 32) : BitVec 64 :=
  (pc &&& ~~~0xfff#64) + (adrpImm w).signExtend 64 * 4096#64

def IsAddImm (w : BitVec 32) : Prop := w.extractLsb' 23 8 = 0b00100010#8

/-- The scale `k` of a load or store with an unsigned offset, of `2 ^ k` bytes. -/
def loadStoreScale (w : BitVec 32) : Option ℕ :=
  if w.extractLsb' 27 3 = 0b111#3 ∧ w.extractLsb' 24 2 = 0b01#2 then
    -- a vector register, with the upper bit of the operation set, is one of 128 bits
    if w.getLsbD 26 = true ∧ w.getLsbD 23 = true then
      if w.extractLsb' 30 2 = 0#2 then some 4 else none
    else some (w.extractLsb' 30 2).toNat
  else none

/-- The 12-bit immediate of an addition, load or store. -/
def imm12 (w : BitVec 32) : BitVec 12 := w.extractLsb' 10 12

section Page

variable {w : BitVec 32}

theorem IsAdrp.getLsbD_26 (h : IsAdrp w) : w.getLsbD 26 = false := by
  have hb := BitVec.getLsbD_extractLsb' 24 5 w 2
  rw [h.2] at hb
  simpa using hb.symm

theorem IsAddImm.getLsbD_26 (h : IsAddImm w) : w.getLsbD 26 = false := by
  have hb := BitVec.getLsbD_extractLsb' 23 8 w 3
  rw [h] at hb
  simpa using hb.symm

theorem getLsbD_27_of_loadStoreScale {k : ℕ} (h : loadStoreScale w = some k) :
    w.getLsbD 27 = true := by
  unfold loadStoreScale at h
  by_cases hc : w.extractLsb' 27 3 = 0b111#3 ∧ w.extractLsb' 24 2 = 0b01#2
  · have hb := BitVec.getLsbD_extractLsb' 27 3 w 0
    rw [hc.1] at hb
    simpa using hb.symm
  · rw [if_neg hc] at h
    exact absurd h (by simp)

theorem adrpImm_setField (w : BitVec 32) (d : BitVec 64) (lsb : ℕ) :
    adrpImm (setField (setField w 29 2 (d.extractLsb' lsb 2)) 5 19 (d.extractLsb' (lsb + 2) 19)) =
      d.extractLsb' lsb 21 := by
  have hlo : (setField (setField w 29 2 (d.extractLsb' lsb 2)) 5 19
      (d.extractLsb' (lsb + 2) 19)).extractLsb' 29 2 = d.extractLsb' lsb 2 := by
    rw [extract_setField_of_disjoint _ _ (by omega) (by omega), extract_setField _ _ (by omega),
      BitVec.setWidth_eq]
  unfold adrpImm
  rw [hlo, extract_setField _ _ (by omega), BitVec.setWidth_eq]
  apply BitVec.eq_of_getLsbD_eq
  intro i hi
  rw [BitVec.getLsbD_append, BitVec.getLsbD_extractLsb', BitVec.getLsbD_extractLsb',
    BitVec.getLsbD_extractLsb']
  by_cases h2 : i < 2
  · simp [h2, hi]
  · rw [show lsb + 2 + (i - 2) = lsb + i by omega]
    simp [h2, hi, show i - 2 < 19 by omega]

theorem imm12_setField (w : BitVec 32) {u : ℕ} (v : BitVec u) :
    imm12 (setField w 10 12 v) = v.setWidth 12 := extract_setField w v (by omega)

/-- **A page distance that fits 21 bits** is its immediate, scaled. -/
theorem signExtend_page {d : BitVec 64} (hd : 4096 ∣ d.toNat)
    (h : -2 ^ 32 ≤ d.toInt ∧ d.toInt < 2 ^ 32) :
    (d.extractLsb' 12 21).signExtend 64 * 4096#64 = d := by
  have hdvd : (4096 : ℤ) ∣ d.toInt := by
    rw [BitVec.toInt_eq_toNat_cond]
    split <;> omega
  have hshift : d.extractLsb' 12 21 = (d.sshiftRight 12).setWidth 21 := by
    apply BitVec.eq_of_getLsbD_eq
    intro i hi
    rw [BitVec.getLsbD_extractLsb', BitVec.getLsbD_setWidth, BitVec.getLsbD_sshiftRight]
    simp [hi, show ¬ 64 ≤ i by omega, show 12 + i < 64 by omega]
  have hfit : d.sshiftRight 12 = ((d.sshiftRight 12).setWidth 21).signExtend 64 := by
    refine (eq_signExtend_iff _ (by omega) (by omega)).mpr ((sshiftRight_mem d 12 _ _).mpr ?_)
    norm_num at h ⊢
    exact h
  rw [hshift, ← hfit]
  apply BitVec.eq_of_toInt_eq
  have hlo := BitVec.le_toInt d
  have hhi := @BitVec.toInt_lt 64 d
  have hmul : d.toInt / 2 ^ 12 * 4096 = d.toInt := by omega
  rw [BitVec.toInt_mul, toInt_sshiftRight, show (4096#64).toInt = 4096 from rfl, hmul,
    Int.bmod_eq_of_le]
  · norm_num at hlo ⊢
    omega
  · norm_num at hhi ⊢
    omega

/-- **The low part of an address**, scaled down and up again. -/
theorem low_scaled {val : BitVec 64} {k : ℕ} (hk : k ≤ 12) (h : 2 ^ k ∣ val.toNat) :
    ((val.extractLsb' k (12 - k)).setWidth 12).setWidth 64 * BitVec.ofNat 64 (2 ^ k) =
      val % 4096#64 := by
  apply BitVec.eq_of_toNat_eq
  obtain ⟨c, hc⟩ := h
  have hpos : 0 < 2 ^ k := by positivity
  have hpow : 2 ^ k * 2 ^ (12 - k) = 4096 := by
    rw [← pow_add, Nat.add_sub_cancel' hk]
    norm_num
  have hlt : c % 2 ^ (12 - k) < 2 ^ (12 - k) := Nat.mod_lt _ (by positivity)
  have h12 : 2 ^ (12 - k) ≤ 2 ^ 12 := Nat.pow_le_pow_right (by omega) (by omega)
  have hk12 : 2 ^ k ≤ 2 ^ 12 := Nat.pow_le_pow_right (by omega) hk
  have himm : ((val.extractLsb' k (12 - k)).setWidth 12 |>.setWidth 64).toNat =
      c % 2 ^ (12 - k) := by
    rw [BitVec.toNat_setWidth, BitVec.toNat_setWidth, BitVec.extractLsb'_toNat,
      Nat.shiftRight_eq_div_pow, hc, Nat.mul_div_cancel_left _ hpos,
      Nat.mod_eq_of_lt (Nat.lt_of_lt_of_le hlt h12), Nat.mod_eq_of_lt (by omega)]
  have hprod : 2 ^ k * (c % 2 ^ (12 - k)) < 4096 := by
    calc 2 ^ k * (c % 2 ^ (12 - k)) < 2 ^ k * 2 ^ (12 - k) := Nat.mul_lt_mul_of_pos_left hlt hpos
      _ = 4096 := hpow
  have hmod : (val % 4096#64).toNat = val.toNat % 4096 := BitVec.toNat_umod
  rw [BitVec.toNat_mul, himm, BitVec.toNat_ofNat, Nat.mod_eq_of_lt (show 2 ^ k < 2 ^ 64 by omega),
    Nat.mul_comm, Nat.mod_eq_of_lt (by omega), ← Nat.mul_mod_mul_left, hpow, ← hc, hmod]

theorem pageOf_add_low (x : BitVec 64) : pageOf x + x % 4096#64 = x := by
  rw [pageOf, sub_add_cancel]

theorem dvd_pageOf_sub (x y : BitVec 64) : 4096 ∣ (pageOf x - pageOf y).toNat := by
  have hx := toNat_pageOf x
  have hy := toNat_pageOf y
  have := (pageOf x).isLt
  have := (pageOf y).isLt
  rw [BitVec.toNat_sub]
  omega

/-- **Page and offset add up** to the address, modulo `2 ^ 64`. -/
theorem adrpPage_add {pc val : BitVec 64} {k : ℕ} (hk : k ≤ 12) (hdvd : 2 ^ k ∣ val.toNat)
    (hrange : -2 ^ 32 ≤ (pageOf val - pageOf pc).toInt ∧ (pageOf val - pageOf pc).toInt < 2 ^ 32)
    {w w' : BitVec 32} (hw : adrpImm w = (pageOf val - pageOf pc).extractLsb' 12 21)
    (hw' : imm12 w' = (val.extractLsb' k (12 - k)).setWidth 12) :
    adrpPage pc w + (imm12 w').setWidth 64 * BitVec.ofNat 64 (2 ^ k) = val := by
  rw [adrpPage, hw, hw', signExtend_page (dvd_pageOf_sub val pc) hrange, low_scaled hk hdvd,
    and_not_low, add_sub_cancel, pageOf_add_low]

end Page

/-! ### How far the sequences reach -/

section Reach

variable {g : ℕ} {rd : BitVec 5} {val : BitVec 64} {w w' : BitVec 32}

theorem runMoves_agree (words : ℕ → BitVec 32) : ∀ g ≤ 4,
    (∀ k < g, MovesLane val rd (words k) k) → ∀ r : Regs, ∃ r',
      runMoves ((List.range g).reverse.map words) r = some r' ∧
        AgreeFrom (16 * g) (r' rd) (r rd) := by
  intro g
  induction g with
  | zero => exact fun _ _ r => ⟨r, rfl, fun _ _ _ => rfl⟩
  | succ g ih =>
    intro hg hw r
    obtain ⟨r', hrun, hr'⟩ := ih (by omega) (fun k hk => hw k (by omega))
      (Function.update r rd (setField (r rd) (16 * g) 16 (val.extractLsb' (16 * g) 16)))
    refine ⟨r', ?_, fun i hi hgi => ?_⟩
    · rw [← hrun, List.range_succ, List.reverse_append]
      show ((MoveWide.decode (words g)).map (·.exec r)).bind _ = _
      rw [hw g (by omega), Option.map_some, Option.bind_some, MoveWide.exec,
        MoveWide.value_movk (by omega)]
      rfl
    · rw [hr' i hi (by omega), Function.update_self, getLsbD_setField _ _ _ _ hi, if_neg (by omega)]

/-- The words leave the value in the register, and the other registers as they are. -/
def Leaves (ws : List (BitVec 32)) (rd : BitVec 5) (val : BitVec 64) : Prop :=
  ∀ r, runMoves ws r = some (Function.update r rd val)

/-- **A first word and the lanes below it** leave the value exactly when the first word makes the
register agree from its lane on. -/
theorem leaves_cons_iff {i : MoveWide} (words : ℕ → BitVec 32) (hg : g ≤ 4)
    (hlow : ∀ k < g, MovesLane val rd (words k) k) (hw : MoveWide.decode w = some i)
    (hrd : i.rd = rd) : Leaves (w :: (List.range g).reverse.map words) rd val ↔
      ∀ old, AgreeFrom (16 * g) (i.value old) val := by
  refine ⟨fun h old => ?_, fun h r => runMoves_cons words hg hlow hw hrd h r⟩
  obtain ⟨r', hrun, hr'⟩ := runMoves_agree words g hg hlow (i.exec fun _ => old)
  have hfirst : runMoves (w :: (List.range g).reverse.map words) (fun _ => old) = some r' := by
    show ((MoveWide.decode w).map (·.exec fun _ => old)).bind _ = _
    rw [hw, Option.map_some, Option.bind_some]
    exact hrun
  obtain rfl := Option.some.inj (hfirst.symm.trans (h _))
  subst hrd
  rw [Function.update_self, MoveWide.exec, Function.update_self] at hr'
  exact fun j hj hgj => (hr' j hj hgj).symm

theorem agreeFrom_movz_iff (hg : g < 4) :
    (∀ old, AgreeFrom (16 * g) (MoveWide.value
      ⟨.movz, BitVec.ofNat 2 g, val.extractLsb' (16 * g) 16, rd⟩ old) val) ↔
        val.toNat < 2 ^ (16 * g + 16) := by
  refine ⟨fun h => Nat.lt_pow_two_of_testBit _ fun i hi => ?_, fun h => agreeFrom_movz hg h⟩
  by_cases hi64 : i < 64
  · have hbit := (getLsbD_shifted_lane hg val hi64 (by omega)).symm.trans (h 0 i hi64 (by omega))
    rw [BitVec.testBit_toNat, ← hbit]
    simp [hi]
  · exact BitVec.testBit_toNat val ▸ BitVec.getLsbD_of_ge val i (by omega)

theorem agreeFrom_movn_iff (hg : g < 4) :
    (∀ old, AgreeFrom (16 * g) (MoveWide.value
      ⟨.movn, BitVec.ofNat 2 g, (~~~val).extractLsb' (16 * g) 16, rd⟩ old) val) ↔
        (~~~val).toNat < 2 ^ (16 * g + 16) := by
  refine ⟨fun h => (@agreeFrom_movz_iff g rd (~~~val) hg).mp fun old i hi hgi => ?_,
    fun h => agreeFrom_movn hg h⟩
  rw [BitVec.getLsbD_not, ← h old i hi hgi, MoveWide.value, MoveWide.value, BitVec.getLsbD_not]
  simp [hi]

theorem mul_mod_lt_page {k : ℕ} (hk : k ≤ 12) (n : ℕ) : 2 ^ k * (n % 2 ^ (12 - k)) < 4096 := by
  have hlt : n % 2 ^ (12 - k) < 2 ^ (12 - k) := Nat.mod_lt _ (by positivity)
  calc 2 ^ k * (n % 2 ^ (12 - k)) < 2 ^ k * 2 ^ (12 - k) :=
        Nat.mul_lt_mul_of_pos_left hlt (by positivity)
    _ = 2 ^ 12 := by rw [← pow_add, Nat.add_sub_cancel' hk]

theorem toNat_low_scaled {k : ℕ} (hk : k ≤ 12) (val : BitVec 64) :
    (((val.extractLsb' k (12 - k)).setWidth 12).setWidth 64 * BitVec.ofNat 64 (2 ^ k)).toNat =
      2 ^ k * (val.toNat / 2 ^ k % 2 ^ (12 - k)) := by
  have hlt : val.toNat / 2 ^ k % 2 ^ (12 - k) < 2 ^ (12 - k) := Nat.mod_lt _ (by positivity)
  have h12 : 2 ^ (12 - k) ≤ 2 ^ 12 := Nat.pow_le_pow_right (by omega) (by omega)
  have hk12 : 2 ^ k ≤ 2 ^ 12 := Nat.pow_le_pow_right (by omega) hk
  have hprod := mul_mod_lt_page hk (val.toNat / 2 ^ k)
  have himm : ((val.extractLsb' k (12 - k)).setWidth 12 |>.setWidth 64).toNat =
      val.toNat / 2 ^ k % 2 ^ (12 - k) := by
    rw [BitVec.toNat_setWidth, BitVec.toNat_setWidth, BitVec.extractLsb'_toNat,
      Nat.shiftRight_eq_div_pow, Nat.mod_eq_of_lt (Nat.lt_of_lt_of_le hlt h12),
      Nat.mod_eq_of_lt (by omega)]
  rw [BitVec.toNat_mul, himm, BitVec.toNat_ofNat, Nat.mod_eq_of_lt (show 2 ^ k < 2 ^ 64 by omega),
    Nat.mul_comm, Nat.mod_eq_of_lt (by omega)]

theorem pageOf_add_mod (pc x : BitVec 64) : (pageOf pc + x * 4096#64).toNat % 4096 = 0 := by
  have hpc := toNat_pageOf pc
  rw [BitVec.toNat_add, BitVec.toNat_mul, show (4096#64).toNat = 4096 from rfl, hpc]
  omega

theorem dvd_of_mod_page {k n c : ℕ} (hk : k ≤ 12) (h : n % 4096 = 2 ^ k * c) : 2 ^ k ∣ n := by
  have hpow : (2 : ℕ) ^ k ∣ 2 ^ 12 := pow_dvd_pow 2 hk
  rw [← Nat.mod_add_div n 4096, h]
  exact dvd_add (dvd_mul_right _ _) (hpow.mul_right _)

theorem toInt_pages (imm : BitVec 21) : -2 ^ 32 ≤ (imm.signExtend 64 * 4096#64).toInt ∧
    (imm.signExtend 64 * 4096#64).toInt < 2 ^ 32 := by
  have hlo := BitVec.le_toInt imm
  have hhi := @BitVec.toInt_lt 21 imm
  norm_num at hlo hhi
  rw [BitVec.toInt_mul, BitVec.toInt_signExtend_of_le (by omega),
    show (4096#64).toInt = 4096 from rfl, Int.bmod_eq_of_le (by omega) (by omega)]
  omega

/-- **Page and offset add up exactly** when the scale divides the address and the page is in
reach. -/
theorem adrpPage_add_iff {pc : BitVec 64} {k : ℕ} (hk : k ≤ 12)
    (hw : adrpImm w = (pageOf val - pageOf pc).extractLsb' 12 21)
    (hw' : imm12 w' = (val.extractLsb' k (12 - k)).setWidth 12) :
    adrpPage pc w + (imm12 w').setWidth 64 * BitVec.ofNat 64 (2 ^ k) = val ↔
      2 ^ k ∣ val.toNat ∧ -2 ^ 32 ≤ (pageOf val - pageOf pc).toInt ∧
        (pageOf val - pageOf pc).toInt < 2 ^ 32 := by
  refine ⟨fun h => ?_, fun ⟨hdvd, hrange⟩ => adrpPage_add hk hdvd hrange hw hw'⟩
  rw [adrpPage, hw, hw', and_not_low] at h
  have hlow := toNat_low_scaled hk val
  have hdvd : 2 ^ k ∣ val.toNat := by
    refine dvd_of_mod_page hk (Eq.trans ?_ hlow)
    have hsum := congrArg BitVec.toNat h
    have hpage := pageOf_add_mod pc
      (((pageOf val - pageOf pc).extractLsb' 12 21).signExtend 64)
    have hlt := mul_mod_lt_page hk (val.toNat / 2 ^ k)
    rw [BitVec.toNat_add] at hsum
    omega
  have hdist : ((pageOf val - pageOf pc).extractLsb' 12 21).signExtend 64 * 4096#64 =
      pageOf val - pageOf pc := by
    rw [low_scaled hk hdvd] at h
    rw [eq_sub_iff_add_eq, add_comm]
    exact eq_sub_of_add_eq h
  have hreach := toInt_pages ((pageOf val - pageOf pc).extractLsb' 12 21)
  rw [hdist] at hreach
  exact ⟨hdvd, hreach⟩

end Reach
end Lib.A64

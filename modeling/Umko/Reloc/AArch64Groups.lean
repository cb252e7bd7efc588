import Umko.Lib.A64
import Umko.Reloc.AArch64Spec

/-!
# AArch64 addresses in several instructions

One number in several words, each with a relocation of its own: the groups of move-wide
instructions, and ADRP with the low 12 bits in an addition, load or store. When the word with the
highest bits accepts the number, the instructions put exactly this number together.
-/

namespace Umko.AArch64

open Lib.Memory Lib.BitField Lib.A64

/-! ### Words with a relocation -/

/-- A place in a memory, for a relocation to be applied to. -/
structure Site where
  place : Addr
  mem : Mem

def Site.word (s : Site) : BitVec 32 := load 32 s.mem s.place

/-- What `do_relocate_add` returns for the place. -/
def Site.ret (s : Site) (t : RelocType) (val : BitVec 64) : ℤ :=
  (doRelocateAdd t.code s.place val s.mem).1

/-- The word that `do_relocate_add` leaves at the place. -/
def Site.patched (s : Site) (t : RelocType) (val : BitVec 64) : BitVec 32 :=
  load 32 (doRelocateAdd t.code s.place val s.mem).2 s.place

section Site

variable {s : Site} {t : RelocType} {val : BitVec 64}

theorem Site.ret_eq (h : NotBreak s.word) : s.ret t val = verdict t.range (t.x s.place val) := by
  rw [Site.ret, doRelocateAdd_eq t s.place val s.mem fun _ => h]

theorem Site.patched_eq (h : NotBreak s.word) (ht : t.field.isInsn = true) :
    s.patched t val = t.field.insn (t.x s.place val) s.word := by
  rw [Site.patched, doRelocateAdd_eq t s.place val s.mem fun _ => h]
  generalize t.field = f at ht
  cases f with
  | none | data _ => simp [Field.isInsn] at ht
  | _ => exact load_store _ (by omega) (by omega)

theorem notBreak_of_bit {w : BitVec 32} {i : ℕ} (hi : i < 29)
    (h : w.getLsbD i = !breakFault.getLsbD i) : NotBreak w :=
  ⟨i, by omega, by omega, by omega, by simp [h]⟩

end Site

/-! ### Groups of move-wide instructions -/

/-- The type of group `g` of an unsigned number, with a check. -/
def movwUabs : Fin 3 → RelocType
  | 0 => .movwUabsG0
  | 1 => .movwUabsG1
  | 2 => .movwUabsG2

/-- The type of group `g` of a signed number, with a check. -/
def movwSabs : Fin 3 → RelocType
  | 0 => .movwSabsG0
  | 1 => .movwSabsG1
  | 2 => .movwSabsG2

/-- The type of group `g` without a check. -/
def movwUabsNc : ℕ → RelocType
  | 0 => .movwUabsG0Nc
  | 1 => .movwUabsG1Nc
  | _ => .movwUabsG2Nc

/-- The places of the groups below `g` hold MOVK instructions of these groups. -/
def MovkSites (site : ℕ → Site) (rd : BitVec 5) (g : ℕ) : Prop :=
  ∀ k < g, IsMoveWide (site k).word .movk (BitVec.ofNat 2 k) rd

/-- The words of the groups below `g` after relocation, the highest group first. -/
def movkWords (site : ℕ → Site) (val : BitVec 64) (g : ℕ) : List (BitVec 32) :=
  (List.range g).reverse.map fun k => (site k).patched (movwUabsNc k) val

section Groups

variable {s : Site} {val : BitVec 64} {rd : BitVec 5} {op : MoveOp} {hw : BitVec 2}

theorem notBreak_of_isMoveWide {w : BitVec 32} (h : IsMoveWide w op hw rd) : NotBreak w :=
  notBreak_of_bit (show 26 < 29 by omega) (by rw [h.getLsbD_26]; rfl)

theorem decode_patched {t : RelocType} {lsb : ℕ} (h : IsMoveWide s.word op hw rd)
    (hf : t.field = .imm 5 16 lsb 16) (hx : t.x s.place val = val) :
    MoveWide.decode (s.patched t val) = some ⟨op, hw, val.extractLsb' lsb 16, rd⟩ := by
  rw [Site.patched_eq (notBreak_of_isMoveWide h) (by rw [hf]; rfl), hf, hx]
  exact (h.decode_setImm _).trans (by rw [BitVec.setWidth_eq])

theorem movesLane_patched (val : BitVec 64) {site : ℕ → Site} {g : ℕ} (hg : g ≤ 3)
    (h : MovkSites site rd g) :
    ∀ k < g, MovesLane val rd ((site k).patched (movwUabsNc k) val) k := by
  intro k hk
  have hk3 : k < 3 := by omega
  unfold MovesLane
  interval_cases k
  · exact decode_patched (h 0 hk) rfl rfl
  · exact decode_patched (h 1 hk) rfl rfl
  · exact decode_patched (h 2 hk) rfl rfl

theorem movwUabs_range (g : Fin 3) : (movwUabs g).range = some (0, 2 ^ (16 * g.val + 16)) := by
  fin_cases g <;> rfl

theorem movwSabs_range (g : Fin 3) :
    (movwSabs g).range = some (-2 ^ (16 * g.val + 16), 2 ^ (16 * g.val + 16)) := by
  fin_cases g <;> rfl

theorem movwUabs_field (g : Fin 3) : (movwUabs g).field = .imm 5 16 (16 * g.val) 16 := by
  fin_cases g <;> rfl

theorem movwSabs_field (g : Fin 3) : (movwSabs g).field = .movw (16 * g.val) := by
  fin_cases g <;> rfl

theorem movwUabs_x (g : Fin 3) (place : Addr) : (movwUabs g).x place val = val := by
  fin_cases g <;> rfl

theorem movwSabs_x (g : Fin 3) (place : Addr) : (movwSabs g).x place val = val := by
  fin_cases g <;> rfl

theorem decode_patched_signed (val : BitVec 64) (g : Fin 3)
    (h : IsMoveWide s.word op (BitVec.ofNat 2 g) rd) :
    MoveWide.decode (s.patched (movwSabs g) val) =
      some (if 0 ≤ val.toInt then ⟨.movz, BitVec.ofNat 2 g, val.extractLsb' (16 * g) 16, rd⟩
        else ⟨.movn, BitVec.ofNat 2 g, (~~~val).extractLsb' (16 * g) 16, rd⟩) := by
  rw [Site.patched_eq (notBreak_of_isMoveWide h) (by rw [movwSabs_field]; rfl), movwSabs_field,
    movwSabs_x]
  unfold Field.insn
  dsimp only
  split
  · exact ((h.setOp rfl).decode_setImm _).trans (by rw [BitVec.setWidth_eq])
  · exact ((h.setOp rfl).decode_setImm _).trans (by rw [BitVec.setWidth_eq])

/-- **Move-wide groups rebuild the number**: MOVZ of group 3 with MOVK of the groups below it,
whatever the number; and for each lower top group, unsigned or signed, when its relocation
succeeds. A signed top group is made a MOVZ or a MOVN by the sign of the number. -/
theorem movwGroups_exact (val : BitVec 64) (rd : BitVec 5) (top : Site) (site : ℕ → Site) :
    (IsMoveWide top.word .movz 3 rd → MovkSites site rd 3 → ∀ r,
      runMoves (top.patched .movwUabsG3 val :: movkWords site val 3) r =
        some (Function.update r rd val)) ∧
    (∀ g : Fin 3, IsMoveWide top.word .movz (BitVec.ofNat 2 g) rd → MovkSites site rd g →
      top.ret (movwUabs g) val = 0 → ∀ r,
        runMoves (top.patched (movwUabs g) val :: movkWords site val g) r =
          some (Function.update r rd val)) ∧
    ∀ g : Fin 3, ∀ op ∈ [MoveOp.movz, .movn], IsMoveWide top.word op (BitVec.ofNat 2 g) rd →
      MovkSites site rd g → top.ret (movwSabs g) val = 0 →
        IsMoveWide (top.patched (movwSabs g) val) (if 0 ≤ val.toInt then .movz else .movn)
          (BitVec.ofNat 2 g) rd ∧
        ∀ r, runMoves (top.patched (movwSabs g) val :: movkWords site val g) r =
          some (Function.update r rd val) := by
  refine ⟨fun htop hsite r => ?_, fun g htop hsite hret r => ?_, ?_⟩
  · have hdec : MoveWide.decode (top.patched .movwUabsG3 val) =
        some ⟨.movz, BitVec.ofNat 2 3, val.extractLsb' (16 * 3) 16, rd⟩ :=
      decode_patched htop rfl rfl
    exact runMoves_cons _ (by omega) (movesLane_patched val le_rfl hsite) hdec rfl
      (agreeFrom_movz (by omega) val.isLt) r
  · have hdec : MoveWide.decode (top.patched (movwUabs g) val) =
        some ⟨.movz, BitVec.ofNat 2 g, val.extractLsb' (16 * g) 16, rd⟩ :=
      decode_patched htop (movwUabs_field g) (movwUabs_x g _)
    rw [Site.ret_eq (notBreak_of_isMoveWide htop), verdict_eq_zero_iff, movwUabs_x,
      movwUabs_range] at hret
    obtain ⟨h0, h1⟩ := hret _ rfl
    have hlt := g.isLt
    exact runMoves_cons _ (by omega) (movesLane_patched val (by omega) hsite) hdec rfl
      (agreeFrom_movz (by omega) (toNat_lt_of_toInt h0 h1)) r
  · intro g op _ htop hsite hret
    have hdec := decode_patched_signed val g htop
    rw [Site.ret_eq (notBreak_of_isMoveWide htop), verdict_eq_zero_iff, movwSabs_x,
      movwSabs_range] at hret
    obtain ⟨h0, h1⟩ := hret _ rfl
    have hlt := g.isLt
    have hlow := movesLane_patched val (by omega) hsite
    by_cases hs : 0 ≤ val.toInt
    · rw [if_pos hs] at hdec ⊢
      exact ⟨⟨_, hdec⟩, runMoves_cons _ (by omega) hlow hdec rfl
        (agreeFrom_movz (by omega) (toNat_lt_of_toInt hs h1))⟩
    · rw [if_neg hs] at hdec ⊢
      have hn : (~~~val).toNat < 2 ^ (16 * g.val + 16) := by
        refine toNat_lt_of_toInt ?_ ?_ <;> rw [toInt_not]
        · omega
        · dsimp only at h0
          omega
      exact ⟨⟨_, hdec⟩, runMoves_cons _ (by omega) hlow hdec rfl (agreeFrom_movn (by omega) hn)⟩

/-- `word` at the address `0x1000`. -/
def siteOf (word : BitVec 32) : Site := ⟨0x1000, store (fun _ => 0) 0x1000 word⟩

theorem siteOf_word (word : BitVec 32) : (siteOf word).word = word :=
  load_store _ (by omega) (by omega)

/-- The words `movk x0, #0, lsl #(16 * k)`. -/
def movkSite (k : ℕ) : Site := siteOf (setField 0xf2800000#32 21 2 (BitVec.ofNat 2 k))

/-- An address in four words, and `-5` in a MOVN and a MOVK. -/
theorem movwGroups_exact_samples :
    (∀ r, runMoves ((siteOf 0xd2e00000#32).patched .movwUabsG3 0xffff000012345678 ::
      movkWords movkSite 0xffff000012345678 3) r =
        some (Function.update r 0 0xffff000012345678)) ∧
    ∀ r, runMoves ((siteOf 0xd2a00000#32).patched .movwSabsG1 (-5) :: movkWords movkSite (-5) 1) r =
      some (Function.update r 0 (-5)) := by
  have hsites : ∀ g ≤ 3, MovkSites movkSite 0 g := by
    intro g hg k hk
    have hk3 : k < 3 := by omega
    refine ⟨0, ?_⟩
    rw [movkSite, siteOf_word]
    interval_cases k <;> decide +kernel
  refine ⟨(movwGroups_exact _ 0 _ movkSite).1 ⟨0, ?_⟩ (hsites 3 le_rfl),
    ((movwGroups_exact _ 0 _ movkSite).2.2 1 .movz (by simp) ⟨0, ?_⟩ (hsites 1 (by omega)) ?_).2⟩
  · rw [siteOf_word]
    decide
  · rw [siteOf_word]
    decide
  · have hb : NotBreak (siteOf 0xd2a00000#32).word := by
      rw [siteOf_word]
      exact notBreak_of_bit (show 26 < 29 by omega) (by decide)
    rw [Site.ret_eq hb]
    decide

end Groups

/-! ### ADRP and the low 12 bits -/

/-- The type of the low 12 bits in a load or store of `2 ^ k` bytes. -/
def ldstAbsLo12Nc : Fin 5 → RelocType
  | 0 => .ldst8AbsLo12Nc
  | 1 => .ldst16AbsLo12Nc
  | 2 => .ldst32AbsLo12Nc
  | 3 => .ldst64AbsLo12Nc
  | 4 => .ldst128AbsLo12Nc

/-- The word and its type hold the low part of an address, scaled by `2 ^ k`. -/
def LowPart (w : BitVec 32) (k : Fin 5) (t : RelocType) : Prop :=
  (IsAddImm w ∧ k = 0 ∧ t = .addAbsLo12Nc) ∨
    (loadStoreScale w = some k.val ∧ t = ldstAbsLo12Nc k)

/-- The distance from the page of the place to the page of the number, in pages. -/
def pageDistance (place : Addr) (val : BitVec 64) : ℤ :=
  ((val &&& ~~~0xfff#64) - (place &&& ~~~0xfff#64)).toInt / 4096

section Pairs

variable {s : Site} {val : BitVec 64} {t : RelocType} {k : Fin 5}

theorem IsAdrp.notBreak {w : BitVec 32} (h : IsAdrp w) : NotBreak w :=
  notBreak_of_bit (show 26 < 29 by omega) (by rw [h.getLsbD_26]; rfl)

theorem LowPart.notBreak {w : BitVec 32} (h : LowPart w k t) : NotBreak w := by
  obtain ⟨h, -⟩ | ⟨h, -⟩ := h
  · exact notBreak_of_bit (show 26 < 29 by omega) (by rw [h.getLsbD_26]; rfl)
  · exact notBreak_of_bit (show 27 < 29 by omega) (by rw [getLsbD_27_of_loadStoreScale h]; rfl)

theorem LowPart.field {w : BitVec 32} (h : LowPart w k t) :
    t.field = .imm 10 12 k.val (12 - k.val) := by
  obtain ⟨-, rfl, rfl⟩ | ⟨-, rfl⟩ := h
  · rfl
  · fin_cases k <;> rfl

theorem LowPart.x {w : BitVec 32} (h : LowPart w k t) (place : Addr) : t.x place val = val := by
  obtain ⟨-, -, rfl⟩ | ⟨-, rfl⟩ := h
  · rfl
  · fin_cases k <;> rfl

theorem patched_adrp (h : IsAdrp s.word) : s.patched .adrPrelPgHi21 val =
    setField (setField s.word 29 2 ((pageOf val - pageOf s.place).extractLsb' 12 2)) 5 19
      ((pageOf val - pageOf s.place).extractLsb' (12 + 2) 19) :=
  Site.patched_eq (IsAdrp.notBreak h) rfl

theorem patched_low (h : LowPart s.word k t) : s.patched t val =
    setField s.word 10 12 (val.extractLsb' k.val (12 - k.val)) := by
  rw [Site.patched_eq h.notBreak (by rw [h.field]; rfl), h.field, h.x]
  rfl

theorem pageDistance_mem (place : Addr) (val : BitVec 64) :
    (-2 ^ 20 ≤ pageDistance place val ∧ pageDistance place val < 2 ^ 20) ↔
      (-2 ^ 32 ≤ (pageOf val - pageOf place).toInt ∧
        (pageOf val - pageOf place).toInt < 2 ^ 32) := by
  rw [pageDistance, and_not_low, and_not_low]
  omega

theorem ret_adrp (h : IsAdrp s.word) : s.ret .adrPrelPgHi21 val = 0 ↔
    -2 ^ 20 ≤ pageDistance s.place val ∧ pageDistance s.place val < 2 ^ 20 := by
  rw [Site.ret_eq (IsAdrp.notBreak h), verdict_eq_zero_iff, pageDistance_mem]
  simp [RelocType.range, RelocType.x]

/-- **ADRP and a low part address the number exactly**: when the relocation of ADRP succeeds and the
access is aligned, the page and the scaled offset add up to the number; the registers and the
opcodes of both words stay; and out of reach, the relocation of ADRP fails. -/
theorem adrpPair_exact (val : BitVec 64) (a b : Site) (k : Fin 5) (t : RelocType)
    (ha : IsAdrp a.word) (hb : LowPart b.word k t) :
    (a.ret .adrPrelPgHi21 val = 0 → 2 ^ k.val ∣ val.toNat →
      adrpPage a.place (a.patched .adrPrelPgHi21 val) +
        (imm12 (b.patched t val)).setWidth 64 * BitVec.ofNat 64 (2 ^ k.val) = val) ∧
    (∀ i < 32, i < 5 ∨ (24 ≤ i ∧ i < 29) ∨ i = 31 →
      (a.patched .adrPrelPgHi21 val).getLsbD i = a.word.getLsbD i) ∧
    (∀ i < 32, i < 10 ∨ 22 ≤ i → (b.patched t val).getLsbD i = b.word.getLsbD i) ∧
    (¬ (-2 ^ 20 ≤ pageDistance a.place val ∧ pageDistance a.place val < 2 ^ 20) →
      a.ret .adrPrelPgHi21 val ≠ 0) := by
  refine ⟨fun hret hdvd => ?_, fun i hi hout => ?_, fun i hi hout => ?_, fun hfar hret => ?_⟩
  · have hk : k.val ≤ 12 := by omega
    refine adrpPage_add hk hdvd ((pageDistance_mem _ _).mp ((ret_adrp ha).mp hret)) ?_ ?_
    · rw [patched_adrp ha, adrpImm_setField]
    · rw [patched_low hb, imm12_setField]
  · rw [patched_adrp ha, getLsbD_setField _ _ _ _ hi, getLsbD_setField _ _ _ _ hi,
      if_neg (by omega), if_neg (by omega)]
  · rw [patched_low hb, getLsbD_setField _ _ _ _ hi, if_neg (by omega)]
  · exact hfar ((ret_adrp ha).mp hret)

/-- `adrp x0` at `0x1000` and `ldr x0, [x0]`, to an address three pages on. -/
theorem adrpPair_exact_ldr : adrpPage 0x1000 ((siteOf 0x90000000#32).patched .adrPrelPgHi21 0x4018) +
    (imm12 ((siteOf 0xf9400000#32).patched .ldst64AbsLo12Nc 0x4018)).setWidth 64 *
      BitVec.ofNat 64 (2 ^ 3) = 0x4018 := by
  have ha : IsAdrp (siteOf 0x90000000#32).word := by
    rw [siteOf_word]
    exact ⟨by decide, by decide⟩
  have hb : LowPart (siteOf 0xf9400000#32).word 3 .ldst64AbsLo12Nc := by
    rw [siteOf_word]
    exact .inr ⟨by decide, rfl⟩
  exact (adrpPair_exact 0x4018 _ _ 3 _ ha hb).1 ((ret_adrp ha).mpr (by decide)) (by decide)

end Pairs

end Umko.AArch64

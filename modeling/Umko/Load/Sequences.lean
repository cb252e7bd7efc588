import Umko.Load.Reach
import Umko.Reloc.AArch64Groups

/-!
# Addresses in several instructions

The AArch64 code of the loaded modules at the end of a run where an address is spread over several
words, each with a relocation of its own: ADRP with the low part in another word, and the groups of
move-wide instructions. They put the number of the relocations together exactly when it is in reach
of the word with the highest bits, whether or not its type has a check.
-/

namespace Umko

open Lib.Memory Lib.A64 Lib.BitField

namespace AArch64

/-! ### Words -/

section Words

variable {t : RelocType} {place : Addr} {val : BitVec 64} {w : BitVec 32} {rd : BitVec 5} {g : ℕ}

theorem RelocType.x_page (h : t.field = .adr 12) : t.x place val = pageOf val - pageOf place := by
  cases t
  all_goals first | rfl | cases h

/-- **ADRP and a low part address the number exactly** when the scale divides it and its page is in
reach. -/
theorem pagePair_iff {low : BitVec 32} (k : Fin 5) (pc : Addr) (val : BitVec 64) :
    adrpPage pc (Field.insn (.adr 12) (pageOf val - pageOf pc) w) +
        (imm12 (Field.insn (.imm 10 12 k (12 - k)) val low)).setWidth 64 *
          BitVec.ofNat 64 (2 ^ k.val) = val ↔
      2 ^ k.val ∣ val.toNat ∧ -2 ^ 20 ≤ pageDistance pc val ∧ pageDistance pc val < 2 ^ 20 := by
  rw [pageDistance_mem]
  exact adrpPage_add_iff (by omega) (adrpImm_setField _ _ _) (imm12_setField _ _)

theorem decode_lane {op : MoveOp} {hw : BitVec 2} (h : IsMoveWide w op hw rd) (x : BitVec 64)
    (lsb : ℕ) : MoveWide.decode (Field.insn (.imm 5 16 lsb 16) x w) =
      some ⟨op, hw, x.extractLsb' lsb 16, rd⟩ :=
  (h.decode_setImm _).trans (by rw [BitVec.setWidth_eq])

theorem decode_signed_lane {op : MoveOp} {hw : BitVec 2} (h : IsMoveWide w op hw rd)
    (x : BitVec 64) (lsb : ℕ) : MoveWide.decode (Field.insn (.movw lsb) x w) =
      some (if 0 ≤ x.toInt then ⟨.movz, hw, x.extractLsb' lsb 16, rd⟩
        else ⟨.movn, hw, (~~~x).extractLsb' lsb 16, rd⟩) := by
  rw [Field.insn]
  split
  · exact ((h.setOp rfl).decode_setImm _).trans (by rw [BitVec.setWidth_eq])
  · exact ((h.setOp rfl).decode_setImm _).trans (by rw [BitVec.setWidth_eq])

variable {x : BitVec 64} {low : ℕ → BitVec 32}

/-- **MOVZ and the lanes below it leave the number exactly** when it ends with the lane of MOVZ. -/
theorem moveGroup_iff (hg : g < 4) (hlow : ∀ k < g, MovesLane x rd (low k) k)
    (hw : IsMoveWide w .movz (BitVec.ofNat 2 g) rd) :
    Leaves (Field.insn (.imm 5 16 (16 * g) 16) x w :: (List.range g).reverse.map low) rd x ↔
      x.toNat < 2 ^ (16 * g + 16) :=
  (leaves_cons_iff low (by omega) hlow (decode_lane hw x _) rfl).trans (agreeFrom_movz_iff hg)

/-- **A signed top word and the lanes below it** leave the number exactly when its top lane holds it
and the sign. -/
theorem signedGroup_iff {op : MoveOp} (hg : g < 4) (hlow : ∀ k < g, MovesLane x rd (low k) k)
    (hw : IsMoveWide w op (BitVec.ofNat 2 g) rd) :
    Leaves (Field.insn (.movw (16 * g)) x w :: (List.range g).reverse.map low) rd x ↔
      -2 ^ (16 * g + 16) ≤ x.toInt ∧ x.toInt < 2 ^ (16 * g + 16) := by
  have hdec := decode_signed_lane hw x (16 * g)
  by_cases hs : 0 ≤ x.toInt
  · rw [if_pos hs] at hdec
    rw [leaves_cons_iff low (by omega) hlow hdec rfl, agreeFrom_movz_iff hg,
      toNat_lt_iff_toInt hs]
  · rw [if_neg hs] at hdec
    have hn : 0 ≤ (~~~x).toInt := by
      rw [toInt_not]
      omega
    rw [leaves_cons_iff low (by omega) hlow hdec rfl, agreeFrom_movn_iff hg,
      toNat_lt_iff_toInt hn, toInt_not]
    omega

end Words

end AArch64

/-! ### Runs -/

open AArch64

/-- A load of a run that has linked and protected its module, with `symtab` the section of the last
symbol table. -/
structure LoadedCode (arch : Arch) (mc : Machine) (as before : List Action) (mod : Module)
    (w : World) (size : BitVec 64) (p base : Addr) (symtab : ℕ) : Prop where
  prefix_run : before ++ [.loadModule mod w] <+: as
  live : (run arch (.start mc) before).halted = false
  linkable : LinkableLoad arch mod w size p base
  protected_ok : w.protectOk = true
  last_table : w.parsed.2.LastTable symtab
  found : AllFound arch mc before mod w

/-- An instruction in the guarded code of a module with a relocation of its own, and the address
that the symbol of the relocation has in the environment. -/
structure CodeSite (elf : Elfio) (file : ℕ → Byte) (env : SysEnv) (symtab : ℕ) where
  sec : ℕ
  rela : Rela
  addr : Addr
  type : RelocType
  names : elf.NamesAt env symtab sec rela addr
  guarded : (elf.sec (elf.sec sec).info.toNat).guarded = true
  type_eq : RelocType.ofCode rela.type = some type

namespace CodeSite

variable {elf : Elfio} {file : ℕ → Byte} {env : SysEnv} {symtab : ℕ}
  (c : CodeSite elf file env symtab)

def place : Addr := elf.place c.sec c.rela

/-- The symbol plus the addend. -/
def value : BitVec 64 := c.addr + c.rela.addend

def number : BitVec 64 := c.type.x c.place c.value

def word : BitVec 32 := elf.fileWord file c.sec c.rela

def insn (m : Mem) : BitVec 32 := load 32 m c.place

end CodeSite

section Run

variable {mc : Machine} {as before : List Action} {mod : Module} {w : World} {size : BitVec 64}
  {p base : Addr} {symtab : ℕ}

theorem LoadedCode.insn_eq (h : LoadedCode .aarch64 mc as before mod w size p base symtab)
    (hfit : ∀ a ∈ as, a.Fits) (hbounded : BoundedRun .aarch64 (.start mc) as)
    (hkept : PagesKept as)
    (c : CodeSite ((run .aarch64 (.start mc) before).linked mod w) w.file
      (run .aarch64 (.start mc) as).env symtab)
    (hins : c.type.field.isInsn = true) (hbreak : NotBreak c.word) :
    c.insn (run .aarch64 (.start mc) as).mc.mem = c.type.field.insn c.number c.word := by
  have himage := linkedImage_guarded hfit hbounded hkept h.prefix_run h.live h.linkable
    h.protected_ok h.last_table h.found
  have hfield := himage.field c.sec c.rela c.addr c.names c.guarded _ (holdsFile_raw _ w.file _)
  have hwidth : Arch.width .aarch64 c.rela.type = 32 := by
    unfold Arch.width
    dsimp only
    rw [c.type_eq]
    show RelocType.width c.type = 32
    unfold RelocType.width
    generalize c.type.field = f at hins
    cases f with
    | none | data _ => simp [Field.isInsn] at hins
    | _ => rfl
  rw [hwidth] at hfield
  rw [CodeSite.insn, CodeSite.place, load_congr (by omega) (by decide) hfield]
  have hpatched := @Site.patched_eq ⟨c.place, _⟩ c.type c.value hbreak hins
  rw [Site.patched, code_of_ofCode c.type_eq] at hpatched
  exact hpatched

end Run

/-- At the end of a run, an ADRP and an addition, load or store in the code of the modules address
the number of their relocations exactly when the scale divides it and its page is in reach. -/
def PagePairsExact (mc : Machine) (as : List Action) : Prop :=
  ∀ before mod w size p base symtab,
    LoadedCode .aarch64 mc as before mod w size p base symtab →
    let st := run .aarch64 (.start mc) as
    ∀ (a b : CodeSite ((run .aarch64 (.start mc) before).linked mod w) w.file st.env symtab)
      (k : Fin 5), a.type.field = .adr 12 → IsAdrp a.word → LowPart b.word k b.type →
      a.value = b.value →
      (adrpPage a.place (a.insn st.mc.mem) +
          (imm12 (b.insn st.mc.mem)).setWidth 64 * BitVec.ofNat 64 (2 ^ k.val) = a.value ↔
        2 ^ k.val ∣ a.value.toNat ∧
          -2 ^ 20 ≤ pageDistance a.place a.value ∧ pageDistance a.place a.value < 2 ^ 20)

/-- **Pages and offsets reach their symbols** at the end of a run. -/
theorem pagePairsExact_of_bounded {mc : Machine} {as : List Action} (hfit : ∀ a ∈ as, a.Fits)
    (hbounded : BoundedRun .aarch64 (.start mc) as) (hkept : PagesKept as) :
    PagePairsExact mc as := by
  intro before mod w size p base symtab h st a b k hfield ha hb hval
  have hpage : a.insn st.mc.mem = _ :=
    h.insn_eq hfit hbounded hkept a (by rw [hfield]; rfl) (IsAdrp.notBreak ha)
  have hlow : b.insn st.mc.mem = _ :=
    h.insn_eq hfit hbounded hkept b (by rw [hb.field]; rfl) hb.notBreak
  rw [hpage, hlow, CodeSite.number, CodeSite.number, hb.field, hb.x, RelocType.x_page hfield,
    hfield, ← hval]
  exact pagePair_iff k a.place a.value

/-- The sites of the groups below `g` are MOVK instructions of the lanes of `x`. -/
def MovkLanes {elf : Elfio} {file : ℕ → Byte} {env : SysEnv} {symtab : ℕ}
    (low : ℕ → CodeSite elf file env symtab) (x : BitVec 64) (rd : BitVec 5) (g : ℕ) : Prop :=
  ∀ k < g, (low k).type.field = .imm 5 16 (16 * k) 16 ∧ (low k).number = x ∧
    IsMoveWide (low k).word .movk (BitVec.ofNat 2 k) rd

/-- At the end of a run, a top word and MOVK instructions below it in the code of the modules leave
the number of their relocations in the register exactly when the top lane, unsigned or signed,
reaches to its end. -/
def MoveGroupsExact (mc : Machine) (as : List Action) : Prop :=
  ∀ before mod w size p base symtab,
    LoadedCode .aarch64 mc as before mod w size p base symtab →
    let st := run .aarch64 (.start mc) as
    ∀ (top : CodeSite ((run .aarch64 (.start mc) before).linked mod w) w.file st.env symtab)
      (low : ℕ → CodeSite ((run .aarch64 (.start mc) before).linked mod w) w.file st.env symtab)
      (rd : BitVec 5), ∀ g < 4, MovkLanes low top.number rd g →
      let words := top.insn st.mc.mem ::
        (List.range g).reverse.map fun k => (low k).insn st.mc.mem
      (top.type.field = .imm 5 16 (16 * g) 16 → IsMoveWide top.word .movz (BitVec.ofNat 2 g) rd →
        (Leaves words rd top.number ↔ top.number.toNat < 2 ^ (16 * g + 16))) ∧
      ∀ op, top.type.field = .movw (16 * g) → IsMoveWide top.word op (BitVec.ofNat 2 g) rd →
        (Leaves words rd top.number ↔
          -2 ^ (16 * g + 16) ≤ top.number.toInt ∧ top.number.toInt < 2 ^ (16 * g + 16))

/-- **Move-wide groups leave their numbers** at the end of a run. -/
theorem moveGroupsExact_of_bounded {mc : Machine} {as : List Action} (hfit : ∀ a ∈ as, a.Fits)
    (hbounded : BoundedRun .aarch64 (.start mc) as) (hkept : PagesKept as) :
    MoveGroupsExact mc as := by
  intro before mod w size p base symtab h st top low rd g hg hlow words
  have hlanes : ∀ k < g, MovesLane top.number rd ((low k).insn st.mc.mem) k := by
    intro k hk
    obtain ⟨hfield, hnumber, hmove⟩ := hlow k hk
    rw [h.insn_eq hfit hbounded hkept (low k) (by rw [hfield]; rfl) (notBreak_of_isMoveWide hmove),
      hfield, hnumber]
    exact decode_lane hmove _ _
  have htop : ∀ op, top.type.field.isInsn = true →
      IsMoveWide top.word op (BitVec.ofNat 2 g) rd →
        top.insn st.mc.mem = top.type.field.insn top.number top.word :=
    fun op hins hmove =>
      h.insn_eq hfit hbounded hkept top hins (notBreak_of_isMoveWide hmove)
  refine ⟨fun hfield hmove => ?_, fun op hfield hmove => ?_⟩
  · have hinsn := htop .movz (by rw [hfield]; rfl) hmove
    rw [hfield] at hinsn
    show Leaves (top.insn st.mc.mem :: _) _ _ ↔ _
    rw [hinsn]
    exact moveGroup_iff hg hlanes hmove
  · have hinsn := htop op (by rw [hfield]; rfl) hmove
    rw [hfield] at hinsn
    show Leaves (top.insn st.mc.mem :: _) _ _ ↔ _
    rw [hinsn]
    exact signedGroup_iff hg hlanes hmove

/-! ### Samples -/

/-- The types of an ADRP, a load of 8 bytes, a MOVZ and a MOVK. -/
def sequenceType : Fin 4 → RelocType
  | 0 => .adrPrelPgHi21
  | 1 => .ldst64AbsLo12Nc
  | 2 => .movwSabsG1
  | 3 => .movwUabsG0Nc

/-- Their relocations against the import `host`. -/
def sequenceRela (k : Fin 4) : Rela := ⟨BitVec.ofNat 64 (4 * k), 2, (sequenceType k).code, 0⟩

/-- 16 bytes of code with these four instructions. -/
def sequenceObject : Elfio := (callerObject "f").modify 3 fun s =>
  { s with
    size := 96
    relas := ⟨4, fun i => if h : i.toNat < 4 then some (sequenceRela ⟨i.toNat, h⟩) else none⟩ }

/-- The world of its load: `adrp x0`, `ldr x0, [x0]`, `movz x1, #0, lsl #16` and `movk x1, #0`. -/
def sequenceWorld : World :=
  { callerWorld with
    file := fun k => (0xf2800001d2a00001f940000090000000#128 >>> (8 * (k - 0x40))).setWidth 8
    parsed := (true, sequenceObject) }

def sequenceModule : Module :=
  Module.fresh ⟨[], Nat.zero_lt_of_ne_zero (Nat.succ_ne_zero 65535)⟩

def sequenceRun : List Action :=
  [.registerFunc "host" 0x12345678, .loadModule sequenceModule sequenceWorld]

theorem toNat_offset_sequenceRela (k : Fin 4) : (sequenceRela k).offset.toNat = 4 * k := by
  have := k.isLt
  exact Nat.mod_eq_of_lt (by omega)

theorem width_sequenceRela (k : Fin 4) : Arch.width .aarch64 (sequenceRela k).type = 32 := by
  fin_cases k <;> rfl

theorem relaAt_sequenceObject {i k : ℕ} {r : Rela} (h : sequenceObject.RelaAt i k r) :
    i = 3 ∧ ∃ j : Fin 4, k = j ∧ r = sequenceRela j := by
  obtain ⟨hi, hr, hk, hentry⟩ := h
  match i, hi with
  | 3, _ =>
    have hk4 : k < 4 := hk
    have hmod : (BitVec.ofNat 64 k).toNat = k := Nat.mod_eq_of_lt (by omega)
    have hget : (if h : (BitVec.ofNat 64 k).toNat < 4 then
        some (sequenceRela ⟨(BitVec.ofNat 64 k).toNat, h⟩) else none) = some r := hentry
    simp only [hmod, hk4, dif_pos, Option.some.injEq] at hget
    exact ⟨rfl, ⟨k, hk4⟩, rfl, hget.symm⟩
  | 0, _ | 1, _ | 2, _ => exact absurd hr.1 (by decide)

theorem linkableLoad_sequence : LinkableLoad .aarch64 sequenceModule sequenceWorld 0x50
    0x100000000000 0x20000 where
  layout_zero := rfl
  fits := (by decide +kernel : LayoutFits sequenceObject)
  paged base hb := by
    obtain rfl := Option.some.inj hb
    decide
  unmapped h := by cases h
  opened := rfl
  fileSize := rfl
  fileAddr := rfl
  parsed := rfl
  image := rfl
  relas := (by decide +kernel : RelasFit sequenceObject)
  fields := by
    refine ⟨fun i k r hr => ?_, fun i k r i' k' r' hr hr' hne _ => ?_⟩
    · obtain ⟨rfl, j, rfl, rfl⟩ := relaAt_sequenceObject hr
      rw [width_sequenceRela, toNat_offset_sequenceRela]
      show _ ≤ 16
      omega
    · obtain ⟨rfl, j, rfl, rfl⟩ := relaAt_sequenceObject hr
      obtain ⟨rfl, j', rfl, rfl⟩ := relaAt_sequenceObject hr'
      rw [width_sequenceRela, width_sequenceRela, toNat_offset_sequenceRela,
        toNat_offset_sequenceRela]
      have : j.val ≠ j'.val := fun h => hne (by rw [h])
      omega
  inFile := (by decide +kernel : ∀ i < sequenceObject.size, sequenceObject.Copies i →
    (sequenceObject.sec i).offset.toNat + (sequenceObject.sec i).size.toNat ≤ 0x50)
  apart := disjoint_range (by decide +kernel) (by decide +kernel) (by decide +kernel)

theorem loadedCode_sequence : LoadedCode .aarch64 startMachine sequenceRun
    [.registerFunc "host" 0x12345678] sequenceModule sequenceWorld 0x50 0x100000000000 0x20000 2
    where
  prefix_run := List.prefix_refl _
  live := rfl
  linkable := linkableLoad_sequence
  protected_ok := rfl
  last_table := by
    refine ⟨by decide, rfl, fun j hj hlt => ?_⟩
    match j, hj with
    | 3, _ => decide
  found := by
    unfold AllFound
    decide +kernel

theorem boundedRun_sequence : BoundedRun .aarch64 (.start startMachine) sequenceRun := by
  refine ⟨fun a ha => ?_, fun before a hpre => ?_⟩
  · rcases List.mem_pair.mp ha with rfl | rfl
    · trivial
    · refine ⟨linkableLoad_sequence.toPagedLoad, ?_, fun h => by cases h⟩
      intro i hi hr j hj r hentry _
      exact .inr (linkableLoad_sequence.fields.inside i j.toNat r
        ⟨hi, hr, hj, (congrArg _ (BitVec.ofNat_toNat ..)).trans hentry⟩)
  · have ha : a ∈ sequenceRun := hpre.subset (List.mem_append_right _ (List.mem_singleton_self _))
    rcases List.mem_pair.mp ha with rfl | rfl
    · trivial
    · exact fun _ _ _ _ => rfl

theorem fits_sequenceRun : ∀ a ∈ sequenceRun, a.Fits := by
  intro a ha
  rcases List.mem_pair.mp ha with rfl | rfl
  · trivial
  · show TablesFit sequenceObject
    decide +kernel

theorem pagesKept_sequenceRun : PagesKept sequenceRun := by
  refine ⟨fun a ha => (boundedRun_sequence.contained a ha).paged, ?_⟩
  exact List.pairwise_pair.mpr (Set.empty_disjoint _)

abbrev sequenceLinked : Elfio :=
  (run .aarch64 (.start startMachine) [.registerFunc "host" 0x12345678]).linked sequenceModule
    sequenceWorld

theorem namesAt_sequence (k : Fin 4) : sequenceLinked.NamesAt
    (run .aarch64 (.start startMachine) sequenceRun).env 2 3 (sequenceRela k) 0x12345678 := by
  have hlt : (2 : BitVec 32).toNat < (sequenceLinked.sec 2).symbols.num.toNat := by decide +kernel
  have haddress : ownAddress sequenceLinked (run .aarch64 (.start startMachine) sequenceRun).env
      ⟨"host", 0, 0, 1, 0, 0, 0⟩ = some 0x12345678 := by decide +kernel
  refine ⟨⟨k, by decide, by decide +kernel, k.isLt, ?_⟩, hlt, _, rfl, haddress⟩
  fin_cases k <;> rfl

/-- The site of relocation `k`. -/
def sequenceSite (k : Fin 4) : CodeSite sequenceLinked sequenceWorld.file
    (run .aarch64 (.start startMachine) sequenceRun).env 2 where
  sec := 3
  rela := sequenceRela k
  addr := 0x12345678
  type := sequenceType k
  names := namesAt_sequence k
  guarded := by decide +kernel
  type_eq := ofCode_code _

theorem place_sequenceSite (k : Fin 4) :
    (sequenceSite k).place = 0x20000 + BitVec.ofNat 64 (4 * k) := by
  have haddress : (sequenceLinked.sec (sequenceLinked.sec 3).info.toNat).address = 0x20000 := by
    decide +kernel
  show (sequenceLinked.sec (sequenceLinked.sec 3).info.toNat).address + _ = _
  rw [haddress]
  rfl

/-- The ADRP at `0x20000` and the load behind it access `0x12345678`. -/
theorem pagePairsExact_of_bounded_sequence :
    let m := (run .aarch64 (.start startMachine) sequenceRun).mc.mem
    adrpPage 0x20000 (load 32 m 0x20000) +
      (imm12 (load 32 m 0x20004)).setWidth 64 * BitVec.ofNat 64 (2 ^ 3) = 0x12345678 := by
  have h := pagePairsExact_of_bounded fits_sequenceRun boundedRun_sequence pagesKept_sequenceRun
    _ _ _ _ _ _ _ loadedCode_sequence (sequenceSite 0) (sequenceSite 1) 3 rfl
    ⟨by decide +kernel, by decide +kernel⟩ (.inr ⟨by decide +kernel, rfl⟩) rfl
  unfold CodeSite.insn at h
  rw [place_sequenceSite, place_sequenceSite] at h
  refine h.mpr ?_
  decide +kernel

/-- The MOVZ at `0x20008` and the MOVK behind it leave `0x12345678` in `x1`. -/
theorem moveGroupsExact_of_bounded_sequence :
    let m := (run .aarch64 (.start startMachine) sequenceRun).mc.mem
    Leaves [load 32 m 0x20008, load 32 m 0x2000c] 1 0x12345678 := by
  have h := (moveGroupsExact_of_bounded fits_sequenceRun boundedRun_sequence pagesKept_sequenceRun
    _ _ _ _ _ _ _ loadedCode_sequence (sequenceSite 2) (fun _ => sequenceSite 3) 1 1 (by omega)
    ?_).2 .movz rfl ⟨0, by decide +kernel⟩
  · simp only [CodeSite.insn, place_sequenceSite] at h
    refine h.mpr ?_
    decide +kernel
  · intro k hk
    obtain rfl := Nat.lt_one_iff.mp hk
    exact ⟨rfl, rfl, 0, by decide +kernel⟩

end Umko

import Umko.Load.Reach
import Umko.Load.Main

/-!
# What the initialisation calls

The pointers of the init arrays are fields of relocations of their own. When they are, and the
functions leave the arrays alone, a load calls the functions that the relocations name, where the
environment of the end of the run has them, in the order of the arrays, and then its `Construct`.
-/

namespace Umko

open Lib.Memory

/-- The pointer `q` of an init array is the field of an absolute relocation that succeeds, and
`fn` is the address that it names. -/
def Elfio.PointsAt (arch : Arch) (elf : Elfio) (file : ℕ → Byte) (env : SysEnv) (symtab : ℕ)
    (q : ℕ × ℕ) (fn : Addr) : Prop :=
  ∃ j r S, elf.NamesAt env symtab j r S ∧ (elf.sec j).info.toNat = q.1 ∧
    r.offset = 8 * BitVec.ofNat 64 q.2 ∧ arch.baseKind r.type = .absolute ∧
    (arch.doRelocateAdd r.type (elf.place j r) (S + r.addend) (elf.raw file q.1)).1 = 0 ∧
    fn = S + r.addend

theorem LinkedPass.load_pointer {arch : Arch} {elf : Elfio} {file : ℕ → Byte} {env : SysEnv}
    {symtab : ℕ} {rel : RelocState} (h : LinkedPass arch elf file env symtab rel) {q : ℕ × ℕ}
    {fn : Addr} (hq : elf.PointsAt arch file env symtab q fn) :
    load 64 rel.mem (elf.pointerAt q) = fn := by
  obtain ⟨j, r, S, hn, hj, hr, hkind, hret, rfl⟩ := hq
  obtain ⟨n, hrela⟩ := hn.entry
  have hplace : elf.pointerAt q = elf.place j r := by
    rw [Elfio.pointerAt, Elfio.place, hj, hr]
  have hfield := h.image.field j r S hn hrela.2.1.2.2 _ (holdsFile_raw elf file _)
  rw [← hj] at hret
  obtain ⟨hwidth, hload⟩ := arch.load_absolute hkind hret
  rw [hwidth] at hfield
  rw [hplace, load_congr (by omega) (by omega) hfield]
  exact hload

/-- The loads of a run whose init arrays consist of such pointers call the functions that these
name, with the addresses of the end of the run. -/
def InitsLinked (arch : Arch) (mc : Machine) (as : List Action) : Prop :=
  ∀ before mod w size p base symtab, before ++ [.loadModule mod w] <+: as →
    (run arch (.start mc) before).halted = false → LinkableLoad arch mod w size p base →
    w.parsed.2.LastTable symtab → AllFound arch mc before mod w → mod.func = ⟨0⟩ →
    let st := run arch (.start mc) before
    let elf := st.linked mod w
    CleanLoad arch st mod w → ∀ target : ℕ × ℕ → Addr,
      (∀ q ∈ elf.initPointers elf.size,
        elf.PointsAt arch w.file (run arch (.start mc) as).env symtab q (target q)) →
      (st.load arch mod w).calls.map Call.fn =
        (elf.initPointers elf.size).map target ++ callOf (ownConstruct elf)

/-- **The initialisation calls what the objects name.** -/
theorem initsLinked_of_fits {arch : Arch} {mc : Machine} {as : List Action}
    (hfit : ∀ a ∈ as, a.Fits) : InitsLinked arch mc as := by
  intro before mod w size p base symtab hload hlive h ht hfound hmod st elf hclean target htarget
  obtain ⟨rel, hrel, hpass⟩ := exists_linkedPass hfit hload hlive h ht hfound
  have hmem : st.relocated arch mod w = rel.mem := by
    unfold RunState.relocated
    rw [hrel]
  rw [hclean.calls_eq hmod, startCalls, hmem, ← map_initPointers hclean.entrySize]
  refine congrArg (· ++ _) (List.map_congr_left fun q hq => ?_)
  exact hpass.load_pointer (htarget q hq)

/-! ### Samples -/

/-- An init array of two pointers, to the import `host` and 4 bytes behind the symbol `f`. -/
def initObject : Elfio :=
  ((callerObject "f").modify 1 fun s => { s with type := 14, flags := 3, entrySize := 8 }).modify 3
    fun s => { s with relas := ⟨2, fun i => if i = 0 then some ⟨0, 2, 1, 0⟩
      else if i = 1 then some ⟨8, 1, 1, 4⟩ else none⟩ }

def initWorld : World :=
  { callerWorld with
    file := fun _ => 0
    parsed := (true, initObject) }

def freshModule : Module :=
  Module.fresh ⟨[], Nat.succ_pos 65535⟩

def initRun : List Action :=
  [.registerFunc "host" 0x1000, .loadModule freshModule initWorld]

theorem relaAt_initObject {i k : ℕ} {r : Rela} (h : initObject.RelaAt i k r) :
    i = 3 ∧ ((k = 0 ∧ r = ⟨0, 2, 1, 0⟩) ∨ (k = 1 ∧ r = ⟨8, 1, 1, 4⟩)) := by
  obtain ⟨hi, hr, hk, hentry⟩ := h
  match i, hi with
  | 3, _ =>
    have hk2 : k < 2 := hk
    match k, hk2 with
    | 0, _ => exact ⟨rfl, .inl ⟨rfl, (Option.some.inj hentry).symm⟩⟩
    | 1, _ => exact ⟨rfl, .inr ⟨rfl, (Option.some.inj hentry).symm⟩⟩
  | 0, _ | 1, _ | 2, _ => exact absurd hr.1 (by decide)

theorem linkableLoad_init : LinkableLoad .x86_64 freshModule initWorld 0x50
    0x100000000000 0x20000 where
  layout_zero := rfl
  fits := (by decide +kernel : LayoutFits initObject)
  paged base hb := by
    obtain rfl := Option.some.inj hb
    decide
  unmapped h := by cases h
  opened := rfl
  fileSize := rfl
  fileAddr := rfl
  parsed := rfl
  image := rfl
  relas := (by decide +kernel : RelasFit initObject)
  fields := by
    refine ⟨fun i k r hr => ?_, fun i k r i' k' r' hr hr' hne _ => ?_⟩
    · obtain ⟨rfl, ⟨-, rfl⟩ | ⟨-, rfl⟩⟩ := relaAt_initObject hr
      all_goals decide
    · obtain ⟨rfl, ⟨rfl, rfl⟩ | ⟨rfl, rfl⟩⟩ := relaAt_initObject hr
      all_goals
        obtain ⟨rfl, ⟨rfl, rfl⟩ | ⟨rfl, rfl⟩⟩ := relaAt_initObject hr'
        all_goals first | exact absurd rfl hne | decide
  inFile := (by decide +kernel : ∀ i < initObject.size, initObject.Copies i →
    (initObject.sec i).offset.toNat + (initObject.sec i).size.toNat ≤ 0x50)
  apart := disjoint_range (by decide +kernel) (by decide +kernel) (by decide +kernel)

/-- The load calls `0x1000` and `0x20008`. -/
theorem initsLinked_of_fits_init :
    ((run .x86_64 (.start startMachine) [.registerFunc "host" 0x1000]).load .x86_64 freshModule
      initWorld).calls.map Call.fn = [0x1000, 0x20008] := by
  have hfit : ∀ a ∈ initRun, a.Fits := by
    intro a ha
    rcases List.mem_pair.mp ha with rfl | rfl
    · trivial
    · show TablesFit initObject
      decide +kernel
  have htable : initObject.LastTable 2 := by
    refine ⟨by decide, rfl, fun j hj hlt => ?_⟩
    match j, hj with
    | 3, _ => decide
  have hfound : AllFound .x86_64 startMachine [.registerFunc "host" 0x1000] freshModule
      initWorld := by
    unfold AllFound
    decide +kernel
  have hclean : CleanLoad .x86_64 (run .x86_64 (.start startMachine) [.registerFunc "host" 0x1000])
      freshModule initWorld :=
    ⟨by decide +kernel, by decide +kernel, by decide +kernel, by decide +kernel,
      fun _ _ _ _ _ _ _ _ => rfl⟩
  have h := initsLinked_of_fits hfit _ _ _ _ _ _ _ (List.prefix_refl _) rfl linkableLoad_init htable
    hfound rfl hclean (fun q => if q.2 = 0 then 0x1000 else 0x20008) ?_
  · refine h.trans ?_
    decide +kernel
  · have hslots : initObject.initPointers initObject.size = [(1, 0), (1, 1)] := by decide +kernel
    intro q (hq : q ∈ initObject.initPointers initObject.size)
    rw [hslots] at hq
    rcases List.mem_pair.mp hq with rfl | rfl
    · exact ⟨3, ⟨0, 2, 1, 0⟩, 0x1000,
        ⟨⟨0, by decide, by decide +kernel, by decide +kernel, by decide +kernel⟩,
          by decide +kernel, _, rfl, by decide +kernel⟩,
        by decide +kernel, rfl, rfl, by decide +kernel, rfl⟩
    · exact ⟨3, ⟨8, 1, 1, 4⟩, 0x20004,
        ⟨⟨1, by decide, by decide +kernel, by decide +kernel, by decide +kernel⟩,
          by decide +kernel, _, rfl, by decide +kernel⟩,
        by decide +kernel, rfl, rfl, by decide +kernel, rfl⟩

end Umko

import Umko.Load.Init
import Umko.Load.Stages
import Umko.Load.Run

/-!
# The program

`parser_args` and `main`: the objects of the command line are loaded in order into one environment,
each of them initialised as it is loaded, and then the entry is called. What the program calls of
the modules, and in which order, is settled by the objects and the host functions registered before.
-/

namespace Umko

open Lib.Memory Lib.FirstDef

/-! ### The command line -/

/-- What `parser_args` collects. -/
structure Args where
  args : List String
  relObjs : List String
  deriving DecidableEq

/-- The loop of `parser_args`: `none` where it returns `-1`. -/
def parserLoop : List String → Args → Option Args
  | [], arg => some arg
  | s :: rest, arg =>
    if s = "--help" then none
    else if s = "--args" then
      match rest with
      | [] => none
      | v :: rest => parserLoop rest { arg with args := arg.args ++ [v] }
    else parserLoop rest { arg with relObjs := arg.relObjs ++ [s] }

/-- `parser_args`, on the program's name and its arguments. -/
def parserArgs (argv : List String) : Option Args :=
  if argv.length = 1 then none else parserLoop argv.tail ⟨[], []⟩

/-! ### `main` -/

/-- What `main` leaves: its result, `none` when a load does not return, the state after the loads,
and the entry that it calls, if there is one. -/
structure Outcome where
  ret : Option ℤ
  state : RunState
  entry : List Addr

/-- The functions of modules that are called, in order. -/
def Outcome.calls (o : Outcome) : List Addr :=
  o.state.loads.flatMap (fun l => l.calls.map Call.fn) ++ o.entry

/-- The pointers of the init arrays in a memory, by section and by index. -/
def initFunctions (elf : Elfio) (mem : Mem) : List Addr :=
  (List.range elf.size).flatMap fun i => if (elf.sec i).type = shtInitArray
    then (List.range ((elf.sec i).size.toNat / 8)).map fun j => load 64 mem (elf.pointerAt (i, j))
    else []

/-- The address of the `Construct` that an object defines. -/
def ownConstruct (elf : Elfio) : Option Addr :=
  (elf.allDefinitions elf.size).lookup "Construct"

/-- The call of a function, unless it is a null pointer. -/
def callOf (f : Option Addr) : List Addr := f.toList.filter (· ≠ 0)

theorem callOf_eq (f : Option Addr) : callOf f = if f.getD 0 ≠ 0 then [f.getD 0] else [] := by
  cases f with
  | none => rfl
  | some a =>
    by_cases ha : a = 0#64
    · simp [callOf, ha]
    · simp [callOf, ha]

/-- The memory after the relocation of a module that is loaded in a state. -/
def RunState.relocated (arch : Arch) (st : RunState) (mod : Module) (w : World) : Mem :=
  match relocateSymbol arch (link mod st.env w st.mc).mod (prepare mod w st.mc).2.mem with
  | none => (prepare mod w st.mc).2.mem
  | some rel => rel.mem

/-- A load that returns, of an object with ordinary tables and init arrays and at most one
`Construct`; the functions of its init arrays leave the init arrays alone. -/
structure CleanLoad (arch : Arch) (st : RunState) (mod : Module) (w : World) : Prop where
  returns : (st.load arch mod w).ret = some 0
  tablesFit : TablesFit (st.linked mod w)
  entrySize : ∀ i < (st.linked mod w).size, ((st.linked mod w).sec i).type = shtInitArray →
    ((st.linked mod w).sec i).entrySize = 8
  construct : (((st.linked mod w).allDefinitions (st.linked mod w).size).filter
    (·.1 = "Construct")).length ≤ 1
  code : ∀ f ∈ initFunctions (st.linked mod w) (st.relocated arch mod w), ∀ m,
    ∀ i < (st.linked mod w).size, ((st.linked mod w).sec i).type = shtInitArray →
      ∀ x ∈ range ((st.linked mod w).sec i).address ((st.linked mod w).sec i).size.toNat,
        w.code f m x = m x

section Load

variable {arch : Arch} {st : RunState} {mod : Module} {w : World}

theorem constructAfter_eq {l : List (String × Addr)}
    (h : (l.filter (·.1 = "Construct")).length ≤ 1) :
    constructAfter ⟨0⟩ l = ⟨(l.lookup "Construct").getD 0⟩ := by
  have hnone : ∀ (f : FuncAddr) (l : List (String × Addr)),
      l.filter (·.1 = "Construct") = [] → constructAfter f l = f := by
    intro f l
    induction l with
    | nil => exact fun _ => rfl
    | cons p l ih =>
      intro hl
      rw [List.filter_cons] at hl
      by_cases hp : p.1 = "Construct"
      · simp [hp] at hl
      · simp only [hp, decide_false, Bool.false_eq_true, if_false] at hl
        have hcons : constructAfter f (p :: l) = constructAfter f l := by
          simp [constructAfter, hp]
        rw [hcons, ih hl]
  induction l with
  | nil => rfl
  | cons p l ih =>
    rw [List.filter_cons] at h
    obtain ⟨name, addr⟩ := p
    by_cases hp : name = "Construct"
    · subst hp
      simp only [decide_true, if_true, List.length_cons] at h
      have hl : l.filter (·.1 = "Construct") = [] := List.length_eq_zero_iff.mp (by omega)
      have hcons : constructAfter ⟨0⟩ (("Construct", addr) :: l) = constructAfter ⟨addr⟩ l := rfl
      rw [hcons, hnone _ _ hl]
      simp
    · simp only [hp, decide_false, Bool.false_eq_true, if_false] at h
      have hcons : constructAfter ⟨0⟩ ((name, addr) :: l) = constructAfter ⟨0⟩ l := by
        simp [constructAfter, hp]
      have hlook : ((name, addr) :: l).lookup "Construct" = l.lookup "Construct" := by
        have hbeq : ("Construct" == name) = false := beq_false_of_ne (Ne.symm hp)
        rw [List.lookup, hbeq]
      rw [hcons, ih h, hlook]

theorem initPointers_link (n : ℕ) : (link mod st.env w st.mc).mod.elf.initPointers n =
    (st.linked mod w).initPointers n := by
  unfold Elfio.initPointers Section.initCount
  refine List.flatMap_congr fun i _ => ?_
  obtain ⟨t, ht, -⟩ := @sec_link mod st.env w st.mc i
  rw [ht]
  rfl

theorem pointerAt_link (p : ℕ × ℕ) : (link mod st.env w st.mc).mod.elf.pointerAt p =
    (st.linked mod w).pointerAt p := by
  unfold Elfio.pointerAt
  obtain ⟨t, ht, -⟩ := @sec_link mod st.env w st.mc p.1
  rw [ht]
  rfl

theorem consructFunc_link (hmod : mod.func = ⟨0⟩) (hfit : TablesFit (st.linked mod w))
    (hone : (((st.linked mod w).allDefinitions (st.linked mod w).size).filter
      (·.1 = "Construct")).length ≤ 1) :
    (link mod st.env w st.mc).mod.func.consructFunc = (ownConstruct (st.linked mod w)).getD 0 := by
  have h := (layoutSymbolAddr_linked (prepare mod w st.mc).1 st.env w.junk).func_eq
  rw [prepare_keeps.2, hmod] at h
  refine (congrArg FuncAddr.consructFunc h).trans ?_
  have hdef := hfit.definitionsBelow_eq le_rfl
  rw [show (prepare mod w st.mc).1.elf = st.linked mod w from rfl, hdef, constructAfter_eq hone]
  rfl

theorem range_pointerAt {elf : Elfio} {i j : ℕ} (hj : j < (elf.sec i).size.toNat / 8) :
    range (elf.pointerAt (i, j)) 8 ⊆ range (elf.sec i).address (elf.sec i).size.toNat := by
  have hlt := (elf.sec i).size.isLt
  have h8 : (8 * BitVec.ofNat 64 j).toNat = 8 * j := by
    rw [BitVec.toNat_mul, BitVec.toNat_ofNat, show (8 : BitVec 64).toNat = 8 from rfl,
      Nat.mod_eq_of_lt (by omega), Nat.mod_eq_of_lt (by omega)]
  refine range_subset ?_
  rw [h8]
  omega

theorem map_initPointers {elf : Elfio} (h : ∀ i < elf.size, (elf.sec i).type = shtInitArray →
    (elf.sec i).entrySize = 8) (mem : Mem) :
    (elf.initPointers elf.size).map (fun p => load 64 mem (elf.pointerAt p)) =
      initFunctions elf mem := by
  rw [Elfio.initPointers, initFunctions, List.map_flatMap]
  refine List.flatMap_congr fun i hi => ?_
  by_cases ht : (elf.sec i).type = shtInitArray
  · have hcount : (elf.sec i).initCount = (elf.sec i).size.toNat / 8 := by
      rw [Section.initCount, h i (List.mem_range.mp hi) ht]
      exact BitVec.toNat_udiv
    rw [if_pos ht, if_pos ht, hcount, List.map_map]
    rfl
  · rw [if_neg ht, if_neg ht]
    rfl

/-- What a load should call: its init arrays, then its own `Construct`. -/
def startCalls (arch : Arch) (st : RunState) (mod : Module) (w : World) : List Addr :=
  initFunctions (st.linked mod w) (st.relocated arch mod w) ++
    callOf (ownConstruct (st.linked mod w))

/-- **The calls of one load.** -/
theorem CleanLoad.calls_eq (h : CleanLoad arch st mod w) (hmod : mod.func = ⟨0⟩) :
    (st.load arch mod w).calls.map Call.fn = startCalls arch st mod w := by
  obtain ⟨rel, ist, hrel, hinit, hcalls⟩ := loadModule_returns h.returns
  have hmem : st.relocated arch mod w = rel.mem := by
    unfold RunState.relocated
    rw [hrel]
  have hcode := h.code
  rw [hmem, ← map_initPointers h.entrySize] at hcode
  have hwhole : ∀ p ∈ (st.linked mod w).initPointers (st.linked mod w).size,
      p.1 < (st.linked mod w).size ∧ ((st.linked mod w).sec p.1).type = shtInitArray ∧
        p.2 < ((st.linked mod w).sec p.1).size.toNat / 8 := by
    rintro ⟨i, j⟩ hp
    obtain ⟨hi, ht, hj⟩ := mem_initPointers.mp hp
    refine ⟨hi, ht, ?_⟩
    rw [Section.initCount, h.entrySize i hi ht] at hj
    exact hj.trans_eq BitVec.toNat_udiv
  have harrays : (afterArrays (link mod st.env w st.mc).mod w.code rel.mem).calls =
      ((st.linked mod w).initPointers (st.linked mod w).size).map fun p =>
        .init p.1 p.2 (load 64 rel.mem ((st.linked mod w).pointerAt p)) := by
    unfold afterArrays
    rw [calls_foldl_initPointer _ ?_ fun _ _ => rfl]
    · rw [List.nil_append, size_link, initPointers_link]
      exact List.map_congr_left fun p _ => by rw [pointerAt_link]
    · intro q hq m p hp
      rw [size_link, initPointers_link] at hq hp
      rw [pointerAt_link, pointerAt_link]
      obtain ⟨hi, ht, hj⟩ := hwhole p hp
      refine load_congr (by omega) (by omega) fun x hx => ?_
      exact hcode _ (List.mem_map.mpr ⟨q, hq, rfl⟩) m p.1 hi ht x (range_pointerAt hj hx)
  have hfn : ((st.linked mod w).initPointers (st.linked mod w).size).map (Call.fn ∘ fun p =>
      .init p.1 p.2 (load 64 rel.mem ((st.linked mod w).pointerAt p))) =
        initFunctions (st.linked mod w) rel.mem := map_initPointers h.entrySize rel.mem
  obtain ⟨-, rfl⟩ := modInitAndConstruct_eq_ok_iff.mp hinit
  have hown := consructFunc_link hmod h.tablesFit h.construct
  refine (congrArg (List.map Call.fn) hcalls).trans ?_
  rw [startCalls, hmem, hown]
  rw [callOf_eq]
  split
  · simp only [InitState.call]
    rw [harrays, List.map_append, List.map_map, hfn]
    rfl
  · rw [harrays, List.map_map, hfn, List.append_nil]

end Load

/-! ### The order of a whole run -/

section Order

variable {arch : Arch} {blank : Elfio} {mc : Machine} {host : List (String × Addr)}
  {st : RunState} {w : ℕ → World} {n : ℕ}

end Order

/-! ### Samples -/

/-- An object with a section of code, an init array of two pointers, and a `Construct` of the given
value in the code. -/
def startObject (value : Addr) : Elfio := ⟨[default,
  { (default : Section) with type := 1, flags := 6, size := 16 },
  { (default : Section) with type := 14, flags := 3, offset := 0x10, size := 16, entrySize := 8 },
  { (default : Section) with
    type := 2
    offset := 0x1000
    size := 48
    entrySize := 24
    symbols := sampleTable 2 [⟨"Construct", value, 0, 1, 2, 1, 0⟩] }], by simp⟩

/-- The world of its load, with the image at a given address. -/
def startWorld (image value : Addr) : World :=
  { sampleWorld 0 with
    fileSize := some 0x1030
    file := fun _ => 0x11
    parsed := (true, startObject value)
    image := some image }

def startMachine : Machine := ⟨fun _ => 0, fun _ => Prot.readWrite⟩

end Umko

import Umko.Load.Defs

/-!
# The initialisers

The calls of `mod_init_and_construct` in order: the pointers of the init arrays, by section and by
index, then the recorded `Construct`. How many pointers of a section are called is the quotient of
two fields of its header, while the pointers are 8 bytes apart.
-/

namespace Umko

open Lib.Memory

/-! ### The run of the loops -/

def Call.index : Call → Option (ℕ × ℕ)
  | .init i j _ => some (i, j)
  | .construct _ => none

/-- `num`, where it is computed. -/
def Section.initCount (s : Section) : ℕ := (s.size / s.entrySize).toNat

/-- The sections and indices of the pointers of the init arrays below section `n`, in the order of
the loops. -/
def Elfio.initPointers (elf : Elfio) (n : ℕ) : List (ℕ × ℕ) :=
  (List.range n).flatMap fun i => if (elf.sec i).type = shtInitArray
    then (List.range (elf.sec i).initCount).map (Prod.mk i) else []

/-- The address of the pointer `j` of section `i`. -/
def Elfio.pointerAt (elf : Elfio) (p : ℕ × ℕ) : Addr :=
  (elf.sec p.1).address + 8 * BitVec.ofNat 64 p.2

/-- `fn[j]()` for the pointer `j` of section `i`. -/
def initPointer (code : Addr → Mem → Mem) (elf : Elfio) (st : InitState) (p : ℕ × ℕ) : InitState :=
  initCall code p.1 (elf.sec p.1).address st p.2

/-- The loops below section `n` divide by no zero. -/
def Elfio.Divides (elf : Elfio) (n : ℕ) : Prop :=
  ∀ i < n, (elf.sec i).type = shtInitArray → (elf.sec i).entrySize ≠ 0

section Run

variable {code : Addr → Mem → Mem} {elf : Elfio} {st st' : InitState} {n i j : ℕ}

theorem initPointers_succ (elf : Elfio) (n : ℕ) : elf.initPointers (n + 1) =
    elf.initPointers n ++ if (elf.sec n).type = shtInitArray
      then (List.range (elf.sec n).initCount).map (Prod.mk n) else [] := by
  rw [Elfio.initPointers, List.range_succ, List.flatMap_append, List.flatMap_singleton]
  rfl

theorem mem_initPointers : (i, j) ∈ elf.initPointers n ↔
    i < n ∧ (elf.sec i).type = shtInitArray ∧ j < (elf.sec i).initCount := by
  simp only [Elfio.initPointers, List.mem_flatMap, List.mem_range]
  constructor
  · rintro ⟨k, hk, hmem⟩
    split at hmem
    · rename_i ht
      obtain ⟨l, hl, he⟩ := List.mem_map.mp hmem
      obtain ⟨rfl, rfl⟩ := Prod.mk.inj he
      exact ⟨hk, ht, List.mem_range.mp hl⟩
    · cases hmem
  · rintro ⟨hi, ht, hj⟩
    refine ⟨i, hi, ?_⟩
    rw [if_pos ht]
    exact List.mem_map.mpr ⟨j, List.mem_range.mpr hj, rfl⟩

theorem nodup_initPointers (elf : Elfio) (n : ℕ) : (elf.initPointers n).Nodup := by
  induction n with
  | zero => exact List.nodup_nil
  | succ n ih =>
    rw [initPointers_succ]
    split
    · refine List.nodup_append'.mpr ⟨ih, List.nodup_range.map fun _ _ h => (Prod.mk.inj h).2, ?_⟩
      rintro ⟨i, j⟩ hl hr
      obtain ⟨k, _, he⟩ := List.mem_map.mp hr
      have := (mem_initPointers.mp hl).1
      have := (Prod.mk.inj he).1
      omega
    · simpa using ih

theorem initStep_eq_ok_iff : initStep code elf st i = .ok st' ↔
    ((elf.sec i).type = shtInitArray → (elf.sec i).entrySize ≠ 0) ∧
      st' = (if (elf.sec i).type = shtInitArray
        then (List.range (elf.sec i).initCount).map (Prod.mk i) else []).foldl
          (initPointer code elf) st := by
  unfold initStep
  by_cases ht : (elf.sec i).type = shtInitArray
  · by_cases h0 : (elf.sec i).entrySize = 0
    · simp [ht, h0]
    · simp only [ht, h0, if_true, if_false, Except.ok.injEq, ne_eq, not_false_eq_true,
        implies_true, true_and, List.foldl_map]
      exact eq_comm
  · simp only [ht, if_false, Except.ok.injEq, false_imp_iff, true_and, List.foldl_nil]
    exact eq_comm

/-- **The loops** end when they divide by no zero, and call the pointers in order. -/
theorem foldlM_initStep_eq_ok_iff :
    (List.range n).foldlM (initStep code elf) st = .ok st' ↔
      elf.Divides n ∧ st' = (elf.initPointers n).foldl (initPointer code elf) st := by
  induction n generalizing st' with
  | zero =>
    have hd : elf.Divides 0 := fun i hi => absurd hi (Nat.not_lt_zero i)
    simp [hd, Elfio.initPointers, pure, Except.pure, eq_comm]
  | succ n ih =>
    have hlast : (List.range (n + 1)).foldlM (initStep code elf) st =
        ((List.range n).foldlM (initStep code elf) st).bind fun s => initStep code elf s n := by
      rw [List.range_succ, List.foldlM_append]
      refine congrArg (Except.bind _) (funext fun s => ?_)
      exact bind_pure _
    have hbind : ∀ (x : Except InitState InitState) (f : InitState → Except InitState InitState),
        x.bind f = .ok st' ↔ ∃ s, x = .ok s ∧ f s = .ok st' := by
      intro x f
      cases x <;> simp [Except.bind]
    have hdiv : elf.Divides (n + 1) ↔ elf.Divides n ∧
        ((elf.sec n).type = shtInitArray → (elf.sec n).entrySize ≠ 0) := by
      refine ⟨fun h => ⟨fun i hi => h i (by omega), h n (by omega)⟩, fun ⟨h, hn⟩ i hi => ?_⟩
      rcases Nat.lt_succ_iff_lt_or_eq.mp hi with hi | rfl
      · exact h i hi
      · exact hn
    rw [hlast, hbind, hdiv, initPointers_succ, List.foldl_append]
    constructor
    · rintro ⟨s, hs, hstep⟩
      obtain ⟨h1, rfl⟩ := ih.mp hs
      obtain ⟨h2, h3⟩ := initStep_eq_ok_iff.mp hstep
      exact ⟨⟨h1, h2⟩, h3⟩
    · rintro ⟨⟨h1, h2⟩, h3⟩
      exact ⟨_, ih.mpr ⟨h1, rfl⟩, initStep_eq_ok_iff.mpr ⟨h2, h3⟩⟩

theorem index_foldl_initPointer (l : List (ℕ × ℕ)) (st : InitState) :
    (l.foldl (initPointer code elf) st).calls.filterMap Call.index =
      st.calls.filterMap Call.index ++ l := by
  induction l generalizing st with
  | nil => simp
  | cons p l ih =>
    rw [List.foldl_cons, ih]
    simp [initPointer, initCall, InitState.call, Call.index]

/-- **The calls of pointers that the functions called leave alone**: each is read as it was at the
start. -/
theorem calls_foldl_initPointer {mem : Mem} (l : List (ℕ × ℕ))
    (hcode : ∀ q ∈ l, ∀ m, ∀ p ∈ l,
      load 64 (code (load 64 mem (elf.pointerAt q)) m) (elf.pointerAt p) =
        load 64 m (elf.pointerAt p))
    (hst : ∀ p ∈ l, load 64 st.mem (elf.pointerAt p) = load 64 mem (elf.pointerAt p)) :
    (l.foldl (initPointer code elf) st).calls =
      st.calls ++ l.map fun p => .init p.1 p.2 (load 64 mem (elf.pointerAt p)) := by
  induction l generalizing st with
  | nil => simp
  | cons p l ih =>
    have hp := hst p (List.mem_cons_self ..)
    have hmem : (initPointer code elf st p).mem =
        code (load 64 st.mem (elf.pointerAt p)) st.mem := rfl
    have hcalls : (initPointer code elf st p).calls =
        st.calls ++ [.init p.1 p.2 (load 64 st.mem (elf.pointerAt p))] := rfl
    have hrest : ∀ q ∈ l, load 64 (initPointer code elf st p).mem (elf.pointerAt q) =
        load 64 mem (elf.pointerAt q) := by
      intro q hq
      rw [hmem, hp, hcode p (List.mem_cons_self ..) _ q (List.mem_cons_of_mem _ hq)]
      exact hst q (List.mem_cons_of_mem _ hq)
    rw [List.foldl_cons, ih (fun q hq m r hr => hcode q (List.mem_cons_of_mem _ hq) m r
      (List.mem_cons_of_mem _ hr)) hrest, hcalls, hp, List.map_cons, List.append_assoc,
      List.singleton_append]

end Run

/-! ### The whole of `mod_init_and_construct` -/

section Whole

variable {mod : Module} {code : Addr → Mem → Mem} {mem : Mem} {st : InitState}

/-- The state before `Construct`. -/
def afterArrays (mod : Module) (code : Addr → Mem → Mem) (mem : Mem) : InitState :=
  (mod.elf.initPointers mod.elf.size).foldl (initPointer code mod.elf) ⟨mem, []⟩

/-- **`mod_init_and_construct` returns** exactly when it divides by no zero. -/
theorem modInitAndConstruct_eq_ok_iff : modInitAndConstruct mod code mem = .ok st ↔
    mod.elf.Divides mod.elf.size ∧ st = if mod.func.consructFunc ≠ 0
      then (afterArrays mod code mem).call code (.construct mod.func.consructFunc)
      else afterArrays mod code mem := by
  unfold modInitAndConstruct
  cases hr : (List.range mod.elf.size).foldlM (initStep code mod.elf) (⟨mem, []⟩ : InitState) with
  | error s =>
    simp only [reduceCtorEq, false_iff, not_and]
    intro hd
    have hok : (List.range mod.elf.size).foldlM (initStep code mod.elf) (⟨mem, []⟩ : InitState) =
        .ok (afterArrays mod code mem) := foldlM_initStep_eq_ok_iff.mpr ⟨hd, rfl⟩
    rw [hr] at hok
    cases hok
  | ok s =>
    obtain ⟨hd, rfl⟩ := foldlM_initStep_eq_ok_iff.mp hr
    simp only [Except.ok.injEq, hd, true_and]
    exact eq_comm

theorem index_modInitAndConstruct (h : modInitAndConstruct mod code mem = .ok st) :
    st.calls.filterMap Call.index = mod.elf.initPointers mod.elf.size := by
  have hrun : (afterArrays mod code mem).calls.filterMap Call.index =
      mod.elf.initPointers mod.elf.size := by
    rw [afterArrays, index_foldl_initPointer]
    rfl
  obtain ⟨-, rfl⟩ := modInitAndConstruct_eq_ok_iff.mp h
  split
  · simp [InitState.call, Call.index, hrun]
  · exact hrun

end Whole

/-! ### Safety -/

/-- **The initialisers are called safely**: `mod_init_and_construct` divides by no zero, every
pointer that it calls lies inside its section, and every pointer of an init array is called once. -/
def InitSafe (mod : Module) (code : Addr → Mem → Mem) (mem : Mem) : Prop :=
  ∃ st, modInitAndConstruct mod code mem = .ok st ∧
    (∀ i j, (i, j) ∈ st.calls.filterMap Call.index → i < mod.elf.size ∧
      (mod.elf.sec i).type = shtInitArray ∧ 8 * j + 8 ≤ (mod.elf.sec i).size.toNat) ∧
    ∀ i < mod.elf.size, (mod.elf.sec i).type = shtInitArray → ∀ j,
      8 * j + 8 ≤ (mod.elf.sec i).size.toNat →
        (st.calls.filterMap Call.index).count (i, j) = 1

/-- **When the initialisers are called safely**: exactly when the sizes of entries are not zero and
give the number of pointers. -/
theorem initSafe_iff (mod : Module) (code : Addr → Mem → Mem) (mem : Mem) :
    InitSafe mod code mem ↔ ∀ i < mod.elf.size, (mod.elf.sec i).type = shtInitArray →
      (mod.elf.sec i).entrySize ≠ 0 ∧
      (mod.elf.sec i).size.toNat / (mod.elf.sec i).entrySize.toNat =
        (mod.elf.sec i).size.toNat / 8 := by
  have hcount : ∀ i, (mod.elf.sec i).initCount =
      (mod.elf.sec i).size.toNat / (mod.elf.sec i).entrySize.toNat := fun i => BitVec.toNat_udiv
  constructor
  · rintro ⟨st, hst, hin, honce⟩ i hi ht
    have hd := (modInitAndConstruct_eq_ok_iff.mp hst).1
    rw [index_modInitAndConstruct hst] at hin honce
    refine ⟨hd i hi ht, ?_⟩
    rw [← hcount]
    have hle : (mod.elf.sec i).initCount ≤ (mod.elf.sec i).size.toNat / 8 := by
      by_contra hlt
      have := (hin i _ (mem_initPointers.mpr ⟨hi, ht, Nat.lt_of_not_le hlt⟩)).2.2
      omega
    have hge : (mod.elf.sec i).size.toNat / 8 ≤ (mod.elf.sec i).initCount := by
      by_contra hlt
      have hone := honce i hi ht (mod.elf.sec i).initCount (by omega)
      have hmem := List.count_pos_iff.mp (Nat.lt_of_lt_of_eq Nat.one_pos hone.symm)
      exact absurd (mem_initPointers.mp hmem).2.2 (Nat.lt_irrefl _)
    omega
  · intro h
    have hd : mod.elf.Divides mod.elf.size := fun i hi ht => (h i hi ht).1
    refine ⟨_, modInitAndConstruct_eq_ok_iff.mpr ⟨hd, rfl⟩, ?_⟩
    rw [index_modInitAndConstruct (modInitAndConstruct_eq_ok_iff.mpr ⟨hd, rfl⟩)]
    refine ⟨fun i j hmem => ?_, fun i hi ht j hj => ?_⟩
    · obtain ⟨hi, ht, hj⟩ := mem_initPointers.mp hmem
      rw [hcount, (h i hi ht).2] at hj
      exact ⟨hi, ht, by omega⟩
    · refine List.count_eq_one_of_mem (nodup_initPointers _ _) (mem_initPointers.mpr ⟨hi, ht, ?_⟩)
      rw [hcount, (h i hi ht).2]
      omega

/-- A module with an init array of two pointers, and `entsize` for the size of its entries. -/
def initModule (entsize : BitVec 64) : Module :=
  Module.fresh ⟨[default, { (default : Section) with
    type := 14, flags := 3, address := 0x1000, size := 16, entrySize := entsize }], by simp⟩

/-- A size of entries that is zero, one that runs past the section, and one that skips pointers. -/
theorem not_initSafe_entsize : ¬ InitSafe (initModule 0) (fun _ m => m) (fun _ => 0) ∧
    ¬ InitSafe (initModule 4) (fun _ m => m) (fun _ => 0) ∧
    ¬ InitSafe (initModule 16) (fun _ m => m) (fun _ => 0) := by
  refine ⟨?_, ?_, ?_⟩
  · rintro ⟨st, hst, -⟩
    cases hst
  · rintro ⟨st, hst, hin, -⟩
    obtain rfl := Except.ok.inj hst
    exact absurd (hin 1 3 (by decide)).2.2 (by decide)
  · rintro ⟨st, hst, -, honce⟩
    obtain rfl := Except.ok.inj hst
    exact absurd (honce 1 (by decide) rfl 1 (by decide)) (by decide)

end Umko

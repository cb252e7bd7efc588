import Umko.Load.Stages

/-!
# Runs

Registrations of host functions and loads of modules, in any order, over one environment. The
environment is what the definitions made so far give, the earliest one of a name; an import gets
the earliest definition that comes before it.
-/

namespace Umko

open Lib.Memory Lib.FirstDef

/-! ### Actions -/

/-- `RegisterFunc(name, addr)`, or `load_module` on a module and the environment. -/
inductive Action where
  | registerFunc (name : String) (addr : Addr)
  | loadModule (mod : Module) (w : World)

/-- The state of a run: nothing happens after a load that does not return. -/
structure RunState where
  env : SysEnv
  mc : Machine
  loads : List Loaded
  halted : Bool

def RunState.start (mc : Machine) : RunState := ⟨SysEnv.empty, mc, [], false⟩

def RunState.load (arch : Arch) (st : RunState) (mod : Module) (w : World) : Loaded :=
  Umko.loadModule arch mod st.env w st.mc

def runStep (arch : Arch) (st : RunState) (a : Action) : RunState :=
  if st.halted then st
  else
    match a with
    | .registerFunc name addr => { st with env := st.env.addSymbol name addr }
    | .loadModule mod w =>
      let l := st.load arch mod w
      ⟨l.env, l.mc, st.loads ++ [l], l.ret.isNone⟩

def run (arch : Arch) (st : RunState) (as : List Action) : RunState := as.foldl (runStep arch) st

theorem run_append (arch : Arch) (st : RunState) (as bs : List Action) :
    run arch st (as ++ bs) = run arch (run arch st as) bs := List.foldl_append ..

/-! ### Definitions -/

/-- The object whose symbols a load fixes, the addresses of its sections assigned. -/
def RunState.linked (st : RunState) (mod : Module) (w : World) : Elfio :=
  (prepare mod w st.mc).1.elf

/-- The definitions that an action makes, in order. -/
def Action.definitions (st : RunState) (a : Action) : List (String × Addr) :=
  if st.halted then []
  else
    match a with
    | .registerFunc name addr => [(name, addr)]
    | .loadModule mod w => (st.linked mod w).allDefinitions (st.linked mod w).size

/-- The definitions of a run, in order. -/
def history (arch : Arch) : RunState → List Action → List (String × Addr)
  | _, [] => []
  | st, a :: as => a.definitions st ++ history arch (runStep arch st a) as

theorem history_append (arch : Arch) (st : RunState) (as bs : List Action) :
    history arch st (as ++ bs) = history arch st as ++ history arch (run arch st as) bs := by
  induction as generalizing st with
  | nil => rfl
  | cons a as ih => simp [history, run, ih]

/-- The tables of the object that the action loads, if it is a load, fit the counter. -/
def Action.Fits : Action → Prop
  | .registerFunc .. => True
  | .loadModule mod w => TablesFit (mod.object w)

theorem env_runStep {arch : Arch} {st : RunState} {a : Action} (ha : a.Fits) :
    (runStep arch st a).env = st.env.addAll (a.definitions st) := by
  unfold runStep Action.definitions
  cases st.halted with
  | true => simp
  | false =>
    cases a with
    | registerFunc name addr => rfl
    | loadModule mod w =>
      have hfit : TablesFit (st.linked mod w) := TablesFit.readdressed ha readdressed_prepare
      have henv : (st.load arch mod w).env = st.env.addAll
          ((st.linked mod w).definitionsBelow (st.linked mod w).size) :=
        link_loadModule.2.1.trans env_link
      rw [hfit.definitionsBelow_eq le_rfl] at henv
      simpa using henv

/-- **The environment after a run** is made of its definitions. -/
theorem env_run {arch : Arch} {st : RunState} {as : List Action} (h : ∀ a ∈ as, a.Fits) :
    (run arch st as).env = st.env.addAll (history arch st as) := by
  induction as generalizing st with
  | nil => rfl
  | cons a as ih =>
    have ha := h a (List.mem_cons_self ..)
    calc (run arch (runStep arch st a) as).env
        = (runStep arch st a).env.addAll (history arch (runStep arch st a) as) :=
          ih fun b hb => h b (List.mem_cons_of_mem _ hb)
      _ = st.env.addAll (history arch st (a :: as)) := by
          rw [env_runStep ha, history, SysEnv.addAll_append]

/-! ### Imports -/

/-- In the run of `as`, after the actions `before`, the module `mod` is loaded, and the symbol `k` of
the table in section `i` of its object is the import `s`. -/
structure ImportAt (arch : Arch) (mc : Machine) (as before : List Action) (mod : Module) (w : World)
    (i k : ℕ) (s : Symbol) : Prop where
  load : before ++ [.loadModule mod w] <+: as
  live : (run arch (.start mc) before).halted = false
  lt_size : i < ((run arch (.start mc) before).linked mod w).size
  table : (((run arch (.start mc) before).linked mod w).sec i).type = shtSymtab
  lt_num : k < (((run arch (.start mc) before).linked mod w).sec i).symbols.num.toNat
  entry : (((run arch (.start mc) before).linked mod w).sec i).symbols.entry
    (BitVec.ofNat 64 k) = some s
  isImport : s.IsImport

/-- The definitions that come before symbol `k` of section `i` of the module loaded after the
actions `before`: those of the actions, of the tables before, and of the symbols before. -/
def earlier (arch : Arch) (mc : Machine) (before : List Action) (mod : Module) (w : World)
    (i k : ℕ) : List (String × Addr) :=
  let elf := (run arch (.start mc) before).linked mod w
  history arch (.start mc) before ++ elf.allDefinitions i ++
    definitionsBefore elf (elf.sec i).symbols k

/-- **Linking across a run**: the names bound are those defined, each at its earliest definition; a
binding stays; and an import has the earliest definition of its name that comes before it, which is
the binding of the name, or is reported as undefined and left alone if there is none. -/
structure LinkedRun (arch : Arch) (mc : Machine) (as : List Action) : Prop where
  bound : ∀ name, (run arch (.start mc) as).env.getSymbol name =
    (history arch (.start mc) as).lookup name
  fixed : ∀ before, before <+: as → ∀ name addr,
    (run arch (.start mc) before).env.getSymbol name = some addr →
    (run arch (.start mc) as).env.getSymbol name = some addr
  resolved : ∀ before mod w i k s, ImportAt arch mc as before mod w i k s →
    ∀ addr, (earlier arch mc before mod w i k).lookup s.name = some addr →
      ((((run arch (.start mc) before).load arch mod w).mod.elf.sec i).symbols.entry
        (BitVec.ofNat 64 k) = some { s with value := addr }) ∧
      (run arch (.start mc) as).env.getSymbol s.name = some addr
  unresolved : ∀ before mod w i k s, ImportAt arch mc as before mod w i k s →
    ((i, (⟨BitVec.ofNat 32 k, s.name, none⟩ : Import)) ∈
        ((run arch (.start mc) before).load arch mod w).imports ↔
      (earlier arch mc before mod w i k).lookup s.name = none)
  kept : ∀ before mod w i k s, ImportAt arch mc as before mod w i k s →
    (earlier arch mc before mod w i k).lookup s.name = none →
    (((run arch (.start mc) before).load arch mod w).mod.elf.sec i).symbols.entry
      (BitVec.ofNat 64 k) = some s

section Imports

variable {arch : Arch} {mc : Machine} {as before : List Action} {mod : Module} {w : World}
  {i k : ℕ} {s : Symbol}

theorem ImportAt.tablesFit (hfit : ∀ a ∈ as, a.Fits)
    (h : ImportAt arch mc as before mod w i k s) :
    TablesFit ((run arch (.start mc) before).linked mod w) :=
  TablesFit.readdressed
    (hfit (.loadModule mod w) (h.load.subset (List.mem_append_right _ (List.mem_singleton_self _))))
    readdressed_prepare

theorem ImportAt.lt_reach (hfit : ∀ a ∈ as, a.Fits) (h : ImportAt arch mc as before mod w i k s) :
    k < (((run arch (.start mc) before).linked mod w).sec i).symbols.reach := by
  rw [SymbolTable.reach_eq (h.tablesFit hfit i h.lt_size h.table)]
  exact h.lt_num

theorem ImportAt.getSymbol_eq (hfit : ∀ a ∈ as, a.Fits)
    (h : ImportAt arch mc as before mod w i k s) (name : String) :
    (envBefore ((run arch (.start mc) before).linked mod w)
      (((run arch (.start mc) before).linked mod w).sec i).symbols
      (((run arch (.start mc) before).linked mod w).envBelow (run arch (.start mc) before).env i)
      k).getSymbol name = (earlier arch mc before mod w i k).lookup name := by
  have hbefore : ∀ a ∈ before, a.Fits := fun a ha =>
    hfit a (h.load.subset (List.mem_append_left _ ha))
  rw [envBefore, Elfio.envBelow, (h.tablesFit hfit).definitionsBelow_eq h.lt_size.le,
    env_run hbefore, ← SysEnv.addAll_append, ← SysEnv.addAll_append, SysEnv.getSymbol_addAll]
  simp [earlier, RunState.start, SysEnv.empty, SysEnv.getSymbol]

/-- An import after the load: the earliest definition of its name before it, else its old value. -/
theorem ImportAt.entry_load (hfit : ∀ a ∈ as, a.Fits)
    (h : ImportAt arch mc as before mod w i k s) :
    (((run arch (.start mc) before).load arch mod w).mod.elf.sec i).symbols.entry
      (BitVec.ofNat 64 k) =
        some { s with value := ((earlier arch mc before mod w i k).lookup s.name).getD s.value } := by
  have hload : ((run arch (.start mc) before).load arch mod w).mod =
      (link mod (run arch (.start mc) before).env w (run arch (.start mc) before).mc).mod :=
    link_loadModule.1
  have hsec := (layoutSymbolAddr_linked (prepare mod w (run arch (.start mc) before).mc).1
    (run arch (.start mc) before).env w.junk).sec i
  rw [if_pos ⟨h.lt_size, h.table⟩] at hsec
  rw [hload]
  refine (congrArg (fun sec => sec.symbols.entry (BitVec.ofNat 64 k)) hsec).trans ?_
  refine (entry_linkedSymbols_import (h.lt_reach hfit) h.entry h.isImport).trans ?_
  rw [h.getSymbol_eq hfit]

theorem ImportAt.earlier_initial (h : ImportAt arch mc as before mod w i k s) :
    earlier arch mc before mod w i k <+: history arch (.start mc) as := by
  obtain ⟨rest, rfl⟩ := h.load
  have hdef : (Action.loadModule mod w).definitions (run arch (.start mc) before) =
      ((run arch (.start mc) before).linked mod w).allDefinitions
        ((run arch (.start mc) before).linked mod w).size := by
    simp [Action.definitions, h.live]
  rw [List.append_assoc, history_append, List.singleton_append, history, hdef, earlier,
    List.append_assoc]
  refine (List.prefix_append_right_inj _).mpr ?_
  exact (allDefinitions_table_mono _ h.lt_size h.table h.lt_num.le).trans (List.prefix_append _ _)

end Imports

/-- **Linking across a run** is right when no symbol table that is loaded has `2 ^ 32` symbols or
more. -/
theorem linkedRun_of_fits {arch : Arch} {mc : Machine} {as : List Action}
    (h : ∀ a ∈ as, a.Fits) : LinkedRun arch mc as := by
  have hbound : ∀ name, (run arch (.start mc) as).env.getSymbol name =
      (history arch (.start mc) as).lookup name := by
    intro name
    rw [env_run h, SysEnv.getSymbol_addAll]
    simp [RunState.start, SysEnv.empty, SysEnv.getSymbol]
  refine ⟨hbound, ?_, ?_, ?_, ?_⟩
  · rintro before ⟨rest, rfl⟩ name addr hsome
    have hrest : ∀ a ∈ rest, a.Fits := fun a ha => h a (List.mem_append_right _ ha)
    rw [run_append, env_run hrest, SysEnv.getSymbol_addAll, hsome, Option.some_or]
  · intro before mod w i k s hi addr haddr
    refine ⟨?_, ?_⟩
    · rw [hi.entry_load h, haddr, Option.getD_some]
    · obtain ⟨rest, hrest⟩ := hi.earlier_initial
      rw [hbound, ← hrest, List.lookup_append, haddr, Option.some_or]
  · intro before mod w i k s hi
    have hload : ((run arch (.start mc) before).load arch mod w).imports =
        (link mod (run arch (.start mc) before).env w (run arch (.start mc) before).mc).imports :=
      link_loadModule.2.2
    have hreach : ∀ j, j < (((run arch (.start mc) before).linked mod w).sec i).symbols.reach →
        j < 2 ^ 32 := fun j hj => Nat.lt_trans hj (BitVec.isLt _)
    rw [hload]
    refine mem_imports.trans ⟨?_, fun hnone => ⟨hi.lt_size, hi.table, ?_⟩⟩
    · rintro ⟨-, -, hm⟩
      obtain ⟨j, hj, s', -, -, he⟩ := mem_importsBefore.mp hm
      obtain ⟨hix, hname, hans⟩ := Import.mk.inj he
      -- the index tells the symbol, as the counter does not wrap
      have hjk : j = k := by
        have h1 := congrArg BitVec.toNat hix
        simp only [BitVec.toNat_ofNat] at h1
        have := hreach j hj
        have := hreach k (hi.lt_reach h)
        omega
      rw [← hi.getSymbol_eq h, hname, ← hjk]
      exact hans.symm
    · refine mem_importsBefore.mpr ⟨k, hi.lt_reach h, s, hi.entry, hi.isImport, ?_⟩
      have hans := hi.getSymbol_eq h s.name
      rw [hnone] at hans
      exact congrArg (Import.mk _ _) hans.symm
  · intro before mod w i k s hi hnone
    rw [hi.entry_load h, hnone, Option.getD_none]

theorem linkedRun_of_fits_sample : LinkedRun .x86_64 ⟨fun _ => 0, fun _ => Prot.readWrite⟩
    [.registerFunc "missing" 0x1000,
      .loadModule (Module.fresh ⟨[], by simp⟩) (sampleWorld 3)] := by
  refine linkedRun_of_fits fun a ha => ?_
  rcases List.mem_pair.mp ha with rfl | rfl
  · trivial
  · intro i hi ht
    match i, hi with
    | 2, _ => decide
    | 0, _ | 1, _ => exact absurd ht (by decide)

/-- **A table of `2 ^ 32` symbols**: the counter stops before the first one, and what the object
defines is not bound. -/
theorem huge_table_not_linked : ¬ LinkedRun .x86_64 ⟨fun _ => 0, fun _ => Prot.readWrite⟩
    [.loadModule (Module.fresh ⟨[], by simp⟩) (sampleWorld 0x100000000)] := by
  intro h
  have hb := h.bound "Construct"
  have henv : (run .x86_64 (.start ⟨fun _ => 0, fun _ => Prot.readWrite⟩)
      [.loadModule (Module.fresh ⟨[], by simp⟩)
        (sampleWorld 0x100000000)]).env.getSymbol "Construct" = none := rfl
  rw [henv] at hb
  have hmem : ("Construct", 0x20004) ∈ history .x86_64
      (.start ⟨fun _ => 0, fun _ => Prot.readWrite⟩)
      [.loadModule (Module.fresh ⟨[], by simp⟩) (sampleWorld 0x100000000)] := by
    refine List.mem_append_left _ (List.mem_flatMap.mpr ⟨2, List.mem_range.mpr (by decide), ?_⟩)
    exact List.mem_filterMap.mpr ⟨1, List.mem_range.mpr (by decide), rfl⟩
  simpa using List.lookup_eq_none_iff.mp hb.symm _ hmem

end Umko

import Umko.Load.Linked

/-!
# Agreement on the names

The environment binds a name to its first definition, but a module keeps its own one for itself. So
the host and the modules of a run agree on where the names are exactly when no name is defined at two
addresses.
-/

namespace Umko

open Lib.Memory

/-! ### Who holds a name -/

/-- In the run of `as`, after the actions `before`, the module `mod` is loaded, and `s` is the symbol
`k` of the table in section `i` of its object. -/
structure SymbolAt (arch : Arch) (mc : Machine) (as before : List Action) (mod : Module) (w : World)
    (i k : ℕ) (s : Symbol) : Prop where
  load : before ++ [.loadModule mod w] <+: as
  live : (run arch (.start mc) before).halted = false
  lt_size : i < ((run arch (.start mc) before).linked mod w).size
  table : (((run arch (.start mc) before).linked mod w).sec i).type = shtSymtab
  lt_num : k < (((run arch (.start mc) before).linked mod w).sec i).symbols.num.toNat
  entry : (((run arch (.start mc) before).linked mod w).sec i).symbols.entry
    (BitVec.ofNat 64 k) = some s

/-- The symbol is a definition of its object, or an import that is found. -/
def Holds (arch : Arch) (mc : Machine) (before : List Action) (mod : Module) (w : World) (i k : ℕ)
    (s : Symbol) : Prop :=
  (∃ p, definition ((run arch (.start mc) before).linked mod w) s = some p) ∨
    s.IsImport ∧ (earlier arch mc before mod w i k).lookup s.name ≠ none

/-- The host and all modules hold every name at its address in the environment of the end. -/
structure Agreed (arch : Arch) (mc : Machine) (as : List Action) : Prop where
  host : ∀ before name addr, before ++ [.registerFunc name addr] <+: as →
    (run arch (.start mc) before).halted = false →
    (run arch (.start mc) as).env.getSymbol name = some addr
  modules : ∀ before mod w i k s, SymbolAt arch mc as before mod w i k s →
    Holds arch mc before mod w i k s → ∃ addr,
      (run arch (.start mc) as).env.getSymbol s.name = some addr ∧
      (((run arch (.start mc) before).load arch mod w).mod.elf.sec i).symbols.entry
        (BitVec.ofNat 64 k) = some { s with value := addr }

/-- No name is defined at two addresses. -/
def OneDefinition (arch : Arch) (mc : Machine) (as : List Action) : Prop :=
  ∀ name a b, (name, a) ∈ history arch (.start mc) as → (name, b) ∈ history arch (.start mc) as →
    a = b

/-! ### Who defines a name -/

theorem mem_history_iff {arch : Arch} {st : RunState} {as : List Action} {p : String × Addr} :
    p ∈ history arch st as ↔
      ∃ before a, before ++ [a] <+: as ∧ p ∈ a.definitions (run arch st before) := by
  induction as using List.reverseRecOn with
  | nil => simp [history]
  | append_singleton as a ih =>
    have hlast : history arch st (as ++ [a]) =
        history arch st as ++ a.definitions (run arch st as) := by
      rw [history_append, history, history, List.append_nil]
    rw [hlast, List.mem_append, ih]
    constructor
    · rintro (⟨before, b, hpre, hp⟩ | hp)
      · exact ⟨before, b, hpre.trans (List.prefix_append _ _), hp⟩
      · exact ⟨as, a, List.prefix_refl _, hp⟩
    · rintro ⟨before, b, hpre, hp⟩
      rcases List.prefix_concat_iff.mp hpre with heq | hpre
      · obtain ⟨rfl, hab⟩ := List.append_inj' heq rfl
        obtain rfl := List.singleton_inj.mp hab
        exact .inr hp
      · exact .inl ⟨before, b, hpre, hp⟩

theorem mem_allDefinitions_iff {elf : Elfio} {n : ℕ} {p : String × Addr} :
    p ∈ elf.allDefinitions n ↔ ∃ i < n, (elf.sec i).type = shtSymtab ∧
      ∃ k < (elf.sec i).symbols.num.toNat, ∃ s,
        (elf.sec i).symbols.entry (BitVec.ofNat 64 k) = some s ∧ definition elf s = some p := by
  unfold Elfio.allDefinitions definitionsBefore
  simp only [List.mem_flatMap, List.mem_range]
  refine exists_congr fun i => and_congr_right fun _ => ?_
  split
  · next ht => simp [ht, List.mem_filterMap, Option.bind_eq_some_iff]
  · next ht => simp [ht]

section Run

variable {arch : Arch} {mc : Machine} {as before : List Action} {mod : Module} {w : World}
  {i k : ℕ} {s : Symbol} {p : String × Addr}

theorem SymbolAt.mem_history (h : SymbolAt arch mc as before mod w i k s)
    (hp : definition ((run arch (.start mc) before).linked mod w) s = some p) :
    p ∈ history arch (.start mc) as := by
  refine mem_history_iff.mpr ⟨before, _, h.load, ?_⟩
  rw [Action.definitions, h.live]
  exact mem_allDefinitions_iff.mpr
    ⟨i, h.lt_size, h.table, k, h.lt_num, s, h.entry, hp⟩

/-- **A module keeps its own definition**, whatever the environment binds the name to. -/
theorem SymbolAt.entry_definition (hfit : ∀ a ∈ as, a.Fits)
    (h : SymbolAt arch mc as before mod w i k s)
    (hp : definition ((run arch (.start mc) before).linked mod w) s = some p) :
    p.1 = s.name ∧ (((run arch (.start mc) before).load arch mod w).mod.elf.sec i).symbols.entry
      (BitVec.ofNat 64 k) = some { s with value := p.2 } := by
  obtain ⟨⟨ht, hv, -⟩, hp⟩ := Option.ite_none_right_eq_some.mp hp
  obtain rfl := Option.some.inj hp
  refine ⟨rfl, ?_⟩
  have hfits : TablesFit ((run arch (.start mc) before).linked mod w) :=
    TablesFit.readdressed (hfit (.loadModule mod w)
      (h.load.subset (List.mem_append_right _ (List.mem_singleton_self _)))) readdressed_prepare
  have hsec := (layoutSymbolAddr_linked (prepare mod w (run arch (.start mc) before).mc).1
    (run arch (.start mc) before).env w.junk).sec i
  rw [if_pos ⟨h.lt_size, h.table⟩] at hsec
  rw [show ((run arch (.start mc) before).load arch mod w).mod = _ from link_loadModule.1]
  refine (congrArg (fun sec => sec.symbols.entry (BitVec.ofNat 64 k)) hsec).trans ?_
  have hk : (BitVec.ofNat 64 k).toNat = k := by
    have := h.lt_num
    rw [BitVec.toNat_ofNat, Nat.mod_eq_of_lt (by omega)]
  have hreach : (BitVec.ofNat 64 k).toNat <
      (((run arch (.start mc) before).linked mod w).sec i).symbols.reach := by
    rw [hk, SymbolTable.reach_eq (hfits i h.lt_size h.table)]
    exact h.lt_num
  have hown : ownAddress ((run arch (.start mc) before).linked mod w) .empty s = some
      (s.value + (((run arch (.start mc) before).linked mod w).sec s.sectionIndex.toNat).address) := by
    rw [ownAddress, if_pos hv, if_neg ht]
  exact entry_linkedSymbols_valid hreach h.entry hv hown

theorem ImportAt.exists_addr (hfit : ∀ a ∈ as, a.Fits)
    (h : ImportAt arch mc as before mod w i k s)
    (hfound : (earlier arch mc before mod w i k).lookup s.name ≠ none) : ∃ addr,
      (run arch (.start mc) as).env.getSymbol s.name = some addr ∧
      (((run arch (.start mc) before).load arch mod w).mod.elf.sec i).symbols.entry
        (BitVec.ofNat 64 k) = some { s with value := addr } := by
  obtain ⟨addr, haddr⟩ := Option.ne_none_iff_exists'.mp hfound
  obtain ⟨rest, hrest⟩ := h.earlier_initial
  refine ⟨addr, ?_, ?_⟩
  · rw [env_run hfit, SysEnv.getSymbol_addAll, ← hrest, List.lookup_append, haddr]
    simp [RunState.start, SysEnv.empty, SysEnv.getSymbol]
  · rw [h.entry_load hfit, haddr, Option.getD_some]

theorem getSymbol_run (hfit : ∀ a ∈ as, a.Fits) (name : String) :
    (run arch (.start mc) as).env.getSymbol name =
      (history arch (.start mc) as).lookup name := by
  rw [env_run hfit, SysEnv.getSymbol_addAll]
  simp [RunState.start, SysEnv.empty, SysEnv.getSymbol]

/-- Who defines a name is one of the parties, which have it where the environment has it. -/
theorem Agreed.getSymbol_eq (hfit : ∀ a ∈ as, a.Fits) (h : Agreed arch mc as)
    (hp : p ∈ history arch (.start mc) as) :
    (run arch (.start mc) as).env.getSymbol p.1 = some p.2 := by
  obtain ⟨before, action, hpre, hp⟩ := mem_history_iff.mp hp
  unfold Action.definitions at hp
  split at hp
  · cases hp
  · next hlive =>
    have hlive := Bool.eq_false_iff.mpr hlive
    cases action with
    | registerFunc name addr =>
      obtain rfl := List.mem_singleton.mp hp
      exact h.host before name addr hpre hlive
    | loadModule mod w =>
      obtain ⟨i, hi, ht, k, hk, s, hs, hd⟩ := mem_allDefinitions_iff.mp hp
      have hat : SymbolAt arch mc as before mod w i k s := ⟨hpre, hlive, hi, ht, hk, hs⟩
      obtain ⟨addr, hget, hentry⟩ := h.modules before mod w i k s hat (.inl ⟨p, hd⟩)
      obtain ⟨hname, hentry'⟩ := hat.entry_definition hfit hd
      have haddr : addr = p.2 :=
        congrArg Symbol.value (Option.some.inj (hentry.symm.trans hentry'))
      rw [hname, hget, haddr]

theorem OneDefinition.getSymbol_eq (hfit : ∀ a ∈ as, a.Fits) (h : OneDefinition arch mc as)
    (hp : p ∈ history arch (.start mc) as) :
    (run arch (.start mc) as).env.getSymbol p.1 = some p.2 := by
  rw [getSymbol_run hfit]
  cases hl : (history arch (.start mc) as).lookup p.1 with
  | none => exact absurd hp fun hp => by simpa using List.lookup_eq_none_iff.mp hl p hp
  | some b =>
    obtain ⟨l, l', hsplit, -⟩ := List.lookup_eq_some_iff.mp hl
    have hb : (p.1, b) ∈ history arch (.start mc) as := by
      rw [hsplit]
      simp
    rw [h p.1 b p.2 hb hp]

/-- **When the parties of a run agree on the names**: exactly when no name is defined at two
addresses. -/
theorem agreed_iff (hfit : ∀ a ∈ as, a.Fits) : Agreed arch mc as ↔ OneDefinition arch mc as := by
  constructor
  · intro h name a b ha hb
    exact Option.some.inj ((h.getSymbol_eq hfit ha).symm.trans (h.getSymbol_eq hfit hb))
  · intro h
    refine ⟨fun before name addr hpre hlive => ?_, fun before mod w i k s hat hholds => ?_⟩
    · refine @OneDefinition.getSymbol_eq arch mc as (name, addr) hfit h
        (mem_history_iff.mpr ⟨before, _, hpre, ?_⟩)
      rw [Action.definitions, hlive]
      exact List.mem_singleton_self _
    · rcases hholds with ⟨p, hp⟩ | ⟨himp, hfound⟩
      · obtain ⟨hname, hentry⟩ := hat.entry_definition hfit hp
        exact ⟨p.2, hname ▸ h.getSymbol_eq hfit (hat.mem_history hp), hentry⟩
      · have hat' : ImportAt arch mc as before mod w i k s :=
          ⟨hat.load, hat.live, hat.lt_size, hat.table, hat.lt_num, hat.entry, himp⟩
        exact hat'.exists_addr hfit hfound

end Run

/-- The host and a caller of it agree; a host with a function of the caller's name and the caller do
not. -/
theorem agreed_iff_callers : Agreed .x86_64 startMachine callerRun ∧
    ¬ Agreed .x86_64 startMachine
      [.registerFunc "f" 0x1000, .loadModule (Module.fresh ⟨[], by simp⟩) callerWorld] := by
  have hfit : ∀ a ∈ [Action.registerFunc "f" 0x1000,
      Action.loadModule (Module.fresh ⟨[], by simp⟩) callerWorld], a.Fits :=
    List.forall_mem_cons.mpr ⟨trivial, fun a ha =>
      fits_callerRun a (List.mem_cons_of_mem _ ha)⟩
  constructor
  · have hhistory : history .x86_64 (.start startMachine) callerRun =
        [("host", 0x1000), ("f", 0x20004)] := by decide +kernel
    refine (agreed_iff fits_callerRun).mpr fun name a b ha hb => ?_
    rw [hhistory] at ha hb
    simp at ha hb
    rcases ha with ⟨rfl, rfl⟩ | ⟨rfl, rfl⟩
    · simpa [eq_comm] using hb
    · simpa [eq_comm] using hb
  · have hhistory : history .x86_64 (.start startMachine) [.registerFunc "f" 0x1000,
        .loadModule (Module.fresh ⟨[], by simp⟩) callerWorld] =
          [("f", 0x1000), ("f", 0x20004)] := by decide +kernel
    refine (agreed_iff hfit).not.mpr fun h => ?_
    have heq := h "f" 0x1000 0x20004 (by rw [hhistory]; simp) (by rw [hhistory]; simp)
    simp at heq

end Umko

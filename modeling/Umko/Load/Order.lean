import Umko.Load.Linked

/-!
# The order of any number of loads

The stages between the mapping of the files and `mod_protect` for a list of modules. Modules that do
not name each other's symbols, in mappings apart, can be loaded in any order: each is linked as if it
were alone, and the environment and the memory at the end do not tell the order.
-/

namespace Umko

open Lib.Memory Lib.Local

/-! ### A list of modules -/

/-- The stages for one module after another: what they leave of each, and at the end. -/
def installAll (arch : Arch) : List Pending → SysEnv → Machine →
    Option (List Installed × SysEnv × Machine)
  | [], env, mc => some ([], env, mc)
  | p :: ps, env, mc => (install arch p env mc).bind fun a =>
      (installAll arch ps a.env a.mc).map fun r => (a :: r.1, r.2)

/-- What they make of the module itself: its sections and symbols, its lookups and its calls of
`do_relocate_add`. -/
def Installed.own (a : Installed) : Module × List (ℕ × Import) × List (RelocEntry × ℤ) :=
  (a.mod, a.imports, a.calls)

/-- In whatever order the modules are loaded, the environment and the machine at the end are the
same, and each module is what it is when it is loaded alone. -/
def OrderFree (arch : Arch) (ps : List Pending) (env : SysEnv) (mc : Machine) : Prop :=
  ∃ env' mc', ∀ qs : List Pending, qs.Perm ps → ∃ l,
    installAll arch qs env mc = some (l, env', mc') ∧
      l.map (fun a => some a.own) = qs.map fun p => (install arch p env mc).map Installed.own

/-! ### One of them -/

/-- A module in bounds that the pass gets through, with its fields in its sections. -/
structure Pending.Placeable (arch : Arch) (p : Pending) : Prop extends p.InBounds arch where
  relas : RelasFit p.mod.elf
  inside : ∀ i k r, p.mod.elf.RelaAt i k r →
    r.offset.toNat + arch.width r.type / 8 ≤ (p.mod.elf.sec (p.mod.elf.sec i).info.toNat).size.toNat

section One

variable {arch : Arch} {p : Pending} {env : SysEnv} {mc : Machine}

def Pending.definitions (p : Pending) (mc : Machine) : List (String × Addr) :=
  (p.moved mc).1.elf.definitionsBelow (p.moved mc).1.elf.size

/-- The protection after `move_module`. -/
def Pending.mapped (p : Pending) (pt : PageTable) : PageTable :=
  setProt pt p.base (imageLayout p.mod).layout.totalSize.toNat Prot.readWrite

theorem Pending.moved_congr (p : Pending) (mc mc' : Machine) : (p.moved mc').1 = (p.moved mc).1 :=
  module_loadImage p.mod p.base mc mc'

theorem Pending.Placeable.field_subset (h : p.Placeable arch) {e : RelocEntry}
    (he : e ∈ (p.linked env mc).mod.entries) : e.field arch ⊆ p.mappings := by
  have hr := @Pending.relinked p env mc
  refine h.toInBounds.field_subset he fun x hx => ?_
  obtain ⟨i, k, r, s, hrela, -, rfl⟩ := mem_entries_iff.mp he
  have hin := h.inside i k r ((hr.relaAt_iff i k r).mp hrela)
  obtain ⟨a, t, ht⟩ := hr.sec i
  obtain ⟨a', t', ht'⟩ := hr.sec (p.mod.elf.sec i).info.toNat
  have hsize : r.offset.toNat + arch.width r.type / 8 ≤ ((p.linked env mc).mod.elf.sec
      ((p.linked env mc).mod.elf.sec i).info.toNat).size.toNat := by
    rw [ht]
    dsimp only
    rw [ht']
    exact hin
  exact .inr ⟨_, hrela.2.1.2.1, hrela.2.1.2.2, range_subset hsize hx⟩

theorem Pending.Placeable.effect_local (h : p.Placeable arch) (env : SysEnv) (mc : Machine) :
    LocalTo p.mappings p.mappings (p.effect arch (p.linked env mc).mod) :=
  h.toInBounds.effect_local fun _ he => h.field_subset he

end One

/-! ### All of them -/

section All

variable {arch : Arch} {ps : List Pending} {env env' : SysEnv} {mc mc' : Machine}

/-- The effect of a module that is linked in the environment before all of them. -/
def Pending.effectIn (arch : Arch) (env : SysEnv) (mc : Machine) (p : Pending) :
    Mem → List (RelocEntry × ℤ) × Mem :=
  p.effect arch (p.linked env mc).mod

/-- **One module after another**, in an environment in which their imports have the bindings that
they have in `env`: each is linked as in `env`. -/
theorem installAll_eq (hok : ∀ p ∈ ps, p.Placeable arch)
    (hind : ps.Pairwise fun p q => Independent p.mod.elf q.mod.elf)
    (hsame : ∀ p ∈ ps, SameImports (p.moved mc).1.elf env env') :
    ∃ l, installAll arch ps env' mc' = some (l,
        ps.foldl (fun e p => e.addAll (p.definitions mc)) env',
        ⟨(runAll (Pending.effectIn arch env mc) ps mc'.mem).2,
          ps.foldl (fun pt p => p.mapped pt) mc'.prot⟩) ∧
      l.map Installed.own = (ps.zip (runAll (Pending.effectIn arch env mc) ps mc'.mem).1).map
        fun x => ((x.1.linked env mc).mod, (x.1.linked env mc).imports, x.2) := by
  induction ps generalizing env' mc' with
  | nil => exact ⟨[], rfl, rfl⟩
  | cons p ps ih =>
    obtain ⟨hp, hps⟩ := List.forall_mem_cons.mp hok
    obtain ⟨hsp, hsps⟩ := List.forall_mem_cons.mp hsame
    obtain ⟨hip, hips⟩ := List.pairwise_cons.mp hind
    obtain ⟨hmod, himports⟩ := @Pending.linked_congr p env env' mc mc' hsp
    have henv : (p.linked env' mc').env = env'.addAll (p.definitions mc) := by
      rw [Pending.env_linked, p.moved_congr mc mc']
      rfl
    have hinstall : install arch p env' mc' = some ⟨(p.linked env mc).mod,
        env'.addAll (p.definitions mc),
        ⟨(p.effectIn arch env mc mc'.mem).2, p.mapped mc'.prot⟩, (p.linked env mc).imports,
        (p.effectIn arch env mc mc'.mem).1⟩ := by
      rw [install_eq hp.relas, hmod, himports, henv]
      rfl
    have hnext : ∀ q ∈ ps, SameImports (q.moved mc).1.elf env (env'.addAll (p.definitions mc)) := by
      intro q hq name hname
      have hkeep := @Pending.sameImports p env' mc' q (hip q hq)
      rw [q.moved_congr mc mc', henv] at hkeep
      exact (hkeep name hname).trans (hsps q hq name hname)
    obtain ⟨l, hl, hown⟩ := @ih (env'.addAll (p.definitions mc))
      ⟨(p.effectIn arch env mc mc'.mem).2, p.mapped mc'.prot⟩ hps hips hnext
    refine ⟨⟨(p.linked env mc).mod, env'.addAll (p.definitions mc),
      ⟨(p.effectIn arch env mc mc'.mem).2, p.mapped mc'.prot⟩, (p.linked env mc).imports,
      (p.effectIn arch env mc mc'.mem).1⟩ :: l, ?_, ?_⟩
    · unfold installAll
      rw [hinstall, Option.bind_some, hl]
      rfl
    · rw [List.map_cons, hown]
      rfl

/-- **Independent modules can be loaded in any order.** -/
theorem orderFree_of_independent (hok : ∀ p ∈ ps, p.Placeable arch)
    (hind : ps.Pairwise fun p q => Independent p.mod.elf q.mod.elf)
    (hdisj : ps.Pairwise fun p q => Disjoint p.mappings q.mappings) : OrderFree arch ps env mc := by
  have hlocal : ∀ {qs : List Pending}, qs.Perm ps → ∀ p ∈ qs,
      LocalTo p.mappings p.mappings (p.effectIn arch env mc) :=
    fun hperm p hp => (hok p (hperm.mem_iff.mp hp)).effect_local env mc
  have hindep : ∀ {qs : List Pending}, qs.Perm ps →
      qs.Pairwise (Indep Pending.mappings Pending.mappings) := fun hperm =>
    (hdisj.imp fun hd => Indep.mk hd hd hd).perm hperm.symm fun h => h.symm
  refine ⟨ps.foldl (fun e p => e.addAll (p.definitions mc)) env,
    ⟨(runAll (Pending.effectIn arch env mc) ps mc.mem).2,
      ps.foldl (fun pt p => p.mapped pt) mc.prot⟩, fun qs hperm => ?_⟩
  have hok' : ∀ p ∈ qs, p.Placeable arch := fun p hp => hok p (hperm.mem_iff.mp hp)
  obtain ⟨l, hl, hown⟩ := @installAll_eq arch qs env env mc mc hok'
    (hind.perm hperm.symm fun h => h.symm) fun _ _ _ _ => rfl
  have hsymm : Std.Symm fun p q : Pending => Independent p.mod.elf q.mod.elf :=
    ⟨fun _ _ h => h.symm⟩
  have henv : qs.foldl (fun e p => e.addAll (p.definitions mc)) env =
      ps.foldl (fun e p => e.addAll (p.definitions mc)) env := by
    refine hperm.foldl_eq' (fun p hp q hq e => ?_) env
    by_cases hpq : p = q
    · rw [hpq]
    · have hi := hind.forall (hperm.mem_iff.mp hp) (hperm.mem_iff.mp hq) hpq
      exact (hi.readdressed (p.readdressed_moved mc) (q.readdressed_moved mc)).addAll_comm e
  have hprot : qs.foldl (fun pt p => p.mapped pt) mc.prot =
      ps.foldl (fun pt p => p.mapped pt) mc.prot :=
    hperm.foldl_eq' (fun _ _ _ _ pt => setProt_comm pt _ _ _ _ _) mc.prot
  refine ⟨l, ?_, ?_⟩
  · rw [hl, henv, hprot, runAll_perm (hlocal hperm) (hindep hperm) hperm]
  · have halone : ∀ p ∈ qs, (install arch p env mc).map Installed.own =
        some ((p.linked env mc).mod, (p.linked env mc).imports,
          (p.effectIn arch env mc mc.mem).1) := by
      intro p hp
      rw [install_eq (hok' p hp).relas]
      rfl
    rw [runAll_results (hlocal hperm) (hindep hperm)] at hown
    have hzip := @List.zip_map' _ _ _ id (fun p : Pending => (p.effectIn arch env mc mc.mem).1) qs
    rw [List.map_id] at hzip
    rw [hzip, List.map_map] at hown
    have hsome := congrArg (List.map some) hown
    rw [List.map_map, List.map_map] at hsome
    exact hsome.trans (List.map_congr_left halone).symm

end All

/-- Three modules that import one symbol and define one each. -/
theorem orderFree_of_independent_callers : OrderFree .x86_64
    [callerPending "f" 0x100000000000 0x20000, callerPending "g" 0x200000000000 0x30000,
      callerPending "h" 0x300000000000 0x40000]
    (SysEnv.empty.addSymbol "host" 0x1000) ⟨fun _ => 0x55, fun _ => Prot.readWrite⟩ := by
  have hplace : ∀ {name : String} {file base : Addr},
      (callerPending name file base).InBounds .x86_64 → RelasFit (callerObject name) →
        (callerPending name file base).Placeable .x86_64 := by
    refine fun hb hr => ⟨hb, hr, fun i k r hrela => ?_⟩
    obtain ⟨rfl, -, rfl⟩ := relaAt_callerObject hrela
    exact Nat.le_refl 16
  refine orderFree_of_independent ?_ ?_ ?_
  · simp only [List.forall_mem_cons]
    refine ⟨hplace (.of_narrowFits ⟨?_, ?_⟩ ?_) ?_, hplace (.of_narrowFits ⟨?_, ?_⟩ ?_) ?_,
      hplace (.of_narrowFits ⟨?_, ?_⟩ ?_) ?_, by simp⟩
    all_goals decide +kernel
  · simp only [List.pairwise_cons, List.forall_mem_cons]
    refine ⟨⟨independent_callerObject ?_ ?_ ?_, independent_callerObject ?_ ?_ ?_, by simp⟩,
      ⟨independent_callerObject ?_ ?_ ?_, by simp⟩, by simp⟩
    all_goals decide
  · simp only [List.pairwise_cons, List.forall_mem_cons]
    refine ⟨⟨?_, ?_, by simp⟩, ⟨?_, by simp⟩, by simp⟩
    all_goals
      refine Set.disjoint_union_left.mpr ⟨Set.disjoint_union_right.mpr ⟨?_, ?_⟩,
        Set.disjoint_union_right.mpr ⟨?_, ?_⟩⟩
      all_goals exact disjoint_range (by decide +kernel) (by decide +kernel) (by decide +kernel)

end Umko

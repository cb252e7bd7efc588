import Umko.Lib.Deps
import Umko.Symbols.Independent
import Umko.Load.Halting
import Umko.Load.Linked

/-!
# The order of the objects

An import is found when its name is defined by the host, by an object before, or by its own object
before it. So the objects of a command line have an order in which all imports are found exactly
when no part of them waits for itself; objects that import from each other have none.
-/

namespace Umko

open Lib.Memory Lib.Deps

/-! ### What an object needs -/

/-- A name that an object imports, and does not define before that. -/
def Elfio.Needs (elf : Elfio) (name : String) : Prop :=
  ∃ i < elf.size, (elf.sec i).type = shtSymtab ∧ ∃ k < (elf.sec i).symbols.num.toNat, ∃ s,
    (elf.sec i).symbols.entry (BitVec.ofNat 64 k) = some s ∧ s.IsImport ∧ s.name = name ∧
      name ∉ (elf.allDefinitions i ++ definitionsBefore elf (elf.sec i).symbols k).map Prod.fst

section Names

variable {elf elf' : Elfio}

theorem lookup_eq_none_iff {l : List (String × Addr)} {name : String} :
    l.lookup name = none ↔ name ∉ l.map Prod.fst := by
  rw [List.lookup_eq_none_iff, List.mem_map]
  simp only [bne_iff_ne, not_exists, not_and]
  exact forall₂_congr fun _ _ => ⟨fun h h' => h h'.symm, fun h h' => h h'.symm⟩

end Names

/-! ### One load -/

section Load

variable {mod : Module} {env : SysEnv} {w : World} {mc : Machine}

end Load

/-! ### Runs -/

/-- The names that an action binds. -/
def Action.gives : Action → Set String
  | .registerFunc name _ => {name}
  | .loadModule mod w => {name | (mod.object w).Defines name}

/-- The names that it looks up in the environment. -/
def Action.needs : Action → Set String
  | .registerFunc .. => ∅
  | .loadModule mod w => {name | (mod.object w).Needs name}

def SysEnv.names (env : SysEnv) : Set String := {name | env.getSymbol name ≠ none}

section Run

variable {arch : Arch} {mc : Machine} {st : RunState} {a : Action} {as : List Action}

end Run

/-! ### Command lines -/

def World.object (blank : Elfio) (w : World) : Elfio := (Module.fresh blank).object w

def World.gives (blank : Elfio) (w : World) : Set String := {name | (w.object blank).Defines name}

def World.needs (blank : Elfio) (w : World) : Set String := {name | (w.object blank).Needs name}

section Session

variable {arch : Arch} {mc : Machine} {blank : Elfio} {host : List (String × Addr)}
  {ws : List World}

end Session

end Umko

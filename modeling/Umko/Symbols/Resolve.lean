import Umko.Symbols.Defs
import Umko.Lib.Loop

/-!
# What a symbol should hold, and what it holds

The address that is a symbol's own: that of its section, its value in its section, or the binding
of its name. The loop of `update_symbol_addr` gives every symbol it reads this address if there is
one; a symbol without one keeps its value, or gets the address of an earlier symbol.
-/

namespace Umko

open Lib.Memory Lib.Loop

/-! ### A symbol by itself -/

/-- An ordinary index of a section. -/
def Elfio.Valid (elf : Elfio) (ix : BitVec 16) : Prop :=
  ix ≠ shnUndef ∧ ix < shnLoreserve ∧ ix.toNat < elf.size

instance (elf : Elfio) (ix : BitVec 16) : Decidable (elf.Valid ix) :=
  inferInstanceAs (Decidable (_ ∧ _))

/-- The definition a symbol makes in the environment. -/
def definition (elf : Elfio) (s : Symbol) : Option (String × Addr) :=
  if s.type ≠ sttSection ∧ elf.Valid s.sectionIndex ∧ s.bind = stbGlobal then
    some (s.name, s.value + (elf.sec s.sectionIndex.toNat).address)
  else none

/-- An undefined symbol that is looked up in the environment. -/
def Symbol.IsImport (s : Symbol) : Prop :=
  s.type ≠ sttSection ∧ s.sectionIndex = shnUndef ∧ s.bind = stbGlobal

instance (s : Symbol) : Decidable s.IsImport := inferInstanceAs (Decidable (_ ∧ _))

/-- The address that is a symbol's own in the environment `env`, if there is one. -/
def ownAddress (elf : Elfio) (env : SysEnv) (s : Symbol) : Option Addr :=
  if elf.Valid s.sectionIndex then
    if s.type = sttSection then some (elf.sec s.sectionIndex.toNat).address
    else some (s.value + (elf.sec s.sectionIndex.toNat).address)
  else if s.IsImport then env.getSymbol s.name
  else none

/-- What a symbol should hold: its own address, else its old value. -/
def resolvedValue (elf : Elfio) (env : SysEnv) (s : Symbol) : Addr :=
  (ownAddress elf env s).getD s.value

/-- Symbols that are not in a section and not imported: absolute and common ones, and undefined
ones that are weak or local, the null symbol among them. -/
def Symbol.FallsThrough (s : Symbol) : Prop :=
  s.type ≠ sttSection ∧
    (shnLoreserve ≤ s.sectionIndex ∨ (s.sectionIndex = shnUndef ∧ s.bind ≠ stbGlobal))

instance (s : Symbol) : Decidable s.FallsThrough := inferInstanceAs (Decidable (_ ∧ _))

theorem Symbol.FallsThrough.not_valid {s : Symbol} (h : s.FallsThrough) (elf : Elfio) :
    ¬ elf.Valid s.sectionIndex := by
  rintro ⟨h0, h1, -⟩
  rcases h.2 with h2 | h2
  · exact absurd h1 (BitVec.not_lt.mpr h2)
  · exact h0 h2.1

theorem Symbol.FallsThrough.not_import {s : Symbol} (h : s.FallsThrough) : ¬ s.IsImport := by
  rintro ⟨-, h0, hb⟩
  rcases h.2 with h2 | h2
  · rw [h0] at h2
    exact absurd h2 (by decide)
  · exact h2.2 hb

theorem Symbol.FallsThrough.ownAddress_eq {s : Symbol} (h : s.FallsThrough) (elf : Elfio)
    (env : SysEnv) : ownAddress elf env s = none := by
  rw [ownAddress, if_neg (h.not_valid elf), if_neg h.not_import]

/-! ### One step of the loop -/

def importOf (env : SysEnv) (i : BitVec 32) (s : Symbol) : List Import :=
  if s.IsImport then [⟨i, s.name, env.getSymbol s.name⟩] else []

/-- The `Construct` that is recorded after a list of definitions: the last one. -/
def constructAfter (func : FuncAddr) (l : List (String × Addr)) : FuncAddr :=
  l.foldl (fun f p => if p.1 = "Construct" then ⟨p.2⟩ else f) func

theorem constructAfter_append (func : FuncAddr) (l l' : List (String × Addr)) :
    constructAfter func (l ++ l') = constructAfter (constructAfter func l) l' :=
  List.foldl_append ..

/-- The state of the loop after symbol `s` at `i`, but for the symbol itself. -/
def SymState.after (elf : Elfio) (st : SymState) (i : BitVec 32) (s : Symbol) : SymState :=
  { st with
    env := st.env.addAll (definition elf s).toList
    func := constructAfter st.func (definition elf s).toList
    newValue := (ownAddress elf st.env s).getD st.newValue
    imports := st.imports ++ importOf st.env i s }

theorem symbolStep_none {elf : Elfio} {st : SymState} {i : BitVec 32}
    (h : st.symbols.entry (i.setWidth 64) = none) : symbolStep elf st i = st := by
  unfold symbolStep SymbolTable.getSymbol
  rw [h]

section SymbolStep

variable {elf : Elfio} {st : SymState} {i : BitVec 32} {s : Symbol}

/-- A symbol that defines nothing, asks for nothing and has no address of its own. -/
theorem SymState.after_eq_self (hd : definition elf s = none) (hi : ¬ s.IsImport)
    (ho : ownAddress elf st.env s = none) : st.after elf i s = st := by
  simp [SymState.after, constructAfter, importOf, hd, hi, ho]

theorem symbolStep_section (h : st.symbols.entry (i.setWidth 64) = some s)
    (ht : s.type = sttSection) : symbolStep elf st i =
      if (ownAddress elf st.env s).isSome ∨ s.FallsThrough then (st.after elf i s).update i s
      else st.after elf i s := by
  have hd : definition elf s = none := if_neg fun h' => h'.1 ht
  have hi : ¬ s.IsImport := fun h' => h'.1 ht
  have hf : ¬ s.FallsThrough := fun h' => h'.1 ht
  unfold symbolStep SymbolTable.getSymbol
  rw [h]
  dsimp only
  rw [if_pos ht]
  by_cases hv : elf.Valid s.sectionIndex
  · have ho : ownAddress elf st.env s = some (elf.sec s.sectionIndex.toNat).address := by
      rw [ownAddress, if_pos hv, if_pos ht]
    have hx : ¬ (s.sectionIndex = shnUndef ∨ s.sectionIndex ≥ shnLoreserve ∨
        s.sectionIndex.toNat ≥ elf.size) := by
      rintro (h' | h' | h')
      · exact hv.1 h'
      · exact absurd hv.2.1 (BitVec.not_lt.mpr h')
      · exact absurd hv.2.2 (Nat.not_lt.mpr h')
    rw [if_neg hx, if_pos (.inl (by simp [ho]))]
    simp [SymState.after, constructAfter, importOf, hd, hi, ho]
  · have ho : ownAddress elf st.env s = none := by
      rw [ownAddress, if_neg hv, if_neg hi]
    rw [if_pos, if_neg (by simp [ho, hf]), SymState.after_eq_self hd hi ho]
    by_contra h'
    push Not at h'
    exact hv ⟨h'.1, by simpa using h'.2.1, by simpa using h'.2.2⟩

theorem symbolStep_valid (h : st.symbols.entry (i.setWidth 64) = some s)
    (ht : s.type ≠ sttSection) (hv : elf.Valid s.sectionIndex) : symbolStep elf st i =
      if (ownAddress elf st.env s).isSome ∨ s.FallsThrough then (st.after elf i s).update i s
      else st.after elf i s := by
  have hi : ¬ s.IsImport := fun h' => hv.1 h'.2.1
  have ho : ownAddress elf st.env s = some (s.value + (elf.sec s.sectionIndex.toNat).address) := by
    rw [ownAddress, if_pos hv, if_neg ht]
  have hw : (ownAddress elf st.env s).isSome ∨ s.FallsThrough := .inl (by simp [ho])
  unfold symbolStep SymbolTable.getSymbol
  rw [h]
  dsimp only
  rw [if_neg ht, if_pos ⟨hv.1, hv.2.1⟩, if_neg (Nat.not_le.mpr hv.2.2), if_pos hw]
  by_cases hb : s.bind = stbGlobal
  · have hd : definition elf s =
        some (s.name, s.value + (elf.sec s.sectionIndex.toNat).address) :=
      if_pos ⟨ht, hv, hb⟩
    rw [if_pos hb]
    simp [SymState.after, constructAfter, importOf, hd, hi, ho, SysEnv.addAll_singleton]
  · have hd : definition elf s = none := if_neg fun h' => hb h'.2.2
    rw [if_neg hb]
    simp [SymState.after, constructAfter, importOf, hd, hi, ho]

theorem symbolStep_not_valid (h : st.symbols.entry (i.setWidth 64) = some s)
    (ht : s.type ≠ sttSection) (hv : ¬ elf.Valid s.sectionIndex) : symbolStep elf st i =
      if (ownAddress elf st.env s).isSome ∨ s.FallsThrough then (st.after elf i s).update i s
      else st.after elf i s := by
  have hd : definition elf s = none := if_neg fun h' => hv h'.2.1
  unfold symbolStep SymbolTable.getSymbol
  rw [h]
  dsimp only
  rw [if_neg ht]
  by_cases hx : s.sectionIndex ≠ shnUndef ∧ s.sectionIndex < shnLoreserve
  · -- an index past the section table
    have hi : ¬ s.IsImport := fun h' => hx.1 h'.2.1
    have ho : ownAddress elf st.env s = none := by rw [ownAddress, if_neg hv, if_neg hi]
    have hf : ¬ s.FallsThrough := by
      rintro ⟨-, h' | h'⟩
      · exact absurd hx.2 (BitVec.not_lt.mpr h')
      · exact hx.1 h'.1
    rw [if_pos hx, if_pos (Nat.not_lt.mp fun h' => hv ⟨hx.1, hx.2, h'⟩),
      if_neg (by simp [ho, hf]), SymState.after_eq_self hd hi ho]
  · rw [if_neg hx]
    by_cases hi : s.sectionIndex = shnUndef ∧ s.bind = stbGlobal
    · have hi' : s.IsImport := ⟨ht, hi⟩
      have hf : ¬ s.FallsThrough := fun h' => h'.not_import hi'
      have ho : ownAddress elf st.env s = st.env.getSymbol s.name := by
        rw [ownAddress, if_neg hv, if_pos hi']
      rw [if_pos hi]
      cases hl : st.env.getSymbol s.name with
      | none => simp [SymState.after, constructAfter, importOf, hd, hi', ho, hl, hf]
      | some a => simp [SymState.after, constructAfter, importOf, hd, hi', ho, hl]
    · have hi' : ¬ s.IsImport := fun h' => hi h'.2
      have ho : ownAddress elf st.env s = none := by rw [ownAddress, if_neg hv, if_neg hi']
      have hf : s.FallsThrough := by
        refine ⟨ht, ?_⟩
        by_cases h0 : s.sectionIndex = shnUndef
        · exact .inr ⟨h0, fun hb => hi ⟨h0, hb⟩⟩
        · exact .inl (BitVec.not_lt.mp fun h' => hx ⟨h0, h'⟩)
      rw [if_neg hi, if_pos (.inr hf), SymState.after_eq_self hd hi' ho]

/-- **What a step does with a symbol**: it records what the symbol defines and asks for, and writes
`newValue` to the symbol when it has an address of its own, or falls through. -/
theorem symbolStep_some (h : st.symbols.entry (i.setWidth 64) = some s) : symbolStep elf st i =
    if (ownAddress elf st.env s).isSome ∨ s.FallsThrough then (st.after elf i s).update i s
    else st.after elf i s := by
  by_cases ht : s.type = sttSection
  · exact symbolStep_section h ht
  · by_cases hv : elf.Valid s.sectionIndex
    · exact symbolStep_valid h ht hv
    · exact symbolStep_not_valid h ht hv

end SymbolStep

theorem num_updateSymbol (t : SymbolTable) (i : BitVec 64) (value : Addr) (size : BitVec 64)
    (bind type : BitVec 8) (ix : BitVec 16) (other : BitVec 8) :
    (t.updateSymbol i value size bind type ix other).1.num = t.num := by
  unfold SymbolTable.updateSymbol
  split <;> rfl

theorem entry_update {st : SymState} {i : BitVec 32} {s : Symbol}
    (h : st.symbols.entry (i.setWidth 64) = some s) (j : BitVec 64) :
    (st.update i s).symbols.entry j =
      if j = i.setWidth 64 then some { s with value := st.newValue } else st.symbols.entry j := by
  unfold SymState.update SymbolTable.updateSymbol
  rw [h]

/-- **The entries after a step**: a symbol that falls through has what `newValue` held, any other one
has its own address, else its old value. -/
theorem entry_symbolStep {elf : Elfio} {st : SymState} {i : BitVec 32} {s : Symbol}
    (h : st.symbols.entry (i.setWidth 64) = some s) (j : BitVec 64) :
    (symbolStep elf st i).symbols.entry j = if j = i.setWidth 64
      then some { s with value :=
        if s.FallsThrough then st.newValue else resolvedValue elf st.env s }
      else st.symbols.entry j := by
  have hafter : (st.after elf i s).symbols.entry (i.setWidth 64) = some s := h
  rw [symbolStep_some h]
  by_cases hw : (ownAddress elf st.env s).isSome ∨ s.FallsThrough
  · have hval : (st.after elf i s).newValue =
        if s.FallsThrough then st.newValue else resolvedValue elf st.env s := by
      show (ownAddress elf st.env s).getD st.newValue = _
      by_cases hf : s.FallsThrough
      · rw [if_pos hf, hf.ownAddress_eq]
        rfl
      · obtain ⟨a, ha⟩ := Option.isSome_iff_exists.mp (hw.resolve_right hf)
        rw [if_neg hf, resolvedValue, ha]
        rfl
    rw [if_pos hw, entry_update hafter, hval]
    rfl
  · push Not at hw
    have hval : (if s.FallsThrough then st.newValue else resolvedValue elf st.env s) = s.value := by
      rw [if_neg hw.2, resolvedValue, Option.not_isSome_iff_eq_none.mp hw.1]
      rfl
    rw [if_neg (not_or.mpr hw), hval]
    by_cases hj : j = i.setWidth 64
    · subst hj
      rw [if_pos rfl]
      exact h
    · rw [if_neg hj]
      rfl

theorem symbolStep_rest {elf : Elfio} {st : SymState} {i : BitVec 32} {s : Symbol}
    (h : st.symbols.entry (i.setWidth 64) = some s) :
    (symbolStep elf st i).symbols.num = st.symbols.num ∧
      { symbolStep elf st i with symbols := st.symbols } = st.after elf i s := by
  rw [symbolStep_some h]
  split
  · exact ⟨num_updateSymbol .., rfl⟩
  · exact ⟨rfl, rfl⟩

/-! ### The tables and the environment along the loop -/

section Along

variable (elf : Elfio) (t : SymbolTable) (func : FuncAddr) (env : SysEnv) (newValue : Addr)

/-- The definitions that the symbols below `k` make, in order. -/
def definitionsBefore (k : ℕ) : List (String × Addr) :=
  (List.range k).filterMap fun j => (t.entry (BitVec.ofNat 64 j)).bind (definition elf)

/-- The environment when symbol `k` is read. -/
def envBefore (k : ℕ) : SysEnv := env.addAll (definitionsBefore elf t k)

/-- The address of the closest symbol below `k` that has one of its own, or `newValue`. -/
def lastAddress (k : ℕ) : Addr :=
  ((List.range k).reverse.findSome? fun j =>
    (t.entry (BitVec.ofNat 64 j)).bind (ownAddress elf (envBefore elf t env j))).getD newValue

/-- The lookups of the symbols below `k`. -/
def importsBefore (k : ℕ) : List Import :=
  (List.range k).flatMap fun j => match t.entry (BitVec.ofNat 64 j) with
    | some s => importOf (envBefore elf t env j) (BitVec.ofNat 32 j) s
    | none => []

theorem definitionsBefore_succ (k : ℕ) : definitionsBefore elf t (k + 1) =
    definitionsBefore elf t k ++ ((t.entry (BitVec.ofNat 64 k)).bind (definition elf)).toList := by
  rw [definitionsBefore, definitionsBefore, List.range_succ, List.filterMap_append]
  rfl

theorem envBefore_succ (k : ℕ) : envBefore elf t env (k + 1) = (envBefore elf t env k).addAll
    ((t.entry (BitVec.ofNat 64 k)).bind (definition elf)).toList := by
  rw [envBefore, envBefore, ← SysEnv.addAll_append, definitionsBefore_succ]

theorem lastAddress_succ (k : ℕ) : lastAddress elf t env newValue (k + 1) =
    ((t.entry (BitVec.ofNat 64 k)).bind (ownAddress elf (envBefore elf t env k))).getD
      (lastAddress elf t env newValue k) := by
  unfold lastAddress
  rw [List.range_succ, List.reverse_append, List.reverse_singleton, List.singleton_append,
    List.findSome?_cons]
  cases (t.entry (BitVec.ofNat 64 k)).bind (ownAddress elf (envBefore elf t env k)) <;> simp

theorem importsBefore_succ (k : ℕ) : importsBefore elf t env (k + 1) =
    importsBefore elf t env k ++ match t.entry (BitVec.ofNat 64 k) with
      | some s => importOf (envBefore elf t env k) (BitVec.ofNat 32 k) s
      | none => [] := by
  rw [importsBefore, importsBefore, List.range_succ, List.flatMap_append, List.flatMap_singleton]

/-- What the loop writes to symbol `s` at `k`. -/
def writtenValue (k : ℕ) (s : Symbol) : Addr :=
  if s.FallsThrough then lastAddress elf t env newValue k
  else resolvedValue elf (envBefore elf t env k) s

/-- **The state of the loop before symbol `k`.** -/
structure Linked (k : ℕ) (st : SymState) : Prop where
  num : st.symbols.num = t.num
  entry : ∀ j : BitVec 64, st.symbols.entry j = if j.toNat < k
    then (t.entry j).map fun s => { s with value := writtenValue elf t env newValue j.toNat s }
    else t.entry j
  func_eq : st.func = constructAfter func (definitionsBefore elf t k)
  env_eq : st.env = envBefore elf t env k
  newValue_eq : st.newValue = lastAddress elf t env newValue k
  imports_eq : st.imports = importsBefore elf t env k

end Along

section Run

variable {elf : Elfio} {t : SymbolTable} {func : FuncAddr} {env : SysEnv} {newValue : Addr}

theorem symbolStep_linked {k : ℕ} {st : SymState} (hk : k < 2 ^ 32)
    (h : Linked elf t func env newValue k st) :
    Linked elf t func env newValue (k + 1) (symbolStep elf st (BitVec.ofNat 32 k)) := by
  have hi : (BitVec.ofNat 32 k).setWidth 64 = BitVec.ofNat 64 k := by
    apply BitVec.eq_of_toNat_eq
    simp only [BitVec.toNat_setWidth, BitVec.toNat_ofNat]
    omega
  have hik : (BitVec.ofNat 64 k).toNat = k := by
    rw [BitVec.toNat_ofNat, Nat.mod_eq_of_lt (by omega)]
  have hentry : st.symbols.entry (BitVec.ofNat 64 k) = t.entry (BitVec.ofNat 64 k) := by
    rw [h.entry, hik, if_neg (Nat.lt_irrefl k)]
  have hlt : ∀ j : BitVec 64, j ≠ BitVec.ofNat 64 k → (j.toNat < k + 1 ↔ j.toNat < k) := by
    intro j hj
    have : j.toNat ≠ k := fun h' => hj (BitVec.eq_of_toNat_eq (h'.trans hik.symm))
    omega
  cases hs : t.entry (BitVec.ofNat 64 k) with
  | none =>
    rw [symbolStep_none (by rw [hi, hentry, hs])]
    refine ⟨h.num, fun j => ?_, ?_, ?_, ?_, ?_⟩
    · by_cases hj : j = BitVec.ofNat 64 k
      · subst hj
        rw [hentry, hs]
        simp
      · simp only [h.entry, hlt j hj]
    · rw [definitionsBefore_succ, hs]
      simpa using h.func_eq
    · rw [envBefore_succ, hs]
      simpa using h.env_eq
    · rw [lastAddress_succ, hs]
      exact h.newValue_eq
    · rw [importsBefore_succ, hs]
      simpa using h.imports_eq
  | some s =>
    have hs' : st.symbols.entry ((BitVec.ofNat 32 k).setWidth 64) = some s := by
      rw [hi, hentry, hs]
    obtain ⟨hnum, hrest⟩ := @symbolStep_rest elf st _ s hs'
    refine ⟨hnum.trans h.num, fun j => ?_, (congrArg SymState.func hrest).trans ?_,
      (congrArg SymState.env hrest).trans ?_, (congrArg SymState.newValue hrest).trans ?_,
      (congrArg SymState.imports hrest).trans ?_⟩
    · rw [entry_symbolStep hs', hi]
      by_cases hj : j = BitVec.ofNat 64 k
      · subst hj
        rw [if_pos rfl, hik, if_pos (Nat.lt_succ_self k), hs, h.env_eq, h.newValue_eq]
        rfl
      · simp only [if_neg hj, h.entry, hlt j hj]
    · rw [definitionsBefore_succ, constructAfter_append, hs, ← h.func_eq]
      rfl
    · rw [envBefore_succ, hs, ← h.env_eq]
      rfl
    · rw [lastAddress_succ, hs, ← h.env_eq, ← h.newValue_eq]
      rfl
    · rw [importsBefore_succ, hs, ← h.env_eq, ← h.imports_eq]
      rfl

/-- **The loop of `update_symbol_addr`**: it ends after the low 32 bits of the number of symbols. -/
theorem updateSymbolAddr_linked (func : FuncAddr) : Linked elf t func env newValue
    (t.num.setWidth 32).toNat (updateSymbolAddr elf func env t newValue) := by
  refine foldl_range_inv (Linked elf t func env newValue) _ ?_ fun k hk st hst => ?_
  · exact ⟨rfl, fun j => by simp, rfl, rfl, rfl, rfl⟩
  · exact symbolStep_linked (Nat.lt_trans hk (BitVec.isLt _)) hst

end Run

/-! ### Resolution by the symbol alone -/

/-- Every symbol of the table ends up with its own address, else its old value, and is the same
otherwise. -/
def ResolvesBySymbol (elf : Elfio) (func : FuncAddr) (env : SysEnv) (t : SymbolTable)
    (newValue : Addr) : Prop :=
  ∀ i < t.num, (updateSymbolAddr elf func env t newValue).symbols.entry i =
    (t.entry i).map fun s =>
      { s with value := resolvedValue elf (envBefore elf t env i.toNat) s }

/-- The tables on which the two defects do not show. A symbol in reach of the 32-bit counter that
falls through holds by chance the address that `newValue` is left with, the own address of the
closest earlier symbol with one; a symbol out of its reach holds what it should already. -/
def NoLeak (elf : Elfio) (env : SysEnv) (t : SymbolTable) (newValue : Addr) : Prop :=
  ∀ i < t.num, ∀ s, t.entry i = some s →
    if i.toNat < t.num.toNat % 2 ^ 32
    then s.FallsThrough → lastAddress elf t env newValue i.toNat = s.value
    else resolvedValue elf (envBefore elf t env i.toNat) s = s.value

theorem resolvedValue_of_fallsThrough {elf : Elfio} {env : SysEnv} {s : Symbol}
    (h : s.FallsThrough) : resolvedValue elf env s = s.value := by
  rw [resolvedValue, h.ownAddress_eq]
  rfl

/-- **When symbols are resolved by themselves**: exactly when `NoLeak` holds. -/
theorem resolvesBySymbol_iff (elf : Elfio) (func : FuncAddr) (env : SysEnv) (t : SymbolTable)
    (newValue : Addr) :
    ResolvesBySymbol elf func env t newValue ↔ NoLeak elf env t newValue := by
  have hl := @updateSymbolAddr_linked elf t env newValue func
  have hnum : (t.num.setWidth 32).toNat = t.num.toNat % 2 ^ 32 := by rw [BitVec.toNat_setWidth]
  refine forall₂_congr fun i _ => ?_
  rw [hl.entry, hnum]
  cases hs : t.entry i with
  | none => simp
  | some s =>
    have hval : ∀ a b : Addr, some { s with value := a } = some { s with value := b } ↔ a = b :=
      fun a b => ⟨fun h => congrArg Symbol.value (Option.some.inj h), fun h => by rw [h]⟩
    by_cases hi : i.toNat < t.num.toNat % 2 ^ 32
    · simp only [if_pos hi, Option.map_some, Option.some.injEq, forall_eq']
      rw [← Option.some.injEq, hval]
      unfold writtenValue
      by_cases hf : s.FallsThrough
      · simp [hf, resolvedValue_of_fallsThrough]
      · simp [hf]
    · simp only [if_neg hi, Option.map_some, Option.some.injEq, forall_eq']
      rw [← Option.some.injEq]
      exact (hval _ _).trans eq_comm

/-- A global function at `4` in section 1, and an absolute symbol of value `0x1234`. -/
def sampleSymbols : SymbolTable :=
  sampleTable 3 [⟨"f", 4, 0, 1, 2, 1, 0⟩, ⟨"abs", 0x1234, 0, 0, 0, 0xfff1, 0⟩]

/-- The absolute symbol receives the address of the symbol before it. -/
theorem absolute_symbol_not_kept :
    ¬ ResolvesBySymbol (sampleElf.setAddress 1 0x20000) ⟨0⟩ SysEnv.empty sampleSymbols 0 := by
  intro h
  have h2 := congrArg (Option.map Symbol.value) (h 2 (by decide))
  revert h2
  decide

end Umko

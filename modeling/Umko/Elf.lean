import Umko.Lib.Memory

/-!
# The object file, as ELFIO delivers it

The loader sees an object through ELFIO: the section table, and for a section the accessors that
read it as a symbol table or as a table of RELA entries. ELFIO itself is not in the repository, so
what its accessors read is arbitrary here: a count and, for every index, an entry or a failure.
`update_symbol` writes the entry at its index.

Only what the loader reads is kept. The names of sections are printed and nothing else.
-/

namespace Umko

open Lib.Memory

/-! ### Constants of the ELF format -/

def shtSymtab : BitVec 32 := 2
def shtRela : BitVec 32 := 4
def shtNobits : BitVec 32 := 8
def shtInitArray : BitVec 32 := 14

def shfWrite : BitVec 32 := 0x1
def shfAlloc : BitVec 32 := 0x2
def shfExecinstr : BitVec 32 := 0x4
/-- The flag of the Linux kernel's `elf.h`, whose layout pass the loader follows. -/
def shfRoAfterInit : BitVec 32 := 0x00200000

def sttSection : BitVec 8 := 3
def stbGlobal : BitVec 8 := 1

def shnUndef : BitVec 16 := 0
def shnLoreserve : BitVec 16 := 0xff00

/-! ### Symbols -/

/-- What `get_symbol` reads of an entry. -/
structure Symbol where
  name : String
  value : Addr
  size : BitVec 64
  bind : BitVec 8
  type : BitVec 8
  sectionIndex : BitVec 16
  other : BitVec 8
  deriving DecidableEq

/-- A section read by `symbol_section_accessor`: `get_symbols_num()`, and the entry at an index,
`none` where `get_symbol` returns false. -/
structure SymbolTable where
  num : BitVec 64
  entry : BitVec 64 → Option Symbol

def SymbolTable.getSymbol (t : SymbolTable) (i : BitVec 64) : Option Symbol := t.entry i

/-- `update_symbol(i, value, size, bind, type, section_index, other)`: the entry at `i` with these
fields, its name kept; false where there is no entry. -/
def SymbolTable.updateSymbol (t : SymbolTable) (i : BitVec 64) (value : Addr) (size : BitVec 64)
    (bind type : BitVec 8) (sectionIndex : BitVec 16) (other : BitVec 8) : SymbolTable × Bool :=
  match t.entry i with
  | none => (t, false)
  | some s =>
    ({ t with entry := fun j =>
        if j = i then some ⟨s.name, value, size, bind, type, sectionIndex, other⟩ else t.entry j },
      true)

/-! ### RELA entries -/

/-- What `get_entry` reads of a RELA entry. -/
structure Rela where
  offset : BitVec 64
  symbol : BitVec 32
  type : BitVec 32
  addend : BitVec 64
  deriving DecidableEq

/-- A section read by `const_relocation_section_accessor`: `get_entries_num()`, and the entry at an
index, `none` where `get_entry` returns false. -/
structure RelaTable where
  num : BitVec 64
  entry : BitVec 64 → Option Rela

def RelaTable.getEntry (t : RelaTable) (i : BitVec 64) : Option Rela := t.entry i

/-! ### Sections -/

/-- A section header, and the section's contents as the two accessors read them. -/
structure Section where
  type : BitVec 32
  flags : BitVec 64
  address : Addr
  offset : BitVec 64
  size : BitVec 64
  info : BitVec 32
  addrAlign : BitVec 64
  entrySize : BitVec 64
  symbols : SymbolTable
  relas : RelaTable

instance : Inhabited Section :=
  ⟨⟨0, 0, 0, 0, 0, 0, 0, 0, ⟨0, fun _ => none⟩, ⟨0, fun _ => none⟩⟩⟩

/-- `sh_flag & f`, for a flag `f`. -/
def Section.has (s : Section) (f : BitVec 32) : Bool := s.flags &&& f.setWidth 64 != 0

/-- `sh_flag & SHF_ALLOC`. -/
def Section.alloc (s : Section) : Bool := s.has shfAlloc

theorem Section.alloc_eq_false {s : Section} (h : s.flags = 0) : s.alloc = false := by
  simp [Section.alloc, Section.has, h]

/-- The section table. `sections.size()` is an `Elf_Half`, and so is the count in the header that
`load` reads: 32-bit counters that run over the table do not wrap. -/
structure Elfio where
  sections : List Section
  size_lt : sections.length < 2 ^ 16

namespace Elfio

variable (e : Elfio)

/-- `sections.size()` -/
def size : ℕ := e.sections.length

/-- `sections[i]` -/
def sec (i : ℕ) : Section := e.sections.getD i default

/-- A section table with the section `i` changed. -/
def modify (i : ℕ) (f : Section → Section) : Elfio :=
  ⟨e.sections.modify i f, by simpa using e.size_lt⟩

/-- A section table with every section changed. -/
def map (f : Section → Section) : Elfio := ⟨e.sections.map f, by simpa using e.size_lt⟩

/-- `sections[i]->set_address(a)` -/
def setAddress (i : ℕ) (a : Addr) : Elfio := e.modify i fun s => { s with address := a }

/-- The section `i` after `update_symbol` calls on it. -/
def setSymbols (i : ℕ) (t : SymbolTable) : Elfio := e.modify i fun s => { s with symbols := t }

variable {e}

theorem sec_of_size_le {i : ℕ} (h : e.size ≤ i) : e.sec i = default := by
  have h' : e.sections.length ≤ i := h
  simp [sec, List.getElem?_eq_none h']

theorem ext_sec {e e' : Elfio} (hsize : e.size = e'.size) (h : ∀ i, e.sec i = e'.sec i) :
    e = e' := by
  obtain ⟨l, hl⟩ := e
  obtain ⟨l', hl'⟩ := e'
  have hll : l = l' := by
    refine List.ext_getElem hsize fun i hi hi' => ?_
    simpa [sec, hi, hi'] using h i
  subst hll
  rfl

theorem sec_modify (f : Section → Section) {i : ℕ} (hi : i < e.size) (j : ℕ) :
    (e.modify i f).sec j = if j = i then f (e.sec i) else e.sec j := by
  have hi' : i < e.sections.length := hi
  simp only [sec, modify, List.getD_eq_getElem?_getD, List.getElem?_modify]
  by_cases h : j = i
  · subst h
    simp [List.getElem?_eq_getElem hi']
  · simp [h, Ne.symm h]

theorem sec_map (f : Section → Section) {i : ℕ} (hi : i < e.size) :
    (e.map f).sec i = f (e.sec i) := by
  have hi' : i < e.sections.length := hi
  simp [sec, map, List.getElem?_eq_getElem hi']

@[simp] theorem size_modify (i : ℕ) (f : Section → Section) : (e.modify i f).size = e.size := by
  simp [size, modify]

@[simp] theorem size_map (f : Section → Section) : (e.map f).size = e.size := by
  simp [size, map]

@[simp] theorem size_setAddress (i : ℕ) (a : Addr) : (e.setAddress i a).size = e.size :=
  size_modify i _

@[simp] theorem size_setSymbols (i : ℕ) (t : SymbolTable) : (e.setSymbols i t).size = e.size :=
  size_modify i _

theorem sec_setAddress {i : ℕ} (hi : i < e.size) (a : Addr) (j : ℕ) : (e.setAddress i a).sec j =
    if j = i then { e.sec i with address := a } else e.sec j := sec_modify _ hi j

theorem sec_setSymbols {i : ℕ} (hi : i < e.size) (t : SymbolTable) (j : ℕ) :
    (e.setSymbols i t).sec j = if j = i then { e.sec i with symbols := t } else e.sec j :=
  sec_modify _ hi j

/-- A section table that differs in the addresses of the sections only. -/
structure Readdressed (e e' : Elfio) : Prop where
  size : e'.size = e.size
  sec : ∀ i < e.size, ∃ a, e'.sec i = { e.sec i with address := a }

theorem Readdressed.refl (e : Elfio) : Readdressed e e := ⟨rfl, fun i _ => ⟨(e.sec i).address, rfl⟩⟩

theorem Readdressed.trans {e e' e'' : Elfio} (h : Readdressed e e') (h' : Readdressed e' e'') :
    Readdressed e e'' := by
  refine ⟨h'.size.trans h.size, fun i hi => ?_⟩
  obtain ⟨a, ha⟩ := h.sec i hi
  obtain ⟨a', ha'⟩ := h'.sec i (by rw [h.size]; exact hi)
  exact ⟨a', by rw [ha', ha]⟩

theorem Readdressed.exists_sec {e e' : Elfio} (h : Readdressed e e') (i : ℕ) :
    ∃ a, e'.sec i = { e.sec i with address := a } := by
  rcases Nat.lt_or_ge i e.size with hi | hi
  · exact h.sec i hi
  · refine ⟨(e.sec i).address, ?_⟩
    rw [sec_of_size_le hi, sec_of_size_le (by rw [h.size]; exact hi)]

/-- A section table that differs in the addresses and in the symbols of the sections only. -/
structure Relinked (e e' : Elfio) : Prop where
  size : e'.size = e.size
  sec : ∀ i, ∃ a t, e'.sec i = { e.sec i with address := a, symbols := t }

theorem Readdressed.relinked {e e' : Elfio} (h : Readdressed e e') : Relinked e e' := by
  refine ⟨h.size, fun i => ?_⟩
  obtain ⟨a, ha⟩ := h.exists_sec i
  exact ⟨a, (e.sec i).symbols, ha⟩

theorem Relinked.trans {e e' e'' : Elfio} (h : Relinked e e') (h' : Relinked e' e'') :
    Relinked e e'' := by
  refine ⟨h'.size.trans h.size, fun i => ?_⟩
  obtain ⟨a, t, ht⟩ := h.sec i
  obtain ⟨a', t', ht'⟩ := h'.sec i
  exact ⟨a', t', by rw [ht', ht]⟩

end Elfio

/-! ### Samples -/

/-- Symbol `0` of every table. -/
def Symbol.null : Symbol := ⟨"", 0, 0, 0, 0, 0, 0⟩

/-- A table of `num` symbols: the null symbol, those of the list, and null symbols after them. -/
def sampleTable (num : BitVec 64) (l : List Symbol) : SymbolTable :=
  ⟨num, fun i => if i < num then some ((Symbol.null :: l).getD i.toNat Symbol.null) else none⟩

/-- An object with a code section, writable data, zeroed data and read-only data. -/
def sampleElf : Elfio := ⟨[default,
  { (default : Section) with type := 1, flags := 6, offset := 0x40, size := 6, addrAlign := 16 },
  { (default : Section) with type := 1, flags := 3, offset := 0x48, size := 8, addrAlign := 8 },
  { (default : Section) with type := 8, flags := 3, offset := 0x50, size := 4, addrAlign := 0 },
  { (default : Section) with type := 1, flags := 2, offset := 0x50, size := 5, addrAlign := 3 }],
  by decide⟩

end Umko

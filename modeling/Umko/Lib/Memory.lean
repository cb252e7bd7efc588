import Mathlib

/-!
# Byte-addressed memory

A memory of `2 ^ 64` bytes. Ranges of addresses go around the end of the address space, as pointer
arithmetic does. Little-endian loads and stores of 16, 32 and 64 bits, and the block write that
they, `memset` and `memcpy` are cases of.
-/

namespace Lib.Memory

open Set

abbrev Addr := BitVec 64
abbrev Byte := BitVec 8
abbrev Mem := Addr → Byte

/-! ### Ranges of addresses -/

/-- The `n` addresses from `a` on. -/
def range (a : Addr) (n : ℕ) : Set Addr := {x | (x - a).toNat < n}

theorem mem_range {a x : Addr} {n : ℕ} : x ∈ range a n ↔ (x - a).toNat < n := Iff.rfl

instance (a x : Addr) (n : ℕ) : Decidable (x ∈ range a n) := inferInstanceAs (Decidable (_ < n))

@[simp] theorem range_zero (a : Addr) : range a 0 = ∅ := by
  ext x; simp [range]

theorem range_mono {a : Addr} {n n' : ℕ} (h : n ≤ n') : range a n ⊆ range a n' :=
  fun _ hx => Nat.lt_of_lt_of_le hx h

theorem add_ofNat_sub (a : Addr) {k : ℕ} (hk : k < 2 ^ 64) :
    (a + BitVec.ofNat 64 k - a).toNat = k := by
  rw [BitVec.add_comm, BitVec.add_sub_cancel, BitVec.toNat_ofNat, Nat.mod_eq_of_lt hk]

theorem add_ofNat_mem_range {a : Addr} {k n : ℕ} (hk : k < 2 ^ 64) :
    a + BitVec.ofNat 64 k ∈ range a n ↔ k < n := by
  rw [mem_range, add_ofNat_sub a hk]

theorem range_subset {a k : Addr} {w n : ℕ} (h : k.toNat + w ≤ n) :
    range (a + k) w ⊆ range a n := by
  intro x hx
  rw [mem_range] at hx ⊢
  have e : x - a = (x - (a + k)) + k := by
    rw [← BitVec.sub_sub, BitVec.sub_add_cancel]
  rw [e, BitVec.toNat_add]
  have := Nat.mod_le ((x - (a + k)).toNat + k.toNat) (2 ^ 64)
  omega

theorem sub_mem_of_mem_range {a k x : Addr} {v : ℕ} (hk : k.toNat + v ≤ 2 ^ 64)
    (hx : x ∈ range (a + k) v) : k.toNat ≤ (x - a).toNat ∧ (x - a).toNat < k.toNat + v := by
  rw [mem_range] at hx
  have e : x - a = (x - (a + k)) + k := by
    rw [← BitVec.sub_sub, BitVec.sub_add_cancel]
  rw [e, BitVec.toNat_add, Nat.mod_eq_of_lt (by omega)]
  omega

theorem disjoint_range_add {a j k : Addr} {w v : ℕ} (hj : j.toNat + w ≤ 2 ^ 64)
    (hk : k.toNat + v ≤ 2 ^ 64) (h : j.toNat + w ≤ k.toNat ∨ k.toNat + v ≤ j.toNat) :
    Disjoint (range (a + j) w) (range (a + k) v) := by
  rw [Set.disjoint_left]
  intro x hx hx'
  have h1 := sub_mem_of_mem_range hj hx
  have h2 := sub_mem_of_mem_range hk hx'
  omega

theorem disjoint_range {a b : Addr} {w v : ℕ} (ha : a.toNat + w ≤ 2 ^ 64)
    (hb : b.toNat + v ≤ 2 ^ 64) (h : a.toNat + w ≤ b.toNat ∨ b.toNat + v ≤ a.toNat) :
    Disjoint (range a w) (range b v) := by
  have hd := @disjoint_range_add 0 a b w v ha hb h
  rwa [zero_add, zero_add] at hd

theorem add_mem_range_add {a δ x : Addr} {n : ℕ} : x + δ ∈ range (a + δ) n ↔ x ∈ range a n := by
  rw [mem_range, mem_range, show x + δ - (a + δ) = x - a by ring]

/-! ### Block writes -/

/-- The memory after the `n` bytes `f 0, …, f (n - 1)` are written from `a` on. -/
def writeBytes (m : Mem) (a : Addr) (n : ℕ) (f : ℕ → Byte) : Mem :=
  fun x => if (x - a).toNat < n then f (x - a).toNat else m x

/-- `memset(a, c, n)`. -/
def memset (m : Mem) (a : Addr) (c : Byte) (n : ℕ) : Mem := writeBytes m a n fun _ => c

/-- `memcpy(dest, src, n)`. -/
def memcpy (m : Mem) (dest src : Addr) (n : ℕ) : Mem :=
  writeBytes m dest n fun k => m (src + BitVec.ofNat 64 k)

section Write

variable {m : Mem} {a x : Addr} {n : ℕ} {f : ℕ → Byte}

theorem writeBytes_of_mem (h : x ∈ range a n) : writeBytes m a n f x = f (x - a).toNat :=
  if_pos h

theorem writeBytes_of_notMem (h : x ∉ range a n) : writeBytes m a n f x = m x := if_neg h

theorem writeBytes_add {k : ℕ} (hk : k < n) (hn : k < 2 ^ 64) :
    writeBytes m a n f (a + BitVec.ofNat 64 k) = f k := by
  rw [writeBytes_of_mem ((add_ofNat_mem_range hn).mpr hk), add_ofNat_sub a hn]

theorem writeBytes_writeBytes {g : ℕ → Byte} :
    writeBytes (writeBytes m a n f) a n g = writeBytes m a n g := by
  funext x
  by_cases h : x ∈ range a n
  · rw [writeBytes_of_mem h, writeBytes_of_mem h]
  · rw [writeBytes_of_notMem h, writeBytes_of_notMem h, writeBytes_of_notMem h]

theorem memset_of_mem {c : Byte} (h : x ∈ range a n) : memset m a c n x = c := writeBytes_of_mem h

theorem memset_of_notMem {c : Byte} (h : x ∉ range a n) : memset m a c n x = m x :=
  writeBytes_of_notMem h

theorem memcpy_of_mem {src : Addr} (h : x ∈ range a n) :
    memcpy m a src n x = m (src + (x - a)) := by
  unfold memcpy
  rw [writeBytes_of_mem h, BitVec.ofNat_toNat, BitVec.setWidth_eq]

theorem memcpy_of_notMem {src : Addr} (h : x ∉ range a n) : memcpy m a src n x = m x :=
  writeBytes_of_notMem h

end Write

/-! ### Loads and stores -/

/-- The little-endian word of `w` bits at `a`: its bit `i` is bit `i % 8` of the byte `i / 8`. -/
def load (w : ℕ) (m : Mem) (a : Addr) : BitVec w :=
  BitVec.ofFnLE fun i : Fin w => (m (a + BitVec.ofNat 64 (i / 8))).getLsbD (i % 8)

/-- The byte `k` of a word, the least significant one first. -/
def byteOf {w : ℕ} (v : BitVec w) (k : ℕ) : Byte := v.extractLsb' (8 * k) 8

/-- The little-endian store of a word of `w` bits, `w` a multiple of `8`. -/
def store {w : ℕ} (m : Mem) (a : Addr) (v : BitVec w) : Mem := writeBytes m a (w / 8) (byteOf v)

section LoadStore

variable {m m' : Mem} {a x : Addr} {w : ℕ}

theorem getLsbD_load {i : ℕ} (h : i < w) :
    (load w m a).getLsbD i = (m (a + BitVec.ofNat 64 (i / 8))).getLsbD (i % 8) := by
  rw [BitVec.getLsbD_eq_getElem h, load, BitVec.getElem_ofFnLE]

theorem getLsbD_byteOf (v : BitVec w) {k i : ℕ} (h : i < 8) :
    (byteOf v k).getLsbD i = v.getLsbD (8 * k + i) := by
  simp [byteOf, h]

theorem store_of_notMem {v : BitVec w} (h : x ∉ range a (w / 8)) : store m a v x = m x :=
  writeBytes_of_notMem h

theorem store_of_mem {v : BitVec w} (h : x ∈ range a (w / 8)) :
    store m a v x = byteOf v (x - a).toNat := writeBytes_of_mem h

theorem store_store (v v' : BitVec w) : store (store m a v) a v' = store m a v' :=
  writeBytes_writeBytes

theorem load_store (v : BitVec w) (h8 : 8 ∣ w) (hw : w < 2 ^ 64) : load w (store m a v) a = v := by
  obtain ⟨n, rfl⟩ := h8
  apply BitVec.eq_of_getLsbD_eq
  intro i hi
  unfold store
  rw [getLsbD_load hi, writeBytes_add (by omega) (by omega), getLsbD_byteOf v (by omega),
    Nat.div_add_mod]

theorem load_congr (hw : w < 2 ^ 64) (h8 : 8 ∣ w) (h : EqOn m m' (range a (w / 8))) :
    load w m a = load w m' a := by
  obtain ⟨n, rfl⟩ := h8
  apply BitVec.eq_of_getLsbD_eq
  intro i hi
  rw [getLsbD_load hi, getLsbD_load hi]
  congr 1
  exact h ((add_ofNat_mem_range (by omega)).mpr (by omega))

theorem load_zero (w : ℕ) (a : Addr) : load w (fun _ => 0) a = 0 := by
  apply BitVec.eq_of_getLsbD_eq
  intro i hi
  rw [getLsbD_load hi]
  simp

theorem load_shift {a' : Addr}
    (h : ∀ k < (w + 7) / 8, m (a + BitVec.ofNat 64 k) = m' (a' + BitVec.ofNat 64 k)) :
    load w m a = load w m' a' := by
  apply BitVec.eq_of_getLsbD_eq
  intro i hi
  rw [getLsbD_load hi, getLsbD_load hi, h (i / 8) (by omega)]

end LoadStore

end Lib.Memory

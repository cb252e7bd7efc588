import Umko.Lib.Memory
import Umko.Lib.Local

/-!
# Read-modify-write of a word

A patch reads the word at an address and, by what it finds, gives a result and the word to write
back, if any. It touches the bytes of its word and nothing else.
-/

namespace Lib.Patch

open Set Lib.Memory Lib.Local

variable {ρ : Type*} {w : ℕ}

/-- Patch the word of `w` bits at `a` by `f`. -/
def patchWord (a : Addr) (f : BitVec w → ρ × Option (BitVec w)) (m : Mem) : ρ × Mem :=
  ((f (load w m a)).1, match (f (load w m a)).2 with
    | none => m
    | some v => store m a v)

section PatchWord

variable {a : Addr} {f : BitVec w → ρ × Option (BitVec w)} {m m' : Mem}

theorem patchWord_of_notMem {x : Addr} (hx : x ∉ range a (w / 8)) :
    (patchWord a f m).2 x = m x := by
  unfold patchWord
  cases (f (load w m a)).2 with
  | none => rfl
  | some v => exact store_of_notMem hx

/-- **A patch is local to its word.** -/
theorem patchWord_local (h8 : 8 ∣ w) (hw : w < 2 ^ 64) :
    LocalTo (range a (w / 8)) (range a (w / 8)) (patchWord a f) where
  frame _ _ hx := patchWord_of_notMem hx
  result m m' h := by
    unfold patchWord
    rw [load_congr hw h8 h]
  written m m' h x hx := by
    unfold patchWord
    rw [load_congr hw h8 h]
    cases (f (load w m' a)).2 with
    | none => exact h hx
    | some v => exact (store_of_mem hx).trans (store_of_mem hx).symm

end PatchWord

/-! ### Block writes -/

theorem memset_local (a : Addr) (c : Byte) (n : ℕ) :
    LocalTo (range a n) (range a n) fun m => ((), memset m a c n) where
  frame _ _ hx := memset_of_notMem hx
  result _ _ _ := rfl
  written _ _ _ _ hx := (memset_of_mem hx).trans (memset_of_mem hx).symm

theorem memcpy_local (dest src : Addr) (n : ℕ) :
    LocalTo (range src n) (range dest n) fun m => ((), memcpy m dest src n) where
  frame _ _ hx := memcpy_of_notMem hx
  result _ _ _ := rfl
  written m m' he x hx := by
    have hsrc : src + (x - dest) ∈ range src n := by
      rw [Memory.mem_range, BitVec.add_comm, BitVec.add_sub_cancel]
      exact hx
    exact (memcpy_of_mem hx).trans ((he hsrc).trans (memcpy_of_mem hx).symm)

/-! ### Functions that are patches -/

/-- A function of the memory that patches the `w` bits at `a`. -/
def IsPatch (a : Addr) (w : ℕ) (g : Mem → ρ × Mem) : Prop :=
  ∃ f : BitVec w → ρ × Option (BitVec w), ∀ m, g m = patchWord a f m

theorem IsPatch.isLocal {a : Addr} {g : Mem → ρ × Mem} (h : IsPatch a w g) (h8 : 8 ∣ w)
    (hw : w < 2 ^ 64) : LocalTo (range a (w / 8)) (range a (w / 8)) g := by
  obtain ⟨f, hf⟩ := h
  rw [show g = patchWord a f from funext hf]
  exact patchWord_local h8 hw

/-- Functions of the memory that patch the `w` bits at `a` and at `a'` in the same way. -/
def SamePatch (a a' : Addr) (w : ℕ) (g g' : Mem → ρ × Mem) : Prop :=
  ∃ f : BitVec w → ρ × Option (BitVec w), (∀ m, g m = patchWord a f m) ∧
    ∀ m, g' m = patchWord a' f m

theorem SamePatch.left {a a' : Addr} {g g' : Mem → ρ × Mem} (h : SamePatch a a' w g g') :
    IsPatch a w g := by
  obtain ⟨f, hf, -⟩ := h
  exact ⟨f, hf⟩

/-- **Equal patches of equal words** give the same result and the same word. -/
theorem SamePatch.agree {a δ : Addr} {g g' : Mem → ρ × Mem} (h : SamePatch a (a + δ) w g g')
    (h8 : 8 ∣ w) (hw : w < 2 ^ 64) {m m' : Mem} (hm : ∀ x ∈ range a (w / 8), m x = m' (x + δ)) :
    (g m).1 = (g' m').1 ∧ ∀ x ∈ range a (w / 8), (g m).2 x = (g' m').2 (x + δ) := by
  obtain ⟨f, hf, hf'⟩ := h
  have hload : load w m a = load w m' (a + δ) := by
    refine load_shift fun k hk => ?_
    rw [hm _ ((add_ofNat_mem_range (by omega)).mpr (by omega)), add_right_comm]
  rw [hf, hf']
  unfold patchWord
  rw [← hload]
  refine ⟨rfl, fun x hx => ?_⟩
  cases (f (load w m a)).2 with
  | none => exact hm x hx
  | some v =>
    show store m a v x = store m' (a + δ) v (x + δ)
    rw [store_of_mem hx, store_of_mem (add_mem_range_add.mpr hx),
      show x + δ - (a + δ) = x - a by ring]

end Lib.Patch

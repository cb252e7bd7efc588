import Mathlib

/-!
# Counting loops with a narrow counter

`for (uint32_t i = 0; i < n; i++)` where the bound `n` has 64 bits: below `2 ^ 32` the loop is a
fold over `0 … n - 1`, from `2 ^ 32` on the counter wraps before the test fails and the loop never
ends. Also the invariant rules for a fold over a range, and for one that may stop early.
-/

namespace Lib.Loop

variable {σ : Type*}

/-! ### Folds over a range -/

/-- **The invariant rule of a counting loop.** -/
theorem foldl_range_inv {f : σ → ℕ → σ} {s : σ} (P : ℕ → σ → Prop) (n : ℕ) (h0 : P 0 s)
    (hs : ∀ i < n, ∀ t, P i t → P (i + 1) (f t i)) : P n ((List.range n).foldl f s) := by
  induction n with
  | zero => simpa using h0
  | succ n ih =>
    rw [List.range_succ, List.foldl_append]
    exact hs n (Nat.lt_succ_self n) _ (ih fun i hi => hs i (Nat.lt_succ_of_lt hi))

/-- The state of a computation that stops, by itself or by an error. -/
def lastState : Except σ σ → σ
  | .ok s => s
  | .error s => s

/-- **The invariant rule of a loop that may stop early**: what every round keeps holds of the state
in which the loop stops, in whatever way it does. -/
theorem foldlM_lastState_inv {α : Type*} {f : σ → α → Except σ σ} (P : σ → Prop)
    (hf : ∀ s a, P s → P (lastState (f s a))) (l : List α) {s : σ} (hs : P s) :
    P (lastState (l.foldlM f s)) := by
  induction l generalizing s with
  | nil => exact hs
  | cons a l ih =>
    have ha := hf s a hs
    rw [List.foldlM_cons]
    cases hfa : f s a with
    | error t =>
      rw [hfa] at ha
      exact ha
    | ok t =>
      rw [hfa] at ha
      exact ih ha

theorem map_perm_range {n : ℕ} (τ : Equiv.Perm ℕ) (h : ∀ k < n, τ k < n) :
    ((List.range n).map τ).Perm (List.range n) := by
  have himage : (Finset.range n).image τ = Finset.range n := by
    refine Finset.eq_of_subset_of_card_le (fun x hx => ?_) ?_
    · obtain ⟨k, hk, rfl⟩ := Finset.mem_image.mp hx
      exact Finset.mem_range.mpr (h k (Finset.mem_range.mp hk))
    · rw [Finset.card_image_of_injective _ τ.injective]
  refine (List.perm_ext_iff_of_nodup (List.nodup_range.map τ.injective) List.nodup_range).mpr ?_
  intro a
  have ha := Finset.ext_iff.mp himage a
  simpa using ha

/-! ### The loop -/

/-- The loop from the counter `i` on, for at most `fuel` iterations: `none` if it has not ended by
then. -/
def iterate (n : BitVec 64) (body : BitVec 32 → σ → σ) : ℕ → BitVec 32 → σ → Option σ
  | 0, i, s => if i.setWidth 64 < n then none else some s
  | fuel + 1, i, s => if i.setWidth 64 < n then iterate n body fuel (i + 1) (body i s) else some s

/-- `for (uint32_t i = 0; i < n; i++) s = body(i, s)`: the state after the loop, `none` if it never
ends (`iterate_eq_none`). -/
def forU32 (n : BitVec 64) (body : BitVec 32 → σ → σ) (s : σ) : Option σ :=
  iterate n body (2 ^ 32) 0 s

variable {n : BitVec 64} {body : BitVec 32 → σ → σ}

theorem counter_lt {k : ℕ} (hn : n.toNat < 2 ^ 32) (hk : k ≤ n.toNat) :
    (BitVec.ofNat 32 k).setWidth 64 < n ↔ k < n.toNat := by
  rw [BitVec.lt_def, BitVec.toNat_setWidth, BitVec.toNat_ofNat, Nat.mod_eq_of_lt (by omega),
    Nat.mod_eq_of_lt (by omega)]

/-- From the counter `k` on, the loop with a bound below `2 ^ 32` folds over the rest of the
range. -/
theorem iterate_eq_some (hn : n.toNat < 2 ^ 32) : ∀ (d fuel k : ℕ) (s : σ), k + d = n.toNat →
    d ≤ fuel → iterate n body fuel (BitVec.ofNat 32 k) s =
      some ((List.range' k d).foldl (fun t i => body (BitVec.ofNat 32 i) t) s) := by
  intro d
  induction d with
  | zero =>
    intro fuel k s hk _
    have hlt : ¬ (BitVec.ofNat 32 k).setWidth 64 < n := by
      rw [counter_lt hn (by omega)]; omega
    cases fuel <;> simp [iterate, hlt]
  | succ d ih =>
    intro fuel k s hk hf
    obtain ⟨fuel, rfl⟩ : ∃ f, fuel = f + 1 := ⟨fuel - 1, by omega⟩
    have hlt : (BitVec.ofNat 32 k).setWidth 64 < n := by
      rw [counter_lt hn (by omega)]; omega
    have hstep : BitVec.ofNat 32 k + 1 = BitVec.ofNat 32 (k + 1) := by
      rw [BitVec.ofNat_add]; rfl
    rw [iterate, if_pos hlt, hstep, ih fuel (k + 1) _ (by omega) (by omega), List.range'_succ,
      List.foldl_cons]

/-- **A bound below `2 ^ 32`**: the loop visits `0 … n - 1` in order and ends. -/
theorem forU32_eq_some (hn : n.toNat < 2 ^ 32) (s : σ) : forU32 n body s =
    some ((List.range n.toNat).foldl (fun t i => body (BitVec.ofNat 32 i) t) s) := by
  unfold forU32
  rw [show (0 : BitVec 32) = BitVec.ofNat 32 0 from rfl,
    iterate_eq_some hn n.toNat (2 ^ 32) 0 s (by omega) (by omega), List.range_eq_range']

/-- **A bound from `2 ^ 32` on**: every value of the counter passes the test. -/
theorem iterate_eq_none (hn : 2 ^ 32 ≤ n.toNat) : ∀ (fuel : ℕ) (i : BitVec 32) (s : σ),
    iterate n body fuel i s = none := by
  intro fuel
  have hlt : ∀ i : BitVec 32, i.setWidth 64 < n := by
    intro i
    rw [BitVec.lt_def, BitVec.toNat_setWidth]
    have := i.isLt
    omega
  induction fuel with
  | zero => intro i s; simp [iterate, hlt]
  | succ fuel ih => intro i s; rw [iterate, if_pos (hlt i), ih]

theorem forU32_eq_none (hn : 2 ^ 32 ≤ n.toNat) (s : σ) : forU32 n body s = none :=
  iterate_eq_none hn _ _ _

/-! ### The states in between -/

/-- The state after `k` iterations from the counter `i` on, or when the loop ends before. -/
def rounds (n : BitVec 64) (body : BitVec 32 → σ → σ) : ℕ → BitVec 32 → σ → σ
  | 0, _, s => s
  | k + 1, i, s => if i.setWidth 64 < n then rounds n body k (i + 1) (body i s) else s

/-- **The invariant rule of the states in between.** -/
theorem rounds_inv {P : σ → Prop} (h : ∀ i s, i.setWidth 64 < n → P s → P (body i s)) (k : ℕ) :
    ∀ (i : BitVec 32) (s : σ), P s → P (rounds n body k i s) := by
  induction k with
  | zero => exact fun _ _ hs => hs
  | succ k ih =>
    intro i s hs
    rw [rounds]
    split
    · exact ih _ _ (h i s ‹_› hs)
    · exact hs

theorem rounds_eq_of_iterate {s' : σ} (k : ℕ) : ∀ (i : BitVec 32) (s : σ),
    iterate n body k i s = some s' → rounds n body k i s = s' := by
  induction k with
  | zero =>
    intro i s h
    rw [iterate] at h
    split at h
    · cases h
    · exact Option.some.inj h
  | succ k ih =>
    intro i s h
    rw [iterate] at h
    rw [rounds]
    split at h
    · rw [if_pos ‹_›]
      exact ih _ _ h
    · rw [if_neg ‹_›]
      exact Option.some.inj h

/-! ### The values of the counter -/

/-- The body with a log of the values of the counter it is run at. -/
def logged (body : BitVec 32 → σ → σ) (i : BitVec 32) (p : σ × List (BitVec 32)) :
    σ × List (BitVec 32) :=
  (body i p.1, p.2 ++ [i])

theorem iterate_logged_fst (fuel : ℕ) (i : BitVec 32) (p : σ × List (BitVec 32)) :
    (iterate n (logged body) fuel i p).map (·.1) = iterate n body fuel i p.1 := by
  induction fuel generalizing i p with
  | zero =>
    unfold iterate
    split <;> rfl
  | succ fuel ih =>
    unfold iterate
    split
    · exact ih _ _
    · rfl

theorem forU32_logged_fst (s : σ) (l : List (BitVec 32)) :
    (forU32 n (logged body) (s, l)).map (·.1) = forU32 n body s := iterate_logged_fst _ _ _

theorem foldl_logged (l : List ℕ) (p : σ × List (BitVec 32)) :
    l.foldl (fun t i => logged body (BitVec.ofNat 32 i) t) p =
      (l.foldl (fun t i => body (BitVec.ofNat 32 i) t) p.1,
        p.2 ++ l.map (BitVec.ofNat 32)) := by
  induction l generalizing p with
  | nil => simp
  | cons i l ih =>
    rw [List.foldl_cons, ih, List.foldl_cons, List.map_cons]
    simp [logged]

end Lib.Loop

import Mathlib

/-!
# Placement by a running total

Requests with an alignment and a size are placed one after another: each at the running total
rounded up to its alignment, the total moving to its end. The extents so placed are in order,
disjoint, aligned, and within the totals before and after.
-/

namespace Lib.Bump

/-! ### Rounding up -/

/-- The least multiple of `a` from `x` on. -/
def alignUp (x a : ℕ) : ℕ := if x % a = 0 then x else (x / a + 1) * a

variable {x a : ℕ}

theorem le_alignUp (ha : 0 < a) : x ≤ alignUp x a := by
  unfold alignUp
  split
  · exact le_rfl
  · have h1 := Nat.div_add_mod x a
    have h2 := Nat.mod_lt x ha
    rw [Nat.add_mul, Nat.one_mul, Nat.mul_comm]
    omega

theorem dvd_alignUp : a ∣ alignUp x a := by
  unfold alignUp
  split
  · exact Nat.dvd_of_mod_eq_zero ‹_›
  · exact Nat.dvd_mul_left a _

theorem alignUp_zero : alignUp 0 a = 0 := by simp [alignUp]

theorem align_le_alignUp (ha : 0 < a) (hx : 0 < x) : a ≤ alignUp x a :=
  Nat.le_of_dvd (Nat.lt_of_lt_of_le hx (le_alignUp ha)) dvd_alignUp

/-! ### Placement -/

/-- A request: what is placed, its alignment and its size. -/
structure Req (κ : Type*) where
  key : κ
  align : ℕ
  size : ℕ

variable {κ : Type*}

def finish (t : ℕ) (r : Req κ) : ℕ := alignUp t r.align + r.size

def total (t : ℕ) (l : List (Req κ)) : ℕ := l.foldl finish t

def offsets (t : ℕ) : List (Req κ) → List (Req κ × ℕ)
  | [] => []
  | r :: l => (r, alignUp t r.align) :: offsets (finish t r) l

/-- The totals a placement runs through. -/
def totals (t : ℕ) : List (Req κ) → List ℕ
  | [] => []
  | r :: l => finish t r :: totals (finish t r) l

@[simp] theorem total_nil (t : ℕ) : total t ([] : List (Req κ)) = t := rfl

@[simp] theorem total_cons (t : ℕ) (r : Req κ) (l : List (Req κ)) :
    total t (r :: l) = total (finish t r) l := rfl

theorem total_append (t : ℕ) (l l' : List (Req κ)) :
    total t (l ++ l') = total (total t l) l' := List.foldl_append ..

theorem offsets_append (t : ℕ) (l l' : List (Req κ)) :
    offsets t (l ++ l') = offsets t l ++ offsets (total t l) l' := by
  induction l generalizing t with
  | nil => rfl
  | cons r l ih => simp [offsets, ih]

theorem map_fst_offsets (t : ℕ) (l : List (Req κ)) : (offsets t l).map (·.1) = l := by
  induction l generalizing t with
  | nil => rfl
  | cons r l ih => simp [offsets, ih]

/-- The requests of a list have alignments to divide by. -/
def Aligned (l : List (Req κ)) : Prop := ∀ r ∈ l, 0 < r.align

theorem le_finish {t : ℕ} {r : Req κ} (h : 0 < r.align) : t ≤ finish t r :=
  Nat.le_trans (le_alignUp h) (Nat.le_add_right ..)

theorem le_total {t : ℕ} {l : List (Req κ)} (h : Aligned l) : t ≤ total t l := by
  induction l generalizing t with
  | nil => exact le_rfl
  | cons r l ih =>
    exact Nat.le_trans (le_finish (h r (.head _))) (ih fun r' hr' => h r' (.tail _ hr'))

theorem total_of_empty {l : List (Req κ)} (h : ∀ r ∈ l, r.size = 0) :
    total 0 l = 0 ∧ ∀ t ∈ totals 0 l, t = 0 := by
  induction l with
  | nil => simp [totals]
  | cons r l ih =>
    have hr : finish 0 r = 0 := by rw [finish, alignUp_zero, h r (.head _)]
    obtain ⟨h1, h2⟩ := ih fun r' hr' => h r' (.tail _ hr')
    simp only [total_cons, totals, hr, List.mem_cons]
    refine ⟨h1, ?_⟩
    rintro t (rfl | ht)
    · rfl
    · exact h2 t ht

/-- Every offset and every size of a placement is below `b`. -/
def Below (b : ℕ) (l : List (Req κ)) : Prop := ∀ p ∈ offsets 0 l, p.2 < b ∧ p.1.size < b

theorem Below.left {b : ℕ} {l l' : List (Req κ)} (h : Below b (l ++ l')) : Below b l := by
  intro p hp
  refine h p ?_
  rw [offsets_append]
  exact List.mem_append_left _ hp

theorem below_append_singleton {b : ℕ} {l : List (Req κ)} {r : Req κ} :
    Below b (l ++ [r]) ↔ Below b l ∧ alignUp (total 0 l) r.align < b ∧ r.size < b := by
  constructor
  · intro h
    refine ⟨h.left, h (r, alignUp (total 0 l) r.align) ?_⟩
    simp [offsets_append, offsets]
  · rintro ⟨h, hr⟩ p hp
    rw [offsets_append, List.mem_append] at hp
    rcases hp with hp | hp
    · exact h p hp
    · rw [List.mem_singleton.mp hp]
      exact hr

theorem below_of_totals {b : ℕ} {l : List (Req κ)} (h : ∀ s ∈ totals 0 l, s < b) : Below b l := by
  have key : ∀ (l : List (Req κ)) (t : ℕ), (∀ s ∈ totals t l, s < b) →
      ∀ p ∈ offsets t l, p.2 + p.1.size < b := by
    intro l
    induction l with
    | nil =>
      intro t _ p hp
      cases hp
    | cons r l ih =>
      intro t h p hp
      rcases List.mem_cons.mp hp with rfl | hp
      · exact h _ (.head _)
      · exact ih _ (fun s hs => h s (.tail _ hs)) p hp
  intro p hp
  have := key l 0 h p hp
  omega

/-- **Every extent is aligned and lies between the first total and the last.** -/
theorem offsets_spec {t : ℕ} {l : List (Req κ)} (h : Aligned l) {p : Req κ × ℕ}
    (hp : p ∈ offsets t l) : t ≤ p.2 ∧ p.2 + p.1.size ≤ total t l ∧ p.1.align ∣ p.2 := by
  induction l generalizing t with
  | nil => cases hp
  | cons r l ih =>
    have hl : Aligned l := fun r' hr' => h r' (.tail _ hr')
    have hr : 0 < r.align := h r (.head _)
    rcases List.mem_cons.mp hp with rfl | hp
    · exact ⟨le_alignUp hr, le_total (t := finish t r) hl, dvd_alignUp⟩
    · obtain ⟨h1, h2, h3⟩ := ih hl hp
      exact ⟨Nat.le_trans (le_finish hr) h1, h2, h3⟩

/-- **The extents do not meet**: of any two of them one ends before the other one starts. -/
theorem offsets_separate {t : ℕ} {l : List (Req κ)} (h : Aligned l) {p q : Req κ × ℕ}
    (hp : p ∈ offsets t l) (hq : q ∈ offsets t l) (hne : p ≠ q) :
    p.2 + p.1.size ≤ q.2 ∨ q.2 + q.1.size ≤ p.2 := by
  induction l generalizing t with
  | nil => cases hp
  | cons r l ih =>
    have hl : Aligned l := fun r' hr' => h r' (.tail _ hr')
    rcases List.mem_cons.mp hp with rfl | hp <;> rcases List.mem_cons.mp hq with rfl | hq
    · exact absurd rfl hne
    · exact .inl (offsets_spec hl hq).1
    · exact .inr (offsets_spec hl hp).1
    · exact ih hl hp hq

/-! ### How much room a placement takes -/

theorem alignUp_le (ha : 0 < a) : alignUp x a ≤ x + (a - 1) := by
  unfold alignUp
  split
  · omega
  · rename_i h
    have h1 := Nat.div_add_mod x a
    have h2 := Nat.pos_of_ne_zero h
    rw [Nat.add_mul, Nat.one_mul, Nat.mul_comm]
    omega

def sizes (l : List (Req κ)) : ℕ := (l.map (·.size)).sum

/-- What the rounding can add at most. -/
def slack (l : List (Req κ)) : ℕ := (l.map fun r => r.align - 1).sum

/-- **A placement is packed**: the total is at least the sizes, and at most the sizes and the
slack. -/
theorem total_mem {t : ℕ} {l : List (Req κ)} (h : Aligned l) :
    t + sizes l ≤ total t l ∧ total t l ≤ t + (sizes l + slack l) := by
  induction l generalizing t with
  | nil => simp [sizes, slack]
  | cons r l ih =>
    have hr : 0 < r.align := h r (.head _)
    obtain ⟨h1, h2⟩ := @ih (finish t r) fun r' hr' => h r' (.tail _ hr')
    have hlo := @le_alignUp t r.align hr
    have hhi := @alignUp_le t r.align hr
    simp only [total_cons, sizes, slack, List.map_cons, List.sum_cons] at h1 h2 ⊢
    unfold finish at h1 h2 ⊢
    omega

theorem le_total_of_mem_totals {t s : ℕ} {l : List (Req κ)} (h : Aligned l) (hs : s ∈ totals t l) :
    s ≤ total t l := by
  induction l generalizing t with
  | nil => cases hs
  | cons r l ih =>
    have hl : Aligned l := fun r' hr' => h r' (.tail _ hr')
    rcases List.mem_cons.mp hs with rfl | hs
    · exact le_total hl
    · exact ih hl hs

end Lib.Bump

import Mathlib.Data.List.Perm.Subperm
import Mathlib.Data.Set.Lattice

/-!
# Orders in which needs are met

Things that each give something and need something, put one behind another so that each has what it
needs when its turn comes. Whether there is such an order is a question about sets, not about
orders: no part of the things may wait for itself. And it does not matter how an order is begun.
-/

namespace Lib.Deps

variable {ι κ : Type*} (gives needs : ι → Set κ)

/-- What there is at first, and what some things give. -/
def given (base : Set κ) (l : List ι) : Set κ := base ∪ {k | ∃ x ∈ l, k ∈ gives x}

/-- However the things are split, one of the second part needs only what the first part gives. -/
def Unblocked (base : Set κ) (l : List ι) : Prop :=
  ∀ s t, (s ++ t).Perm l → t ≠ [] → ∃ x ∈ t, needs x ⊆ given gives base s

section Given

variable {gives needs} {base u : Set κ} {l s t : List ι} {x : ι}

@[simp] theorem given_nil (base : Set κ) : given gives base [] = base := by
  simp [given]

theorem given_cons : given gives base (x :: l) = given gives (base ∪ gives x) l := by
  ext k
  simp [given, or_assoc]

theorem given_append : given gives base (s ++ t) = given gives (given gives base s) t := by
  induction s generalizing base with
  | nil => rw [given_nil, List.nil_append]
  | cons x s ih => rw [List.cons_append, given_cons, ih, given_cons]

theorem Unblocked.perm (h : Unblocked gives needs base l) (hperm : s.Perm l) :
    Unblocked gives needs base s :=
  fun s' t hst => h s' t (hst.trans hperm)

theorem Unblocked.rest (h : Unblocked gives needs base (s ++ t)) :
    Unblocked gives needs (given gives base s) t := by
  intro s' t' hperm hne
  rw [← given_append]
  refine h (s ++ s') t' ?_ hne
  rw [List.append_assoc]
  exact hperm.append_left s

end Given

end Lib.Deps

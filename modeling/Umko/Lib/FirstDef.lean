import Mathlib

/-!
# Maps in which the first definition wins

A map filled by `emplace`, which binds a new key and leaves a bound one alone. After a list of
definitions every key has its earliest one.
-/

namespace Lib.FirstDef

variable {κ ν : Type*} [DecidableEq κ]

/-- Bind `k` to `v` unless it is bound. -/
def emplace (m : κ → Option ν) (k : κ) (v : ν) : κ → Option ν :=
  fun j => if j = k then (m k).or (some v) else m j

def emplaceAll (m : κ → Option ν) (l : List (κ × ν)) : κ → Option ν :=
  l.foldl (fun m p => emplace m p.1 p.2) m

@[simp] theorem emplaceAll_nil (m : κ → Option ν) : emplaceAll m [] = m := rfl

@[simp] theorem emplaceAll_cons (m : κ → Option ν) (p : κ × ν) (l : List (κ × ν)) :
    emplaceAll m (p :: l) = emplaceAll (emplace m p.1 p.2) l := rfl

theorem emplaceAll_append (m : κ → Option ν) (l l' : List (κ × ν)) :
    emplaceAll m (l ++ l') = emplaceAll (emplaceAll m l) l' := List.foldl_append ..

theorem emplace_apply (m : κ → Option ν) (k : κ) (v : ν) (j : κ) :
    emplace m k v j = (m j).or (List.lookup j [(k, v)]) := by
  unfold emplace
  by_cases h : j = k
  · subst h; simp [List.lookup]
  · have hb : (j == k) = false := beq_eq_false_iff_ne.mpr h
    simp [List.lookup, h, hb]

/-- **The earliest definition wins**: what was bound before, else the first definition in the
list. -/
theorem emplaceAll_apply (m : κ → Option ν) (l : List (κ × ν)) (k : κ) :
    emplaceAll m l k = (m k).or (l.lookup k) := by
  induction l generalizing m with
  | nil => simp
  | cons p l ih =>
    rw [emplaceAll_cons, ih, emplace_apply, Option.or_assoc]
    congr 1
    simp only [List.lookup]
    split <;> simp [*]

/-- **Definitions of different keys commute.** -/
theorem emplaceAll_comm (m : κ → Option ν) {l l' : List (κ × ν)}
    (h : ∀ k, l.lookup k = none ∨ l'.lookup k = none) :
    emplaceAll (emplaceAll m l) l' = emplaceAll (emplaceAll m l') l := by
  funext k
  rw [emplaceAll_apply, emplaceAll_apply, emplaceAll_apply, emplaceAll_apply]
  rcases h k with hk | hk
  · rw [hk, Option.or_none, Option.or_none]
  · rw [hk, Option.or_none, Option.or_none]

end Lib.FirstDef

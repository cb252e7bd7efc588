import Mathlib

/-!
# Local updates of a store

An update of a store `α → β` with a result in `ρ` is *local* to a read set `R` and a write set `W`
if it changes nothing outside `W` and if its result and what it writes depend on `R` alone. Running
a list of local updates no two of which touch what the other writes is the same as applying all of
them to the initial store at once, so their order does not matter.
-/

namespace Lib.Local

open Set

variable {α β ρ ι : Type*}

/-- `f` writes in `W` only, and its result and what it writes are a function of the store on
`R`. -/
structure LocalTo (R W : Set α) (f : (α → β) → ρ × (α → β)) : Prop where
  frame : ∀ m, ∀ x ∉ W, (f m).2 x = m x
  result : ∀ m m', EqOn m m' R → (f m).1 = (f m').1
  written : ∀ m m', EqOn m m' R → EqOn (f m).2 (f m').2 W

theorem LocalTo.mono {R R' W W' : Set α} {f : (α → β) → ρ × (α → β)} (h : LocalTo R W f)
    (hR : R ⊆ R') (hWR : W' ⊆ R') (hW : W ⊆ W') : LocalTo R' W' f where
  frame m x hx := h.frame m x fun hw => hx (hW hw)
  result m m' he := h.result m m' (he.mono hR)
  written m m' he x hx := by
    by_cases hw : x ∈ W
    · exact h.written m m' (he.mono hR) hw
    · rw [h.frame m x hw, h.frame m' x hw]
      exact he (hWR hx)

/-- The updates of a list, one after another: their results and the last store. -/
def runAll (f : ι → (α → β) → ρ × (α → β)) : List ι → (α → β) → List ρ × (α → β)
  | [], m => ([], m)
  | e :: l, m => ((f e m).1 :: (runAll f l (f e m).2).1, (runAll f l (f e m).2).2)

@[simp] theorem runAll_nil (f : ι → (α → β) → ρ × (α → β)) (m : α → β) :
    runAll f [] m = ([], m) := rfl

@[simp] theorem runAll_cons (f : ι → (α → β) → ρ × (α → β)) (e : ι) (l : List ι) (m : α → β) :
    runAll f (e :: l) m =
      ((f e m).1 :: (runAll f l (f e m).2).1, (runAll f l (f e m).2).2) := rfl

theorem runAll_map {ι' : Type*} (f : ι → (α → β) → ρ × (α → β)) (g : ι' → ι) (l : List ι')
    (m : α → β) : runAll f (l.map g) m = runAll (fun e => f (g e)) l m := by
  induction l generalizing m with
  | nil => rfl
  | cons e l ih => simp [ih]

/-- Neither of two updates touches what the other one writes. -/
structure Indep (R W : ι → Set α) (e e' : ι) : Prop where
  writes : Disjoint (W e) (W e')
  left : Disjoint (W e) (R e')
  right : Disjoint (R e) (W e')

theorem Indep.symm {R W : ι → Set α} {e e' : ι} (h : Indep R W e e') : Indep R W e' e :=
  ⟨h.writes.symm, h.right.symm, h.left.symm⟩

section Simultaneous

variable {f : ι → (α → β) → ρ × (α → β)} {R W : ι → Set α}

theorem runAll_frame {l : List ι} (hl : ∀ e ∈ l, LocalTo (R e) (W e) (f e)) (m : α → β) {x : α}
    (hx : ∀ e ∈ l, x ∉ W e) : (runAll f l m).2 x = m x := by
  induction l generalizing m with
  | nil => rfl
  | cons e l ih =>
    rw [runAll_cons, ih (fun e' he' => hl e' (.tail _ he')) _ fun e' he' => hx e' (.tail _ he')]
    exact (hl e (.head _)).frame m x (hx e (.head _))

theorem LocalTo.eqOn_of_disjoint {R W S : Set α} {g : (α → β) → ρ × (α → β)}
    (h : LocalTo R W g) (m : α → β) (hS : Disjoint W S) : EqOn (g m).2 m S :=
  fun x hx => h.frame m x (Set.disjoint_right.mp hS hx)

/-- **The results** of independent updates are those on the initial store. -/
theorem runAll_results {l : List ι} (hl : ∀ e ∈ l, LocalTo (R e) (W e) (f e))
    (hd : l.Pairwise (Indep R W)) (m : α → β) :
    (runAll f l m).1 = l.map fun e => (f e m).1 := by
  induction l generalizing m with
  | nil => rfl
  | cons e l ih =>
    obtain ⟨he, hd⟩ := List.pairwise_cons.mp hd
    have hl' : ∀ e' ∈ l, LocalTo (R e') (W e') (f e') := fun e' he' => hl e' (.tail _ he')
    rw [runAll_cons, ih hl' hd, List.map_cons]
    refine congrArg (_ :: ·) (List.map_congr_left fun e' he' => (hl' e' he').result _ _ ?_)
    exact (hl e (.head _)).eqOn_of_disjoint m (he e' he').left

/-- **The store** after independent updates: on what an update writes, what it alone writes to the
initial store. -/
theorem runAll_written {l : List ι} (hl : ∀ e ∈ l, LocalTo (R e) (W e) (f e))
    (hd : l.Pairwise (Indep R W)) (m : α → β) {e : ι} (he : e ∈ l) {x : α} (hx : x ∈ W e) :
    (runAll f l m).2 x = (f e m).2 x := by
  induction l generalizing m with
  | nil => cases he
  | cons a l ih =>
    obtain ⟨ha, hd⟩ := List.pairwise_cons.mp hd
    have hl' : ∀ e' ∈ l, LocalTo (R e') (W e') (f e') := fun e' he' => hl e' (.tail _ he')
    rw [runAll_cons]
    rcases List.mem_cons.mp he with rfl | he
    · exact runAll_frame hl' _ fun e' he' => Set.disjoint_left.mp (ha e' he').writes hx
    · rw [ih hl' hd _ he]
      exact (hl' e he).written _ _
        ((hl a (.head _)).eqOn_of_disjoint m (ha e he).left) hx

/-- **Order does not matter**: permuted independent updates give the same store. -/
theorem runAll_perm {l l' : List ι} (hl : ∀ e ∈ l, LocalTo (R e) (W e) (f e))
    (hd : l.Pairwise (Indep R W)) (hp : l.Perm l') (m : α → β) :
    (runAll f l m).2 = (runAll f l' m).2 := by
  have hl' : ∀ e ∈ l', LocalTo (R e) (W e) (f e) := fun e he => hl e (hp.mem_iff.mpr he)
  have hd' : l'.Pairwise (Indep R W) := hd.perm hp fun h => h.symm
  funext x
  by_cases hx : ∃ e ∈ l, x ∈ W e
  · obtain ⟨e, he, hxe⟩ := hx
    rw [runAll_written hl hd m he hxe, runAll_written hl' hd' m (hp.mem_iff.mp he) hxe]
  · push Not at hx
    rw [runAll_frame hl m hx, runAll_frame hl' m fun e he => hx e (hp.mem_iff.mpr he)]

/-! ### A second run -/

/-- On what an update reads and writes, the store after independent updates is the one that it alone
leaves. -/
theorem runAll_eqOn {l : List ι} (hl : ∀ e ∈ l, LocalTo (R e) (W e) (f e))
    (hd : l.Pairwise (Indep R W)) (hR : ∀ e ∈ l, R e ⊆ W e) (m : α → β) {e : ι} (he : e ∈ l) :
    EqOn (runAll f l m).2 (f e m).2 (R e) :=
  fun _ hx => runAll_written hl hd m he (hR e he hx)

/-- **A second run changes nothing**, if none of the updates changes anything the second time. -/
theorem runAll_again {l : List ι} (hl : ∀ e ∈ l, LocalTo (R e) (W e) (f e))
    (hd : l.Pairwise (Indep R W)) (hR : ∀ e ∈ l, R e ⊆ W e)
    (hf : ∀ e ∈ l, ∀ m, (f e (f e m).2).2 = (f e m).2) (m : α → β) :
    (runAll f l (runAll f l m).2).2 = (runAll f l m).2 := by
  funext x
  by_cases hx : ∃ e ∈ l, x ∈ W e
  · obtain ⟨e, he, hxe⟩ := hx
    rw [runAll_written hl hd _ he hxe, runAll_written hl hd m he hxe,
      (hl e he).written _ _ (runAll_eqOn hl hd hR m he) hxe, hf e he]
  · push Not at hx
    exact runAll_frame hl _ hx

end Simultaneous

/-! ### Composition -/

section Compose

variable {σ : Type*} {S T : Set α}

theorem LocalTo.pure (S : Set α) (r : ρ) : LocalTo S S fun m : α → β => (r, m) :=
  ⟨fun _ _ _ => rfl, fun _ _ _ => rfl, fun _ _ he => he⟩

theorem LocalTo.map {f : (α → β) → ρ × (α → β)} {R W : Set α} (h : LocalTo R W f) (k : ρ → σ) :
    LocalTo R W fun m => (k (f m).1, (f m).2) :=
  ⟨h.frame, fun m m' he => congrArg k (h.result m m' he), h.written⟩

/-- **Composition**: one update after another, both local to one set. What the second one is may
depend on the result of the first one. -/
theorem LocalTo.bind {f : (α → β) → ρ × (α → β)} {g : ρ → (α → β) → σ × (α → β)}
    (hf : LocalTo S S f) (hg : ∀ m, LocalTo S S (g (f m).1)) :
    LocalTo S S fun m => g (f m).1 (f m).2 where
  frame m x hx := ((hg m).frame _ x hx).trans (hf.frame m x hx)
  result m m' he := by
    rw [hf.result m m' he]
    exact (hg m').result _ _ (hf.written m m' he)
  written m m' he := by
    rw [hf.result m m' he]
    exact (hg m').written _ _ (hf.written m m' he)

theorem runAll_local {f : ι → (α → β) → ρ × (α → β)} {l : List ι}
    (hl : ∀ e ∈ l, LocalTo S S (f e)) : LocalTo S S (runAll f l) := by
  induction l with
  | nil => exact .pure S []
  | cons e l ih =>
    have htail : LocalTo S S (runAll f l) := ih fun e' he' => hl e' (.tail _ he')
    exact (hl e (.head _)).bind (g := fun r m => (r :: (runAll f l m).1, (runAll f l m).2))
      fun m => htail.map ((f e m).1 :: ·)

/-- **Updates local to disjoint sets commute**, and each one has the result that it has alone. -/
theorem LocalTo.comm {f : (α → β) → ρ × (α → β)} {g : (α → β) → σ × (α → β)}
    (hf : LocalTo S S f) (hg : LocalTo T T g) (hd : Disjoint S T) (m : α → β) :
    (g (f m).2).2 = (f (g m).2).2 ∧ (g (f m).2).1 = (g m).1 := by
  have hfT : EqOn (f m).2 m T := hf.eqOn_of_disjoint m hd
  have hgS : EqOn (g m).2 m S := hg.eqOn_of_disjoint m hd.symm
  refine ⟨funext fun x => ?_, hg.result _ _ hfT⟩
  by_cases hS : x ∈ S
  · have hT : x ∉ T := Set.disjoint_left.mp hd hS
    rw [hg.frame _ x hT]
    exact (hf.written _ _ hgS hS).symm
  · rw [hf.frame _ x hS]
    by_cases hT : x ∈ T
    · exact hg.written _ _ hfT hT
    · rw [hg.frame _ x hT, hg.frame _ x hT, hf.frame _ x hS]

end Compose

end Lib.Local

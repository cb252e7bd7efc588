import Umko.Image.Copy
import Umko.Lib.Patch

/-!
# What the image touches

`move_module` reads the sections that it copies and writes the image. When the sections that have
contents lie in the mapping of the file and all lie in the image, it touches these two mappings and
nothing else, even if sections of the image meet.
-/

namespace Umko

open Lib.Memory Lib.Local Lib.Patch

theorem module_loadImage (mod : Module) (base : Addr) (mc mc' : Machine) :
    (loadImage mod base mc').2.1 = (loadImage mod base mc).2.1 := by
  have hmoved := fun mem : Mem => @moveLoop_moved (imageLayout mod).elf base
    (imageLayout mod).secLayout mem
  refine Module.ext rfl rfl (Elfio.ext_sec ?_ fun i => ?_) rfl rfl rfl
  · exact (hmoved _).size.trans (hmoved _).size.symm
  · exact ((hmoved _).sec i).trans ((hmoved _).sec i).symm

section Footprint

variable {elf : Elfio} {base : Addr} {vsec : List SectionLayout} {total : ℕ} {S : Set Addr}

/-- A round of the loop, as an update of the memory with the section table as its result. -/
theorem moveStep_local {i : ℕ} {e : Elfio} (h : Moved elf base vsec i e)
    (hdest : elf.Copies i → extent elf base vsec i ⊆ S)
    (hsrc : elf.Copies i → range (elf.sec i).address (elf.sec i).size.toNat ⊆ S) :
    LocalTo S S fun m => (moveStep base vsec (m, e) i).swap := by
  unfold moveStep
  simp only [h.sec_self, alloc_eq_false_iff]
  cases ha : (elf.sec i).alloc with
  | false => exact .pure S e
  | true =>
    simp only [Bool.true_eq_false, if_false]
    by_cases ht : (elf.sec i).type = shtNobits
    · simp only [ht, ne_eq, not_true_eq_false, if_false]
      exact .pure S _
    · simp only [ht, ne_eq, not_false_eq_true, if_true]
      have hcopy := memcpy_local (base + (vsec.getD i ⟨0⟩).offset) (elf.sec i).address
        (elf.sec i).size.toNat
      exact (hcopy.mono (hsrc ⟨ha, ht⟩) subset_rfl (hdest ⟨ha, ht⟩)).map fun _ =>
        e.setAddress i (base + (vsec.getD i ⟨0⟩).offset)

/-- **The loop of `move_module` is local** to a set with the image and the sections copied. -/
theorem moveLoop_local (hbase : range base total ⊆ S)
    (hdest : ∀ i < elf.size, elf.Copies i → extent elf base vsec i ⊆ S)
    (hsrc : ∀ i < elf.size, elf.Copies i →
      range (elf.sec i).address (elf.sec i).size.toNat ⊆ S) :
    LocalTo S S fun m => ((List.range elf.size).foldl (moveStep base vsec)
      (memset m base 0 total, elf)).swap := by
  have hn : ∀ n ≤ elf.size, LocalTo S S fun m => ((List.range n).foldl (moveStep base vsec)
      (memset m base 0 total, elf)).swap := by
    intro n
    induction n with
    | zero =>
      intro _
      exact ((memset_local base 0 total).mono hbase subset_rfl hbase).map fun _ => elf
    | succ n ih =>
      intro hn
      simp only [List.range_succ, List.foldl_append, List.foldl_cons, List.foldl_nil]
      refine (ih (by omega)).bind (g := fun e m => (moveStep base vsec (m, e) n).swap) fun m => ?_
      have hmoved : ∀ k ≤ elf.size, Moved elf base vsec k ((List.range k).foldl
          (moveStep base vsec) (memset m base 0 total, elf)).2 := fun k hk =>
        Lib.Loop.foldl_range_inv (fun k (st : Mem × Elfio) => Moved elf base vsec k st.2) k
          ⟨rfl, fun j => by simp⟩ fun _ hi _ ht => moveStep_moved (by omega) ht
      exact moveStep_local (hmoved n (by omega)) (hdest n (by omega)) (hsrc n (by omega))
  exact hn elf.size le_rfl

end Footprint

end Umko

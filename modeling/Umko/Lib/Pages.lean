import Umko.Lib.Memory

/-!
# Page protection

Protections of pages of 4096 bytes, as `mmap` and `mprotect` set them: those of the pages with an
address among the given ones, which start at a page.
-/

namespace Lib.Memory

/-- What may be done with the bytes of a page. -/
structure Prot where
  read : Bool
  write : Bool
  exec : Bool
  deriving DecidableEq

/-- `PROT_READ | PROT_WRITE` -/
def Prot.readWrite : Prot := ⟨true, true, false⟩

/-- `PROT_READ | PROT_EXEC` -/
def Prot.readExec : Prot := ⟨true, false, true⟩

/-- The protection of the page at an address, for the first address of a page. -/
abbrev PageTable := Addr → Prot

/-- The first address of the page of `x`. -/
def pageOf (x : Addr) : Addr := x - x % 4096#64

/-- The pages of the `len` addresses from the page `a` on get the protection `p`. -/
def setProt (pt : PageTable) (a : Addr) (len : ℕ) (p : Prot) : PageTable :=
  fun q => if (q - a).toNat < len then p else pt q

theorem setProt_comm (pt : PageTable) (a b : Addr) (n k : ℕ) (p : Prot) :
    setProt (setProt pt a n p) b k p = setProt (setProt pt b k p) a n p := by
  funext x
  unfold setProt
  split <;> split <;> rfl

theorem toNat_pageOf (x : Addr) : (pageOf x).toNat = x.toNat - x.toNat % 4096 := by
  have hm : (x % 4096#64).toNat = x.toNat % 4096 := BitVec.toNat_umod
  rw [pageOf, BitVec.toNat_sub_of_le (by rw [BitVec.le_def, hm]; exact Nat.mod_le _ _), hm]

theorem and_not_low (x : Addr) : x &&& ~~~0xfff#64 = pageOf x := by
  have hlow : x &&& 0xfff#64 = x % 4096#64 := by
    apply BitVec.eq_of_toNat_eq
    rw [BitVec.toNat_and, BitVec.toNat_umod]
    exact Nat.and_two_pow_sub_one_eq_mod x.toNat 12
  have hsum : x &&& ~~~0xfff#64 = x - (x &&& 0xfff#64) := by
    have h0 : (x &&& ~~~0xfff#64) &&& (x &&& 0xfff#64) = 0#64 := by
      apply BitVec.eq_of_getLsbD_eq
      intro i hi
      simp only [BitVec.getLsbD_and, BitVec.getLsbD_not, BitVec.getLsbD_zero]
      grind
    have h1 : (x &&& ~~~0xfff#64) + (x &&& 0xfff#64) = x := by
      rw [BitVec.add_eq_or_of_and_eq_zero _ _ h0]
      apply BitVec.eq_of_getLsbD_eq
      intro i hi
      simp only [BitVec.getLsbD_and, BitVec.getLsbD_or, BitVec.getLsbD_not]
      grind
    exact eq_sub_of_add_eq h1
  rw [hsum, hlow, pageOf]

theorem toNat_pageOf_sub {a : Addr} (ha : 4096 ∣ a.toNat) (x : Addr) :
    (pageOf x - a).toNat = (x - a).toNat - (x - a).toNat % 4096 := by
  have h := toNat_pageOf x
  have hx := x.isLt
  have hlt := a.isLt
  rw [BitVec.toNat_sub, BitVec.toNat_sub, h]
  omega

theorem pageOf_sub_lt {a : Addr} (ha : 4096 ∣ a.toNat) {len : ℕ} (hl : 4096 ∣ len) (x : Addr) :
    (pageOf x - a).toNat < len ↔ (x - a).toNat < len := by
  rw [toNat_pageOf_sub ha]
  omega

theorem pageOf_sub_lt_of_lt {a : Addr} (ha : 4096 ∣ a.toNat) {len : ℕ} {x : Addr}
    (h : (x - a).toNat < len) : (pageOf x - a).toNat < len := by
  rw [toNat_pageOf_sub ha]
  omega

/-! ### Moving by whole pages -/

section Shift

variable {δ : Addr}

theorem add_mod_page (hδ : 4096 ∣ δ.toNat) (x : Addr) : (x + δ).toNat % 4096 = x.toNat % 4096 := by
  rw [BitVec.toNat_add]
  omega

theorem pageOf_add (hδ : 4096 ∣ δ.toNat) (x : Addr) : pageOf (x + δ) = pageOf x + δ := by
  have h : (x + δ) % 4096#64 = x % 4096#64 := by
    apply BitVec.eq_of_toNat_eq
    rw [BitVec.toNat_umod, BitVec.toNat_umod]
    exact add_mod_page hδ x
  rw [pageOf, pageOf, h, sub_add_eq_add_sub]

theorem getLsbD_add_page (hδ : 4096 ∣ δ.toNat) (x : Addr) {i : ℕ} (hi : i < 12) :
    (x + δ).getLsbD i = x.getLsbD i := by
  have h : ∀ y : Addr, y.getLsbD i = (y.toNat % 2 ^ 12).testBit i := by
    intro y
    rw [Nat.testBit_mod_two_pow, BitVec.testBit_toNat]
    simp [hi]
  rw [h, h, show 2 ^ 12 = 4096 by rfl, add_mod_page hδ]

end Shift

end Lib.Memory

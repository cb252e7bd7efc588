import Umko.Lib.Numeral
import Umko.Mylibc.Defs

/-!
# Fields and numbers

What `prints` and `simple_outputi` put out, as texts of their own, and what reads back from them.
-/

namespace Umko.Mylibc

open Lib.Numeral

/-! ### Fields -/

/-- The string in a field of the width. -/
def pad (string : List Char) (width : ℤ) (flags : Flags) : List Char :=
  let fill := List.replicate (width.toNat - string.length) (if flags.padZero then '0' else ' ')
  if flags.padRight then string ++ fill else fill ++ string

/-- The string in its field, when its characters can be counted. -/
def field (string : List Char) (width : ℤ) (flags : Flags) : Except Fault (List Char) :=
  if string.length < 2 ^ 31 then .ok (pad string width flags) else .error .overflow

/-- The result of a routine that puts out a text. -/
def printed (out : Sink) (text : List Char) : ℤ × Sink := (text.length, out.map (· ++ text))

section Fields

variable {out : Sink} {string : List Char} {width : ℤ} {flags : Flags}

theorem int_ok {n : ℤ} (h : IsInt n) : int n = .ok n := if_pos h

theorem isInt_of_int {n m : ℤ} (h : int n = .ok m) : n = m ∧ IsInt m := by
  unfold int at h
  split at h
  · next hn =>
    obtain rfl := Except.ok.inj h
    exact ⟨rfl, hn⟩
  · cases h

theorem stringLoop_append (s t : List Char) (st : ℤ × Sink) :
    stringLoop (s ++ t) st = stringLoop s st >>= stringLoop t := by
  induction s generalizing st with
  | nil => rfl
  | cons c s ih =>
    rw [List.cons_append, stringLoop, stringLoop]
    cases int (st.1 + 1) with
    | error e => rfl
    | ok pc => exact ih _

theorem padLoop_eq (c : Char) (n : ℕ) (st : ℤ × Sink) :
    padLoop c n st = stringLoop (List.replicate n c) st := by
  induction n generalizing st with
  | zero => rfl
  | succ n ih =>
    rw [padLoop, List.replicate_succ, stringLoop]
    cases int (st.1 + 1) with
    | error e => rfl
    | ok pc => exact ih _

theorem stringLoop_eq (string : List Char) {st : ℤ × Sink} (hst : IsInt st.1) :
    stringLoop string st = if st.1 + string.length < 2 ^ 31 then
      .ok (st.1 + string.length, st.2.map (· ++ string)) else .error .overflow := by
  obtain ⟨hlow, hhigh⟩ := hst
  induction string generalizing st with
  | nil =>
    rw [List.length_nil, Nat.cast_zero, add_zero, if_pos hhigh]
    simp [stringLoop]
  | cons c string ih =>
    rw [stringLoop, List.length_cons]
    by_cases hpc : st.1 + 1 < 2 ^ 31
    · rw [int_ok ⟨by omega, hpc⟩]
      refine (@ih (st.1 + 1, simpleOutputchar st.2 c) (by dsimp only; omega) hpc).trans ?_
      have hlen : st.1 + 1 + (string.length : ℤ) = st.1 + (string.length + 1 : ℕ) := by
        push_cast
        ring
      simp only [hlen, simpleOutputchar, Option.map_map]
      simp [Function.comp_def]
    · rw [int, if_neg fun h => hpc h.2, if_neg (by push_cast; omega)]
      rfl

theorem lenLoop_eq (string : List Char) {len : ℤ} (hlen : IsInt len) :
    lenLoop string len =
      if len + string.length < 2 ^ 31 then .ok (len + string.length) else .error .overflow := by
  obtain ⟨hlow, hhigh⟩ := hlen
  induction string generalizing len with
  | nil =>
    rw [List.length_nil, Nat.cast_zero, add_zero, if_pos hhigh]
    rfl
  | cons c string ih =>
    rw [lenLoop, List.length_cons]
    by_cases hlt : len + 1 < 2 ^ 31
    · rw [int_ok ⟨by omega, hlt⟩]
      refine (@ih (len + 1) (by omega) hlt).trans ?_
      have hsum : len + 1 + (string.length : ℤ) = len + (string.length + 1 : ℕ) := by
        push_cast
        ring
      rw [hsum]
    · rw [int, if_neg fun h => hlt h.2, if_neg (by push_cast; omega)]
      rfl

theorem isInt_zero : IsInt 0 := by
  unfold IsInt
  omega

theorem padWidth_eq (hlen : string.length < 2 ^ 31) (width : ℤ) :
    ∃ w, padWidth string width = .ok w ∧ w.toNat = width.toNat - string.length := by
  unfold padWidth
  split
  · rw [lenLoop_eq string isInt_zero, zero_add, if_pos (by exact_mod_cast hlen)]
    refine ⟨_, rfl, ?_⟩
    split <;> omega
  · exact ⟨width, rfl, by omega⟩

theorem length_pad (string : List Char) (width : ℤ) (flags : Flags) :
    (pad string width flags).length = max string.length width.toNat := by
  unfold pad
  dsimp only
  split <;> simp <;> omega

theorem prints_of_lt (out : Sink) (hlen : string.length < 2 ^ 31) (hwidth : width < 2 ^ 31)
    (flags : Flags) :
    prints out string width flags = .ok (printed out (pad string width flags)) := by
  obtain ⟨w, hw, hfill⟩ := padWidth_eq hlen width
  have hfilled : padLoop (if width > 0 ∧ flags.padZero then '0' else ' ') w.toNat = stringLoop
      (List.replicate (width.toNat - string.length) (if flags.padZero then '0' else ' ')) := by
    funext st
    rw [padLoop_eq, hfill]
    by_cases h : width > 0
    · simp [h]
    · rw [show width.toNat - string.length = 0 by omega]
      rfl
  have hpad := @stringLoop_eq (pad string width flags) (0, out) isInt_zero
  rw [if_pos (by rw [length_pad]; dsimp only; omega), zero_add] at hpad
  unfold prints
  rw [hw]
  refine Eq.trans ?_ hpad
  unfold pad
  cases flags.padRight with
  | true =>
    show _ = stringLoop (string ++ _) (0, out)
    rw [stringLoop_append, ← hfilled]
    rfl
  | false =>
    show _ = stringLoop (_ ++ string) (0, out)
    rw [stringLoop_append, ← hfilled]
    rfl

/-- A string whose characters cannot be counted. -/
theorem prints_of_le (out : Sink) (hlen : 2 ^ 31 ≤ string.length) (width : ℤ) (flags : Flags) :
    prints out string width flags = .error .overflow := by
  have hlong : stringLoop string (0, out) = .error .overflow :=
    (stringLoop_eq string isInt_zero).trans (if_neg (by dsimp only; omega))
  unfold prints
  by_cases hpos : width > 0
  · have hw : padWidth string width = .error .overflow := by
      rw [padWidth, if_pos hpos, lenLoop_eq string isInt_zero, if_neg (by omega)]
      rfl
    rw [hw]
    rfl
  · have hw : padWidth string width = .ok width := if_neg hpos
    have hnone : width.toNat = 0 := by omega
    rw [hw]
    cases flags.padRight with
    | true =>
      show (stringLoop string (0, out) >>= _) = _
      rw [hlong]
      rfl
    | false =>
      show (padLoop _ width.toNat (0, out) >>= _) = _
      rw [hnone]
      exact hlong

/-- **`prints` puts out the string in its field**, and returns how long that is. -/
theorem prints_eq (out : Sink) (string : List Char) (hwidth : width < 2 ^ 31) (flags : Flags) :
    prints out string width flags = (field string width flags).map (printed out) := by
  unfold field
  by_cases hlen : string.length < 2 ^ 31
  · rw [if_pos hlen, prints_of_lt out hlen hwidth]
    rfl
  · rw [if_neg hlen, prints_of_le out (not_lt.mp hlen)]
    rfl

end Fields

/-! ### Numbers -/

/-- A number is printed with a sign. -/
def negative (i : BitVec 64) (base : ℕ) (sign : Bool) : Bool :=
  sign && base == 10 && decide (i.toInt < 0)

def magnitude (i : BitVec 64) (base : ℕ) (sign : Bool) : ℕ :=
  (if negative i base sign then -i else i).toNat

/-- The digits of a number, with one for `0`. -/
def digitsText (base : ℕ) (letbase : Char) (n : ℕ) : List Char :=
  if n = 0 then ['0'] else (numeral base n).map (digitChar letbase)

/-- Sign and digits in a field: zeros stand behind the sign. -/
def numberText (neg : Bool) (digits : List Char) (width : ℤ) (flags : Flags) : List Char :=
  if neg then
    if flags.padZero then '-' :: pad digits (width - 1) flags else pad ('-' :: digits) width flags
  else pad digits width flags

/-- A number that is printed with a sign and cannot be, or whose width has nothing below it. -/
def Overflows (i : BitVec 64) (base : ℕ) (sign : Bool) (width : ℤ) (flags : Flags) : Prop :=
  negative i base sign = true ∧
    (i = BitVec.intMin 64 ∨ (flags.padZero = true ∧ width = -2 ^ 31))

instance (i : BitVec 64) (base : ℕ) (sign : Bool) (width : ℤ) (flags : Flags) :
    Decidable (Overflows i base sign width flags) := inferInstanceAs (Decidable (_ ∧ _))

def numberField (i : BitVec 64) (base : ℕ) (sign : Bool) (width : ℤ) (flags : Flags)
    (letbase : Char) : Except Fault (List Char) :=
  if Overflows i base sign width flags then .error .overflow
  else if magnitude i base sign < base ^ 63 then
    .ok (numberText (negative i base sign) (digitsText base letbase (magnitude i base sign)) width
      flags)
  else .error .underrun

section Numbers

variable {base : ℕ} {letbase : Char} {i : BitVec 64} {sign : Bool} {width : ℤ} {flags : Flags}

theorem digitLoop_eq (hb : 1 < base) (n u : ℕ) (s : List Char) (hs : s.length + (n + 1) = 64) :
    digitLoop base letbase (n + 1) u s = if u < base ^ n then
      .ok ((numeral base u).map (digitChar letbase) ++ s) else .error .underrun := by
  induction n generalizing u s with
  | zero =>
    rw [digitLoop]
    by_cases hu : u = 0
    · simp [hu]
    · rw [if_neg hu, push, if_neg (by unfold printBufLen; omega), if_neg (by rw [pow_zero]; omega)]
      rfl
  | succ n ih =>
    rw [digitLoop]
    by_cases hu : u = 0
    · simp [hu, Nat.pos_of_ne_zero (pow_ne_zero _ (show base ≠ 0 by omega))]
    · rw [if_neg hu, push, if_pos (by unfold printBufLen; omega)]
      refine (ih _ _ (by rw [List.length_cons]; omega)).trans ?_
      rw [numeral_eq hb hu, pow_succ]
      simp only [Nat.div_lt_iff_lt_mul (show 0 < base by omega), List.map_append, List.map_cons,
        List.map_nil, List.append_assoc, List.singleton_append]

theorem negative_iff : negative i base sign = true ↔ (sign = true ∧ base = 10) ∧ i.toInt < 0 := by
  simp [negative]

theorem magnitude_of_negative (h : negative i base sign = true) :
    base = 10 ∧ magnitude i base sign ≤ 2 ^ 63 := by
  obtain ⟨⟨-, hbase⟩, hi⟩ := negative_iff.mp h
  refine ⟨hbase, ?_⟩
  rw [magnitude, if_pos h, BitVec.toNat_neg]
  rw [BitVec.toInt_eq_toNat_cond] at hi
  have := i.isLt
  split at hi <;> omega

theorem magnitude_eq_zero_iff : magnitude i base sign = 0 ↔ i = 0 := by
  unfold magnitude
  split
  · rw [← BitVec.toNat_inj, BitVec.toNat_neg]
    have := i.isLt
    show _ ↔ i.toNat = 0
    omega
  · exact ⟨fun h => BitVec.eq_of_toNat_eq h, fun h => h ▸ rfl⟩

theorem length_digitsText_of_fits (hb : 1 < base) (h : magnitude i base sign < base ^ 63) :
    (digitsText base letbase (magnitude i base sign)).length ≤
      if negative i base sign then 62 else 63 := by
  unfold digitsText
  split
  · split <;> simp
  · rw [List.length_map]
    split
    · next hneg =>
      obtain ⟨rfl, hle⟩ := magnitude_of_negative hneg
      exact (length_numeral_le_iff hb).mpr (lt_of_le_of_lt hle (by norm_num))
    · exact (length_numeral_le_iff hb).mpr h

theorem field_ok {string : List Char} (h : string.length ≤ 64) (width : ℤ) (flags : Flags) :
    field string width flags = .ok (pad string width flags) := if_pos (by omega)

/-- What `simple_outputi` does with the digits of a negative number: the `-` goes in front of the
padding or of the digits. -/
theorem prints_negative (out : Sink) {digits : List Char} (hroom : digits.length ≤ 62)
    (hwidth : IsInt width) (hmin : flags.padZero = true → width ≠ -2 ^ 31) :
    (if width ≠ 0 ∧ flags.padZero then do
        let width ← int (width - 1)
        let r ← prints (simpleOutputchar out '-') digits width flags
        let pc ← int (1 + r.1)
        .ok (pc, r.2)
      else do
        let s ← push digits '-'
        prints out s width flags) = .ok (printed out (numberText true digits width flags)) := by
  obtain ⟨hlow, hhigh⟩ := hwidth
  have hdigits : ('-' :: digits).length ≤ 64 := by
    rw [List.length_cons]
    omega
  have hpush : push digits '-' = .ok ('-' :: digits) :=
    if_pos (by unfold printBufLen; omega)
  have hright : (push digits '-' >>= fun s => prints out s width flags) =
      .ok (printed out (pad ('-' :: digits) width flags)) := by
    rw [hpush]
    show prints out _ _ _ = _
    rw [prints_eq _ _ hhigh, field_ok hdigits]
    rfl
  unfold numberText
  rw [if_pos rfl]
  cases hz : flags.padZero with
  | false => simpa using hright
  | true =>
    by_cases hw : width = 0
    · have hpad : ∀ s : List Char, ∀ w ≤ 0, pad s w flags = s := by
        intro s w h
        simp [pad, Int.toNat_of_nonpos h]
      simp only [hw, ne_eq, not_true_eq_false, false_and, if_false, if_true] at hright ⊢
      rw [hright, hpad _ _ le_rfl, hpad _ _ (by omega)]
    · have hmin := hmin hz
      have hint : int (width - 1) = .ok (width - 1) := int_ok ⟨by omega, by omega⟩
      have hlen : IsInt (1 + ((pad digits (width - 1) flags).length : ℤ)) := by
        rw [length_pad]
        constructor <;> omega
      rw [if_pos ⟨hw, rfl⟩, if_pos rfl, hint, ok_bind, prints_eq _ _ (by omega),
        field_ok (by omega), Except.map, ok_bind]
      dsimp only [printed]
      rw [int_ok hlen, ok_bind, List.length_cons, simpleOutputchar]
      refine congrArg Except.ok (Prod.ext ?_ ?_)
      · push_cast
        ring
      · simp [Function.comp_def]

theorem simpleOutputi_of_ne (hi : i ≠ 0) (out : Sink) :
    simpleOutputi out i base sign width flags letbase =
      (if negative i base sign then negate i else .ok i) >>= fun u =>
        digitLoop base letbase (63 + 1) u.toNat [] >>= fun s =>
          if negative i base sign then
            if width ≠ 0 ∧ flags.padZero then do
              let width ← int (width - 1)
              let r ← prints (simpleOutputchar out '-') s width flags
              let pc ← int (1 + r.1)
              .ok (pc, r.2)
            else do
              let s ← push s '-'
              prints out s width flags
          else prints out s width flags := by
  rw [simpleOutputi, if_neg hi]
  rfl

theorem simpleOutputi_zero (hb : 1 < base) (out : Sink) (sign : Bool) (hwidth : width < 2 ^ 31)
    (flags : Flags) : simpleOutputi out 0 base sign width flags letbase =
      (numberField 0 base sign width flags letbase).map (printed out) := by
  have hneg : negative 0 base sign = false := by simp [negative]
  have hzero : magnitude 0 base sign = 0 := magnitude_eq_zero_iff.mpr rfl
  have hover : ¬ Overflows 0 base sign width flags := fun h => Bool.noConfusion (hneg ▸ h.1)
  rw [simpleOutputi, if_pos rfl, prints_eq _ _ hwidth, field_ok (by simp), numberField,
    if_neg hover, hneg, hzero, if_pos (Nat.pos_of_ne_zero (pow_ne_zero _ (by omega)))]
  rfl

/-- The digits of a number that is not zero. -/
theorem digitLoop_magnitude (hb : 1 < base) (hi : i ≠ 0) :
    digitLoop base letbase (63 + 1) (magnitude i base sign) [] =
      if magnitude i base sign < base ^ 63 then
        .ok (digitsText base letbase (magnitude i base sign)) else .error .underrun := by
  have hmag : magnitude i base sign ≠ 0 := fun h => hi (magnitude_eq_zero_iff.mp h)
  rw [digitLoop_eq hb 63 _ [] rfl, List.append_nil, digitsText, if_neg hmag]

theorem simpleOutputi_unsigned (hb : 1 < base) (hi : i ≠ 0) (hneg : negative i base sign = false)
    (out : Sink) (hwidth : width < 2 ^ 31) (flags : Flags) :
    simpleOutputi out i base sign width flags letbase =
      (numberField i base sign width flags letbase).map (printed out) := by
  have hu : i.toNat = magnitude i base sign := by
    rw [magnitude, hneg]
    rfl
  have hover : ¬ Overflows i base sign width flags := fun h => Bool.noConfusion (hneg ▸ h.1)
  have hroom := @length_digitsText_of_fits base letbase i sign hb
  have hloop := @digitLoop_magnitude base letbase i sign hb hi
  rw [hneg] at hroom
  rw [simpleOutputi_of_ne hi, numberField, if_neg hover]
  simp only [hneg, Bool.false_eq_true, if_false, ok_bind, hu, hloop]
  split
  · next hfit =>
    rw [ok_bind, prints_eq _ _ hwidth, field_ok ((hroom hfit).trans (by decide))]
    rfl
  · rfl

theorem simpleOutputi_negative (hneg : negative i base sign = true) (out : Sink)
    (hwidth : IsInt width) (flags : Flags) :
    simpleOutputi out i base sign width flags letbase =
      (numberField i base sign width flags letbase).map (printed out) := by
  obtain ⟨rfl, hle⟩ := magnitude_of_negative hneg
  have hi : i ≠ 0 := by
    rintro rfl
    simp [negative] at hneg
  have hfit : magnitude i 10 sign < 10 ^ 63 := lt_of_le_of_lt hle (by norm_num)
  have hroom := @length_digitsText_of_fits 10 letbase i sign (by omega)
  rw [hneg] at hroom
  rw [simpleOutputi_of_ne hi, numberField, hneg, if_pos rfl]
  by_cases hmin : i = BitVec.intMin 64
  · rw [negate, if_pos hmin, if_pos ⟨hneg, .inl hmin⟩]
    rfl
  · have hu : (-i).toNat = magnitude i 10 sign := by rw [magnitude, if_pos hneg]
    rw [negate, if_neg hmin, ok_bind, hu, digitLoop_magnitude (by omega) hi, if_pos hfit, ok_bind,
      if_pos rfl]
    by_cases hover : flags.padZero = true ∧ width = -2 ^ 31
    · -- `--width`
      have hwidth : ¬ IsInt (width - 1) := fun h => absurd h.1 (by omega)
      rw [if_pos (show width ≠ 0 ∧ _ from ⟨by omega, hover.1⟩), int, if_neg hwidth,
        if_pos ⟨hneg, .inr hover⟩]
      rfl
    · rw [if_neg fun h : Overflows i 10 sign width flags => h.2.elim hmin hover]
      refine (prints_negative out (hroom hfit) hwidth fun hz hw => hover ⟨hz, hw⟩).trans ?_
      rw [if_pos hfit]
      rfl

/-- **`simple_outputi` puts out sign and digits in the field**, when `print_buf` has room for the
digits and no number overflows. -/
theorem simpleOutputi_eq (hb : 1 < base) (out : Sink) (i : BitVec 64) (sign : Bool)
    (hwidth : IsInt width) (flags : Flags) (letbase : Char) :
    simpleOutputi out i base sign width flags letbase =
      (numberField i base sign width flags letbase).map (printed out) := by
  by_cases hi : i = 0
  · subst hi
    exact simpleOutputi_zero hb out sign hwidth.2 flags
  · cases hneg : negative i base sign with
    | false => exact simpleOutputi_unsigned hb hi hneg out hwidth.2 flags
    | true => exact simpleOutputi_negative hneg out hwidth flags

/-- `print_buf` has room for every number but the binary ones of 64 digits. -/
theorem fits_iff (hb : 1 < base) :
    magnitude i base sign < base ^ 63 ↔ ¬ (base = 2 ∧ 2 ^ 63 ≤ i.toNat) := by
  by_cases hneg : negative i base sign = true
  · obtain ⟨rfl, hle⟩ := magnitude_of_negative hneg
    exact iff_of_true (lt_of_le_of_lt hle (by norm_num)) fun h => by omega
  · have hmag : magnitude i base sign = i.toNat := by rw [magnitude, if_neg hneg]
    rw [hmag]
    by_cases hbase : base = 2
    · subst hbase
      omega
    · have hlt : i.toNat < base ^ 63 :=
        calc i.toNat < 2 ^ 64 := i.isLt
          _ ≤ 3 ^ 63 := by norm_num
          _ ≤ base ^ 63 := Nat.pow_le_pow_left (by omega) 63
      exact iff_of_true hlt fun h => hbase h.1

end Numbers

/-! ### Reading back -/

def digitValue (c : Char) : Option ℕ :=
  if '0'.toNat ≤ c.toNat ∧ c.toNat ≤ '9'.toNat then some (c.toNat - '0'.toNat)
  else if 'a'.toNat ≤ c.toNat ∧ c.toNat ≤ 'z'.toNat then some (c.toNat - 'a'.toNat + 10)
  else if 'A'.toNat ≤ c.toNat ∧ c.toNat ≤ 'Z'.toNat then some (c.toNat - 'A'.toNat + 10)
  else none

def readDigits (base : ℕ) (l : List Char) : Option ℕ :=
  let ds := l.filterMap digitValue
  if ds ≠ [] ∧ ds.length = l.length ∧ ∀ d ∈ ds, d < base then some (value base ds) else none

/-- The number in a field of spaces, with or without a sign. -/
def readNumber (base : ℕ) (l : List Char) : Option ℤ :=
  match (l.dropWhile (· == ' ')).takeWhile (· != ' ') with
  | '-' :: l => (readDigits base l).map fun n => -(n : ℤ)
  | l => (readDigits base l).map fun n => (n : ℤ)

/-- Characters that are the digits of some numbers. -/
def Spells (l : List Char) (ds : List ℕ) : Prop := l.map digitValue = ds.map some

section Read

variable {base : ℕ} {letbase : Char} {l l' : List Char} {ds ds' : List ℕ}

theorem digitValue_digitChar (hl : letbase = 'a' ∨ letbase = 'A') {t : ℕ} (ht : t < 36) :
    digitValue (digitChar letbase t) = some t := by
  rcases hl with rfl | rfl
  · exact (by decide : ∀ t < 36, digitValue (digitChar 'a' t) = some t) t ht
  · exact (by decide : ∀ t < 36, digitValue (digitChar 'A' t) = some t) t ht

theorem Spells.append (h : Spells l ds) (h' : Spells l' ds') : Spells (l ++ l') (ds ++ ds') := by
  rw [Spells, List.map_append, List.map_append, h, h']

theorem spells_zeros (k : ℕ) : Spells (List.replicate k '0') (List.replicate k 0) := by
  rw [Spells, List.map_replicate, List.map_replicate]
  rfl

theorem Spells.exists_digit (h : Spells l ds) {c : Char} (hc : c ∈ l) :
    ∃ d, digitValue c = some d := by
  have hmem : digitValue c ∈ ds.map some := h ▸ List.mem_map_of_mem hc
  obtain ⟨d, -, hd⟩ := List.mem_map.mp hmem
  exact ⟨d, hd.symm⟩

theorem Spells.ne_of_mem (h : Spells l ds) {c : Char} (hc : c ∈ l) : c ≠ ' ' ∧ c ≠ '-' := by
  obtain ⟨d, hd⟩ := h.exists_digit hc
  have hspace : digitValue ' ' = none := by decide
  have hsign : digitValue '-' = none := by decide
  constructor
  · rintro rfl
    cases hspace.symm.trans hd
  · rintro rfl
    cases hsign.symm.trans hd

theorem Spells.readDigits_eq (h : Spells l ds) (hne : ds ≠ []) (hlt : ∀ d ∈ ds, d < base) :
    readDigits base l = some (value base ds) := by
  have hds : l.filterMap digitValue = ds := by
    calc l.filterMap digitValue = (l.map digitValue).filterMap id := by
          rw [List.filterMap_map]
          rfl
      _ = ds := by
          rw [h, List.filterMap_map]
          exact List.filterMap_some
  have hlen : ds.length = l.length := by
    have := congrArg List.length h
    rw [List.length_map, List.length_map] at this
    exact this.symm
  unfold readDigits
  dsimp only
  rw [hds, if_pos ⟨hne, hlen, hlt⟩]

/-- **A sign and digits read back** from a field of spaces. -/
theorem Spells.readNumber_eq (h : Spells l ds) (hne : ds ≠ []) (hlt : ∀ d ∈ ds, d < base)
    (neg : Bool) (a b : ℕ) :
    readNumber base (List.replicate a ' ' ++ ((if neg then ['-'] else []) ++ l) ++
      List.replicate b ' ') = some (if neg then -(value base ds : ℤ) else value base ds) := by
  have hread := h.readDigits_eq hne hlt
  have hsign : ∀ c ∈ (if neg then ['-'] else []) ++ l, c ≠ ' ' := by
    intro c hc
    rcases List.mem_append.mp hc with hc | hc
    · cases neg
      · cases hc
      · rw [List.mem_singleton.mp hc]
        decide
    · exact (h.ne_of_mem hc).1
  have hl : l ≠ [] := by
    rintro rfl
    exact hne (List.map_eq_nil_iff.mp h.symm)
  obtain ⟨c, t, hct⟩ : ∃ c t, (if neg then ['-'] else []) ++ l = c :: t :=
    List.exists_cons_of_ne_nil (by simp [hl])
  have htext : ((List.replicate a ' ' ++ ((if neg then ['-'] else []) ++ l) ++
      List.replicate b ' ').dropWhile (· == ' ')).takeWhile (· != ' ') =
        (if neg then ['-'] else []) ++ l := by
    rw [List.append_assoc, List.dropWhile_append_of_pos (by simp [List.mem_replicate]), hct,
      List.cons_append, List.dropWhile_cons_of_neg, ← List.cons_append, ← hct,
      List.takeWhile_append_of_pos, List.takeWhile_replicate]
    · simp
    · simpa using hsign
    · have := hsign c (by rw [hct]; exact List.mem_cons_self)
      simpa using this
  unfold readNumber
  rw [htext]
  cases neg with
  | true => simp [hread]
  | false =>
    obtain ⟨c, t, rfl⟩ := List.exists_cons_of_ne_nil hl
    have hc := (h.ne_of_mem List.mem_cons_self).2
    show (match c :: t with | '-' :: l => _ | l => _) = _
    split
    · next heq => exact absurd (List.cons.inj heq).1 hc
    · rw [hread]
      rfl

end Read

/-! ### What is printed -/

/-- The number that an argument stands for. -/
def numberOf (i : BitVec 64) (base : ℕ) (sign : Bool) : ℤ :=
  if sign && base == 10 then i.toInt else i.toNat

/-- Its sign and digits, without padding. -/
def plainText (i : BitVec 64) (base : ℕ) (sign : Bool) (letbase : Char) : List Char :=
  (if negative i base sign then ['-'] else []) ++ digitsText base letbase (magnitude i base sign)

/-- The zeros that are padded behind a number. -/
def zerosRight (plain : List Char) (width : ℤ) (flags : Flags) : ℕ :=
  if flags.padZero && flags.padRight then width.toNat - plain.length else 0

section Printed

variable {base : ℕ} {letbase : Char} {i : BitVec 64} {sign : Bool} {width : ℤ} {flags : Flags}

theorem numberOf_eq : numberOf i base sign =
    if negative i base sign then -(magnitude i base sign : ℤ) else magnitude i base sign := by
  have hlt := i.isLt
  have hint := BitVec.toInt_eq_toNat_cond i
  by_cases hs : (sign && base == 10) = true
  · have hneg : negative i base sign = decide (i.toInt < 0) := by rw [negative, hs, Bool.true_and]
    rw [numberOf, if_pos hs, magnitude, hneg]
    by_cases hi : i.toInt < 0
    · simp only [hi, decide_true, if_true, BitVec.toNat_neg]
      split at hint <;> omega
    · simp only [hi, decide_false, Bool.false_eq_true, if_false]
      split at hint <;> omega
  · have hneg : negative i base sign = false := by
      rw [negative, Bool.eq_false_iff.mpr hs, Bool.false_and]
    rw [numberOf, if_neg hs, magnitude, hneg]
    rfl

theorem spells_digitsText (hb : 1 < base) (hb36 : base ≤ 36) (hl : letbase = 'a' ∨ letbase = 'A')
    (n : ℕ) : ∃ ds, Spells (digitsText base letbase n) ds ∧ ds ≠ [] ∧ (∀ d ∈ ds, d < base) ∧
      value base ds = n := by
  by_cases hn : n = 0
  · refine ⟨[0], ?_, by simp, by simp; omega, by simp [value, hn]⟩
    rw [digitsText, if_pos hn]
    rfl
  · refine ⟨numeral base n, ?_, numeral_ne_nil hn, fun d hd => lt_of_mem_numeral hb hd,
      value_numeral _ _⟩
    rw [digitsText, if_neg hn, Spells, List.map_map]
    refine List.map_congr_left fun d hd => ?_
    exact digitValue_digitChar hl (lt_of_lt_of_le (lt_of_mem_numeral hb hd) hb36)

/-- The padding of a number: spaces around it, or zeros behind the sign or behind the digits. -/
theorem numberText_eq (neg : Bool) (digits : List Char) (width : ℤ) (flags : Flags) :
    ∃ a b p, numberText neg digits width flags =
      List.replicate a ' ' ++ ((if neg then ['-'] else []) ++ (List.replicate p '0' ++ digits ++
        List.replicate (zerosRight ((if neg then ['-'] else []) ++ digits) width flags) '0')) ++
        List.replicate b ' ' := by
  obtain ⟨padZero, padRight⟩ := flags
  have hwidth : width.toNat - 1 - digits.length = width.toNat - (digits.length + 1) := by omega
  let k := width.toNat - ((if neg then ['-'] else []) ++ digits).length
  refine ⟨if !padZero && !padRight then k else 0, if !padZero && padRight then k else 0,
    if padZero && !padRight then k else 0, ?_⟩
  cases neg <;> cases padZero <;> cases padRight <;>
    simp [numberText, pad, zerosRight, k, hwidth]

theorem length_numberText (neg : Bool) (digits : List Char) (width : ℤ) (flags : Flags) :
    (numberText neg digits width flags).length =
      max ((if neg then ['-'] else []) ++ digits).length width.toNat := by
  unfold numberText
  cases neg with
  | false => simp [length_pad]
  | true =>
    cases flags.padZero with
    | false => simp [length_pad]
    | true =>
      simp [length_pad]
      omega

theorem zerosRight_eq_zero_iff (plain : List Char) (width : ℤ) (flags : Flags) :
    zerosRight plain width flags = 0 ↔
      ¬ (flags.padZero = true ∧ flags.padRight = true ∧ plain.length < width) := by
  unfold zerosRight
  cases flags.padZero with
  | false => simp
  | true =>
    cases flags.padRight with
    | false => simp
    | true =>
      simp
      omega

/-- A negative number that has no `-i`, or no width below its own. -/
theorem overflows_iff : Overflows i base sign width flags ↔ numberOf i base sign < 0 ∧
    (numberOf i base sign = -2 ^ 63 ∨ (flags.padZero = true ∧ width = -2 ^ 31)) := by
  have hint : sign = true ∧ base = 10 → numberOf i base sign = i.toInt := by
    rintro ⟨rfl, rfl⟩
    rfl
  have hmin : i = BitVec.intMin 64 ↔ i.toInt = -2 ^ 63 := by
    rw [← BitVec.toInt_inj]
    rfl
  unfold Overflows
  rw [negative_iff]
  by_cases hs : sign = true ∧ base = 10
  · rw [hint hs, hmin]
    simp only [hs, and_self, true_and]
  · have hnat : 0 ≤ numberOf i base sign := by
      rw [numberOf, if_neg (by simpa using hs)]
      exact Int.natCast_nonneg _
    exact iff_of_false (fun h => hs h.1.1) fun h => absurd h.1 (not_lt.mpr hnat)

theorem numberText_reads (hb : 1 < base) (hb36 : base ≤ 36) (hl : letbase = 'a' ∨ letbase = 'A') :
    let text := numberText (negative i base sign) (digitsText base letbase (magnitude i base sign))
      width flags
    text.length = max (plainText i base sign letbase).length width.toNat ∧
      (readNumber base text = some (numberOf i base sign) ↔
        ¬ (flags.padZero = true ∧ flags.padRight = true ∧
          (plainText i base sign letbase).length < width) ∨ i = 0) := by
  refine ⟨length_numberText _ _ _ _, ?_⟩
  obtain ⟨ds, hspells, hne, hlt, hvalue⟩ := spells_digitsText hb hb36 hl (magnitude i base sign)
  obtain ⟨a, b, p, htext⟩ := numberText_eq (negative i base sign)
    (digitsText base letbase (magnitude i base sign)) width flags
  have hplain : (if negative i base sign then ['-'] else []) ++
      digitsText base letbase (magnitude i base sign) = plainText i base sign letbase := rfl
  have hdigits : ∀ d ∈ List.replicate p 0 ++ ds ++
      List.replicate (zerosRight (plainText i base sign letbase) width flags) 0, d < base := by
    intro d hd
    simp only [List.mem_append, List.mem_replicate] at hd
    rcases hd with (⟨-, rfl⟩ | hd) | ⟨-, rfl⟩
    · omega
    · exact hlt d hd
    · omega
  rw [htext, hplain, (((spells_zeros p).append hspells).append (spells_zeros _)).readNumber_eq
    (by simp [hne]) hdigits, value_append_zeros, value_zeros_append, hvalue, numberOf_eq]
  have hpow : ∀ q m : ℕ, base ^ q * m = m ↔ q = 0 ∨ m = 0 := by
    intro q m
    rw [mul_left_eq_self₀, Nat.pow_eq_one]
    omega
  rw [← zerosRight_eq_zero_iff, ← @magnitude_eq_zero_iff base i sign, ← hpow, Option.some.injEq]
  split
  · rw [neg_inj]
    exact Int.natCast_inj
  · exact Int.natCast_inj

/-- **What `simple_outputi` prints reads back as the argument.** It fails on the binary numbers of
64 digits, on the least `long long`, and on a negative number behind zeros in the least width; else
its field has the width or the length of the number, and the number is read back from it, unless
zeros are padded on the right of it. -/
theorem simpleOutputi_reads (hb : 1 < base) (hb36 : base ≤ 36) (hl : letbase = 'a' ∨ letbase = 'A')
    (out : Sink) (i : BitVec 64) (sign : Bool) (hwidth : IsInt width) (flags : Flags) :
    (∀ e, simpleOutputi out i base sign width flags letbase = .error e ↔
      (e = .underrun ∧ base = 2 ∧ 2 ^ 63 ≤ i.toNat) ∨
      (e = .overflow ∧ numberOf i base sign < 0 ∧
        (numberOf i base sign = -2 ^ 63 ∨ (flags.padZero = true ∧ width = -2 ^ 31)))) ∧
    ∀ r, simpleOutputi out i base sign width flags letbase = .ok r →
      ∃ text, r = ((text.length : ℤ), out.map (· ++ text)) ∧
        text.length = max (plainText i base sign letbase).length width.toNat ∧
        (readNumber base text = some (numberOf i base sign) ↔
          ¬ (flags.padZero = true ∧ flags.padRight = true ∧
            (plainText i base sign letbase).length < width) ∨ i = 0) := by
  rw [simpleOutputi_eq hb out i sign hwidth]
  unfold numberField
  simp only [← overflows_iff]
  have hfits := @fits_iff base i sign hb
  by_cases hover : Overflows i base sign width flags
  · obtain ⟨rfl, -⟩ := magnitude_of_negative hover.1
    rw [if_pos hover]
    refine ⟨fun e => ?_, fun r hr => by cases hr⟩
    constructor
    · intro h
      exact .inr ⟨(Except.error.inj h).symm, hover⟩
    · rintro (⟨-, h, -⟩ | ⟨rfl, -⟩)
      · cases h
      · rfl
  · rw [if_neg hover]
    by_cases hfit : magnitude i base sign < base ^ 63
    · rw [if_pos hfit]
      refine ⟨fun e => ?_, fun r hr => ?_⟩
      · constructor
        · intro h
          cases h
        · rintro (⟨-, h⟩ | ⟨-, h⟩)
          · exact absurd h (hfits.mp hfit)
          · exact absurd h hover
      · obtain ⟨hlen, hread⟩ := @numberText_reads base letbase i sign width flags hb hb36 hl
        exact ⟨_, (Except.ok.inj hr).symm, hlen, hread⟩
    · rw [if_neg hfit]
      refine ⟨fun e => ?_, fun r hr => by cases hr⟩
      constructor
      · intro h
        exact .inl ⟨(Except.error.inj h).symm, not_not.mp fun h => hfit (hfits.mpr h)⟩
      · rintro (⟨rfl, -⟩ | ⟨-, h⟩)
        · rfl
        · exact absurd h hover

/-- `-1` is too long in binary, and the least width too small; `-42` behind zeros. -/
theorem simpleOutputi_reads_samples :
    simpleOutputi none (-1) 2 true 0 ⟨false, false⟩ 'a' = .error .underrun ∧
    simpleOutputi none (-5) 10 true (-2 ^ 31) ⟨true, false⟩ 'a' = .error .overflow ∧
    ∃ text, simpleOutputi (some []) (-42) 10 true 6 ⟨true, false⟩ 'a' = .ok (6, some text) ∧
      readNumber 10 text = some (-42) := by
  have hint : IsInt 0 ∧ IsInt (-2 ^ 31) ∧ IsInt 6 := by decide
  refine ⟨((simpleOutputi_reads (by omega) (by omega) (.inl rfl) _ _ _ hint.1 _).1 _).mpr
    (by decide), ((simpleOutputi_reads (by omega) (by omega) (.inl rfl) _ _ _ hint.2.1 _).1 _).mpr
    (by decide), ?_⟩
  have h := (simpleOutputi_reads (show 1 < 10 by omega) (by omega) (.inl rfl) (some []) (-42) true
    hint.2.2 ⟨true, false⟩).2
  cases hr : simpleOutputi (some []) (-42) 10 true 6 ⟨true, false⟩ 'a' with
  | error e => exact absurd hr (by cases e <;> decide)
  | ok r =>
    obtain ⟨text, rfl, hlen, hread⟩ := h r hr
    have hlen6 : text.length = 6 := hlen.trans (by decide)
    exact ⟨text, by simp [hlen6], hread.mpr (.inl (by decide))⟩

end Printed

end Umko.Mylibc

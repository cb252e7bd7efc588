import Umko.Mylibc.Printf

/-!
# What is left in the union

`%hu` and its kin put a `short` or a `char` into the union and print all of it, so that they print
what an earlier conversion, or nobody, has left in the upper bits. The text of a format is that of
its arguments alone exactly when each of them comes behind a conversion that writes the whole union.
-/

namespace Umko.Mylibc

open Lib.Numeral Lib.Memory Lib.BitField

/-! ### Two runs -/

/-- Two computations fail alike, or have results in the relation. -/
inductive Both {α : Type} (R : α → α → Prop) : Except Fault α → Except Fault α → Prop where
  | error (e : Fault) : Both R (.error e) (.error e)
  | ok {a b : α} (h : R a b) : Both R (.ok a) (.ok b)

section Both

variable {α β : Type} {R : α → α → Prop} {S : β → β → Prop} {x y : Except Fault α}

theorem Both.bind (h : Both R x y) {f g : α → Except Fault β}
    (hf : ∀ a b, R a b → Both S (f a) (g b)) : Both S (x >>= f) (y >>= g) := by
  cases h with
  | error e => exact .error e
  | ok h => exact hf _ _ h

theorem Both.of_eq (hR : ∀ a, R a a) (h : x = y) : Both R x y := by
  subst h
  cases x with
  | error e => exact .error e
  | ok a => exact .ok (hR a)

theorem Both.exists_ok (h : Both R x y) {a : α} (hx : x = .ok a) : ∃ b, y = .ok b ∧ R a b := by
  cases h with
  | error e => cases hx
  | ok h =>
    obtain rfl := Except.ok.inj hx
    exact ⟨_, rfl, h⟩

end Both

/-! ### Members -/

/-- The bits of the union that a conversion writes. -/
def Conv.bits : Conv → ℕ
  | .number store .. => store.bits
  | .char => 8
  | .string => 64
  | .none => 0

/-- A conversion prints bits of the union that it has not written. -/
def Conv.leaks : Conv → Bool
  | .number store load _ _ _ => decide (store.bits < load.bits)
  | _ => false

def Item.bits : Item → ℕ
  | .directive _ code _ => code.conv.bits
  | _ => 0

def Item.leaks : Item → Bool
  | .directive _ code _ => code.conv.leaks
  | _ => false

/-- No item prints bits of the union that none has written. -/
def Settled : List Item → Prop
  | [] => True
  | item :: items => item.leaks = false ∧ (item.bits = 64 ∨ Settled items)

section Members

variable {m : Member} {u u' a : BitVec 64}

theorem read_write (h : m.bits ≤ 64) : m.read (m.write u a) = m.read a := by
  unfold Member.read
  rw [setWidth_write h]

theorem write_all (h : m.bits = 64) : m.write u a = a := by
  have hw := @setWidth_write m h.le u a
  obtain ⟨bits, signed⟩ := m
  subst h
  rwa [BitVec.setWidth_eq, BitVec.setWidth_eq] at hw

/-- Two contents of the union with the same low half, and upper halves that show. -/
def Probe (u u' : BitVec 64) : Prop :=
  ∃ lo : BitVec 32, u = 0x80000000#32 ++ lo ∧ u' = 0x80000001#32 ++ lo

theorem setField_append (hi lo : BitVec 32) {n : ℕ} (hn : n ≤ 32) (v : BitVec 64) :
    setField (hi ++ lo) 0 n v = hi ++ setField lo 0 n v := by
  apply BitVec.eq_of_getLsbD_eq
  intro i hi'
  rw [getLsbD_setField _ _ _ _ hi', BitVec.getLsbD_append, BitVec.getLsbD_append]
  by_cases hlt : i < 32
  · rw [getLsbD_setField _ _ _ _ hlt]
    simp [hlt]
  · simp [hlt, show ¬ i < n by omega]

theorem Probe.write (h : Probe u u') (hm : m.bits ≤ 32) (a : BitVec 64) :
    Probe (m.write u a) (m.write u' a) := by
  obtain ⟨lo, rfl, rfl⟩ := h
  exact ⟨setField lo 0 m.bits a, setField_append _ _ hm a, setField_append _ _ hm a⟩

theorem Probe.toNat (h : Probe u u') : 2 ^ 63 ≤ u.toNat ∧ u'.toNat = u.toNat + 2 ^ 32 ∧
    u'.toNat < 2 ^ 63 + 2 ^ 33 := by
  obtain ⟨lo, rfl, rfl⟩ := h
  have hlo := lo.isLt
  have happend : ∀ hi : BitVec 32, (hi ++ lo).toNat = hi.toNat * 2 ^ 32 + lo.toNat := by
    intro hi
    rw [BitVec.toNat_append, ← Nat.shiftLeft_add_eq_or_of_lt hlo, Nat.shiftLeft_eq]
  rw [happend, happend]
  simp only [BitVec.toNat_ofNat]
  omega

end Members

/-! ### Texts of one length -/

section Texts

variable {base n n' : ℕ} {letbase : Char} {s s' : List Char} {width : ℤ} {flags : Flags}

theorem length_digitsText (hb : 1 < base) {k : ℕ} (h : base ^ k ≤ n) (h' : n < base ^ (k + 1)) :
    (digitsText base letbase n).length = k + 1 := by
  have hn : n ≠ 0 := by
    rintro rfl
    exact absurd h (not_le.mpr (pow_pos (by omega) k))
  rw [digitsText, if_neg hn, List.length_map]
  have hle := (@length_numeral_le_iff base n (k + 1) hb).mpr h'
  have hlt := (@length_numeral_le_iff base n k hb).not.mpr (not_lt.mpr h)
  omega

theorem digitsText_inj (hb : 1 < base) (hb36 : base ≤ 36) (hl : letbase = 'a' ∨ letbase = 'A')
    (h : digitsText base letbase n = digitsText base letbase n') : n = n' := by
  obtain ⟨ds, hds, -, -, rfl⟩ := spells_digitsText hb hb36 hl n
  obtain ⟨ds', hds', -, -, rfl⟩ := spells_digitsText hb hb36 hl n'
  have hmap : ds.map some = ds'.map some := by rw [← hds, ← hds', h]
  rw [List.map_injective_iff.mpr (Option.some_injective _) hmap]

theorem pad_inj (hlen : s.length = s'.length) (h : pad s width flags = pad s' width flags) :
    s = s' := by
  unfold pad at h
  rw [hlen] at h
  dsimp only at h
  split at h
  · exact List.append_cancel_right h
  · exact List.append_cancel_left h

end Texts

/-! ### One conversion twice -/

/-- The results of a conversion from two contents of the union: the same text and arguments, and
the same content behind a conversion that writes all of it. Where the contents show, a conversion
that leaks shows them. -/
structure Near (leaks : Bool) (bits : ℕ) (u u' : BitVec 64) (r r' : List Char × Args) : Prop where
  ap : r.2.ap = r'.2.ap
  text : leaks = false → r.1 = r'.1
  whole : bits = 64 → r.2.u = r'.2.u
  length : Probe u u' → r.1.length = r'.1.length
  shown : Probe u u' → leaks = true → r.1 ≠ r'.1
  probe : Probe u u' → bits ≠ 64 → Probe r.2.u r'.2.u

section Twice

variable {str : Addr → List Char} {width : ℤ} {flags : Flags} {ap : List (BitVec 64)}
  {u u' : BitVec 64}

theorem near_of_text {bits : ℕ} {text : List Char} {v v' : BitVec 64} (whole : bits = 64 → v = v')
    (probe : Probe u u' → bits ≠ 64 → Probe v v') :
    Near false bits u u' (text, ⟨ap, v⟩) (text, ⟨ap, v'⟩) where
  ap := rfl
  text _ := rfl
  whole := whole
  length _ := rfl
  shown _ h := Bool.noConfusion h
  probe := probe

theorem near_of_unwritten {bits : ℕ} (h : bits ≠ 64) (text : List Char) :
    Near false bits u u' (text, ⟨ap, u⟩) (text, ⟨ap, u'⟩) :=
  near_of_text (fun h' => absurd h' h) fun hp _ => hp

theorem magnitude_lli (u : BitVec 64) (base : ℕ) :
    magnitude (Member.lli.read u) base false = u.toNat := by
  have hread : Member.lli.read u = u := (BitVec.signExtend_eq _).trans (BitVec.setWidth_eq _)
  rw [magnitude, negative, Bool.false_and, Bool.false_and, hread]
  rfl

theorem numberField_lli {base : ℕ} (hb : 2 < base) (u : BitVec 64) (width : ℤ) (flags : Flags)
    (letbase : Char) : numberField (Member.lli.read u) base false width flags letbase =
      .ok (pad (digitsText base letbase u.toNat) width flags) := by
  have hneg : negative (Member.lli.read u) base false = false := rfl
  have hover : ¬ Overflows (Member.lli.read u) base false width flags :=
    fun h => Bool.noConfusion (hneg ▸ h.1)
  have hfit : magnitude (Member.lli.read u) base false < base ^ 63 :=
    (fits_iff (by omega)).mpr fun h => by omega
  rw [numberField, if_neg hover, if_pos hfit, hneg, magnitude_lli]
  rfl

theorem Probe.texts (h : Probe u u') {base : ℕ} (hbase : base = 10 ∨ base = 16) {letbase : Char}
    (hl : letbase = 'a' ∨ letbase = 'A') (width : ℤ) (flags : Flags) :
    (pad (digitsText base letbase u.toNat) width flags).length =
        (pad (digitsText base letbase u'.toNat) width flags).length ∧
      pad (digitsText base letbase u.toNat) width flags ≠
        pad (digitsText base letbase u'.toNat) width flags := by
  obtain ⟨hlow, hadd, hhigh⟩ := h.toNat
  obtain ⟨k, hb, hb36, hk, hk'⟩ : ∃ k, 1 < base ∧ base ≤ 36 ∧ base ^ k ≤ 2 ^ 63 ∧
      2 ^ 63 + 2 ^ 33 ≤ base ^ (k + 1) := by
    rcases hbase with rfl | rfl
    · exact ⟨18, by norm_num⟩
    · exact ⟨15, by norm_num⟩
  have hlen : (digitsText base letbase u.toNat).length =
      (digitsText base letbase u'.toNat).length := by
    rw [length_digitsText hb (hk.trans hlow) (by omega),
      length_digitsText hb (hk.trans (show 2 ^ 63 ≤ u'.toNat by omega)) (by omega)]
  refine ⟨by rw [length_pad, length_pad, hlen], fun heq => ?_⟩
  have := digitsText_inj hb hb36 hl (pad_inj hlen heq)
  omega

theorem near_number {store load : Member} {base : ℕ} {sign : Bool} {letbase : Char}
    (hok : (Conv.number store load base sign letbase).Ok) (u u' : BitVec 64) :
    let conv := Conv.number store load base sign letbase
    Both (Near conv.leaks conv.bits u u') (conv.eval str width flags ⟨ap, u⟩)
      (conv.eval str width flags ⟨ap, u'⟩) := by
  intro conv
  obtain ⟨⟨⟨hb, hb36⟩, hl⟩, hbits, hload⟩ := hok
  cases ap with
  | nil => exact .error _
  | cons a ap =>
    have heval : ∀ u, conv.eval str width flags ⟨a :: ap, u⟩ =
        numberField (load.read (store.write u a)) base sign width flags letbase >>= fun text =>
          .ok (text, ⟨ap, store.write u a⟩) := fun _ => rfl
    have hwhole : store.bits = 64 → store.write u a = store.write u' a := by
      intro h
      rw [write_all h, write_all h]
    have hprobe : Probe u u' → store.bits ≠ 64 → Probe (store.write u a) (store.write u' a) :=
      fun h hne => h.write (hbits.resolve_right hne) a
    rw [heval, heval]
    rcases hload with rfl | ⟨rfl, h32, rfl, hbase⟩
    · have hle : load.bits ≤ 64 := by omega
      have hleaks : conv.leaks = false := decide_eq_false (lt_irrefl _)
      rw [read_write hle, read_write hle, hleaks]
      cases numberField (load.read a) base sign width flags letbase with
      | error e => exact .error e
      | ok text => exact .ok (near_of_text hwhole hprobe)
    · have hleaks : conv.leaks = true := decide_eq_true (show store.bits < 64 by omega)
      have htexts : Probe u u' → _ := fun h =>
        (hprobe h (by omega)).texts hbase hl width flags
      rw [numberField_lli (by omega), numberField_lli (by omega), hleaks]
      exact .ok ⟨rfl, fun h => Bool.noConfusion h, hwhole, fun h => (htexts h).1,
        fun h _ => (htexts h).2, hprobe⟩

theorem near_conv {conv : Conv} (hok : conv.Ok) (u u' : BitVec 64) :
    Both (Near conv.leaks conv.bits u u') (conv.eval str width flags ⟨ap, u⟩)
      (conv.eval str width flags ⟨ap, u'⟩) := by
  cases conv with
  | number store load base sign letbase => exact near_number hok u u'
  | none => exact .ok (near_of_unwritten (by decide) _)
  | char =>
    cases ap with
    | nil => exact .error _
    | cons a ap =>
      show Both _ (field _ _ _ >>= _) (field _ _ _ >>= _)
      refine (Both.of_eq (fun _ => rfl) rfl : Both (fun t t' => t = t') _ _).bind ?_
      rintro text _ rfl
      exact .ok (near_of_text (fun h => absurd h (by decide)) fun h _ => h.write (by decide) a)
  | string =>
    cases ap with
    | nil => exact .error _
    | cons a ap =>
      show Both _ (field _ _ _ >>= _) (field _ _ _ >>= _)
      refine (Both.of_eq (fun _ => rfl) rfl : Both (fun t t' => t = t') _ _).bind ?_
      rintro text _ rfl
      exact .ok (near_of_text (fun _ => rfl) fun _ h => absurd rfl h)

theorem both_width (w : Width) (ap : List (BitVec 64)) (u u' : BitVec 64) :
    Both (fun r r' => ∃ n ap, r = (n, ⟨ap, u⟩) ∧ r' = (n, ⟨ap, u'⟩)) (w.eval ⟨ap, u⟩)
      (w.eval ⟨ap, u'⟩) := by
  cases w with
  | star =>
    cases ap with
    | nil => exact .error _
    | cons a ap => exact .ok ⟨_, _, rfl, rfl⟩
  | digits l digit first =>
    rw [Width.eval, Width.eval]
    split
    · exact .ok ⟨_, _, rfl, rfl⟩
    · exact .error _

theorem near_item (item : Item) (ap : List (BitVec 64)) (u u' : BitVec 64) :
    Both (Near item.leaks item.bits u u') (item.eval str ⟨ap, u⟩) (item.eval str ⟨ap, u'⟩) := by
  cases item with
  | char c plain => exact .ok (near_of_unwritten (by simp [Item.bits]) _)
  | percent => exact .ok (near_of_unwritten (by simp [Item.bits]) _)
  | directive head code follows =>
    refine (both_width head.width ap u u').bind ?_
    rintro _ _ ⟨n, ap, rfl, rfl⟩
    exact near_conv code.ok_conv u u'

end Twice

/-! ### A format twice -/

section Formats

variable {str : Addr → List Char} {items : List Item} {ap : List (BitVec 64)} {u u' : BitVec 64}

/-- A format from two contents of the union, where none of them shows or all of them do: as many
characters are counted, and the texts are the same when none shows. -/
theorem both_evalAll (str : Addr → List Char) (items : List Item) (pc : ℤ)
    (ap : List (BitVec 64)) (h : Settled items ∨ Probe u u') :
    Both (fun r r' => r.1 = r'.1 ↔ Settled items) (evalAll str items pc ⟨ap, u⟩)
      (evalAll str items pc ⟨ap, u'⟩) := by
  induction items generalizing pc ap u u' with
  | nil => exact .ok (iff_of_true rfl trivial)
  | cons item items ih =>
    refine (near_item item ap u u').bind ?_
    rintro ⟨t, ap, v⟩ ⟨t', ap', v'⟩ near
    obtain rfl : ap = ap' := near.ap
    have hlen : t.length = t'.length := h.elim (fun hs => congrArg _ (near.text hs.1)) near.length
    have htext : t = t' ↔ item.leaks = false := by
      refine ⟨fun ht => ?_, near.text⟩
      by_contra hleaks
      exact near.shown (h.resolve_left fun hs => hleaks hs.1) (Bool.not_eq_false _ ▸ hleaks) ht
    dsimp only
    rw [hlen]
    refine (Both.of_eq (fun _ => rfl) rfl : Both (fun n n' => n = n') _ _).bind ?_
    rintro pc _ rfl
    by_cases hwhole : item.bits = 64
    · obtain rfl : v = v' := near.whole hwhole
      refine (Both.of_eq (fun _ => rfl) rfl : Both (fun r r' => r = r') _ _).bind ?_
      rintro r _ rfl
      refine .ok ?_
      show t ++ r.1 = t' ++ r.1 ↔ item.leaks = false ∧ (item.bits = 64 ∨ Settled items)
      rw [List.append_left_inj, htext]
      exact ⟨fun hleaks => ⟨hleaks, .inl hwhole⟩, And.left⟩
    · have hnext : Settled items ∨ Probe v v' :=
        h.imp (fun hs => hs.2.resolve_left hwhole) fun hp => near.probe hp hwhole
      refine (ih pc ap hnext).bind ?_
      rintro r r' hr
      refine .ok ?_
      have hsplit : t ++ r.1 = t' ++ r'.1 ↔ t = t' ∧ r.1 = r'.1 :=
        ⟨fun heq => List.append_inj heq hlen, fun h => by rw [h.1, h.2]⟩
      show t ++ r.1 = t' ++ r'.1 ↔ item.leaks = false ∧ (item.bits = 64 ∨ Settled items)
      rw [hsplit, htext, hr]
      exact and_congr_right fun _ => (or_iff_right hwhole).symm

theorem exists_ok_of_map {α β : Type} {x : Except Fault α} {f : α → β} {b : β}
    (h : x.map f = .ok b) : ∃ a, x = .ok a ∧ f a = b := by
  cases x with
  | error e => cases h
  | ok a => exact ⟨a, rfl, Except.ok.inj h⟩

theorem Tail.eval_ok {tail : Tail} {args args' : Args} (h : tail.eval args = .ok args')
    (args'' : Args) : tail.eval args'' = .ok args'' := by
  cases tail with
  | nothing => rfl
  | percent => rfl
  | cut head modifiers modified follows started =>
    obtain ⟨r, -, h⟩ := bind_eq_ok.mp h
    cases h

/-- **The text of a format is that of its arguments alone** exactly when each conversion that prints
all of the union and writes a part of it comes behind one that writes the whole: elsewhere some
content of the uninitialized union shows in the text. -/
theorem simpleVsprintf_settled {tail : Tail} {text : Sink}
    (h : (simpleVsprintf str u (some []) (render items ++ tail.render) ap).map (·.out) = .ok text) :
    (∀ u', (simpleVsprintf str u' (some []) (render items ++ tail.render) ap).map (·.out) =
      .ok text) ↔ Settled items := by
  have hrun : ∀ v, (simpleVsprintf str v (some []) (render items ++ tail.render) ap).map (·.out) =
      evalAll str items 0 ⟨ap, v⟩ >>= fun r => (tail.eval r.2).map fun _ => some r.1 := by
    intro v
    rw [simpleVsprintf_render]
    cases evalAll str items 0 ⟨ap, v⟩ with
    | error e => rfl
    | ok r =>
      show ((tail.eval r.2).map _).map _ = (tail.eval r.2).map _
      cases tail.eval r.2 <;> rfl
  simp only [hrun] at h ⊢
  constructor
  · intro hfixed
    by_contra hs
    have hprobe : Probe (0x80000000#32 ++ 0#32) (0x80000001#32 ++ 0#32) := ⟨_, rfl, rfl⟩
    obtain ⟨p, hp, houtp⟩ := bind_eq_ok.mp (hfixed (0x80000000#32 ++ 0#32))
    obtain ⟨p', hp', houtp'⟩ := bind_eq_ok.mp (hfixed (0x80000001#32 ++ 0#32))
    obtain ⟨q, hq, hne⟩ := (both_evalAll str items 0 ap (.inr hprobe)).exists_ok hp
    obtain rfl := Except.ok.inj (hp'.symm.trans hq)
    obtain ⟨-, -, houtp⟩ := exists_ok_of_map houtp
    obtain ⟨-, -, houtp'⟩ := exists_ok_of_map houtp'
    exact hs (hne.mp (Option.some.inj (houtp.trans houtp'.symm)))
  · intro hs u'
    obtain ⟨r, hr, hout⟩ := bind_eq_ok.mp h
    obtain ⟨r', hr', heq⟩ := (both_evalAll str items 0 ap (.inl hs)).exists_ok hr
    obtain ⟨args, hargs, rfl⟩ := exists_ok_of_map hout
    rw [hr', ok_bind, Tail.eval_ok hargs, heq.mpr hs]
    rfl

/-- `%hu` alone, and behind `%ld`. -/
theorem simpleVsprintf_settled_samples :
    (¬ ∀ u, (simpleVsprintf (fun _ => []) u (some []) "%hu".toList [7]).map (·.out) =
      .ok (some ['7'])) ∧
    ∀ u, (simpleVsprintf (fun _ => []) u (some []) "%ld%hu".toList [1, 7]).map (·.out) =
      .ok (some ['1', '7']) := by
  let bare : Head := ⟨false, 0, .digits [] (by simp) (by simp)⟩
  have hbare : ∀ c, ¬ IsDigit c → c ≠ '*' ∧ c ≠ '-' ∧ c ≠ '%' → bare.Follows c :=
    fun c hc h => ⟨hc, fun _ => ⟨h.1, fun _ _ => h.2⟩⟩
  let hu : Item := .directive bare (.once .h 'u' (by decide)) (hbare 'h' (by decide) (by decide))
  let ld : Item := .directive bare (.once .l 'd' (by decide)) (hbare 'l' (by decide) (by decide))
  have hleaks : ¬ Settled [hu] := fun h => Bool.noConfusion h.1
  have hsettled : Settled [ld, hu] := ⟨rfl, .inl rfl⟩
  constructor
  · have hrun : (simpleVsprintf (fun _ => []) 0 (some []) "%hu".toList [7]).map (·.out) =
        .ok (some ['7']) := by decide +kernel
    exact (@simpleVsprintf_settled _ [hu] _ _ .nothing _ hrun).not.mpr hleaks
  · have hrun : (simpleVsprintf (fun _ => []) 0 (some []) "%ld%hu".toList [1, 7]).map (·.out) =
        .ok (some ['1', '7']) := by decide +kernel
    exact (@simpleVsprintf_settled _ [ld, hu] _ _ .nothing _ hrun).mpr hsettled

end Formats

end Umko.Mylibc

import Umko.Mylibc.Output

/-!
# The language of the formats

A format as a sequence of characters and conversions, with a meaning that knows nothing of cursors
and loops: the text that each of them stands for, and the arguments that it takes. The routines that
read a conversion find it as it is written.
-/

namespace Umko.Mylibc

open Lib.Numeral Lib.Memory Lib.BitField

/-! ### Conversions -/

def IsDigit (c : Char) : Prop := '0'.toNat ≤ c.toNat ∧ c.toNat ≤ '9'.toNat

instance (c : Char) : Decidable (IsDigit c) := inferInstanceAs (Decidable (_ ∧ _))

/-- A field width: digits that do not start with `0`, or an argument. -/
inductive Width where
  | digits (l : List Char) (digit : ∀ c ∈ l, IsDigit c) (first : l.head? ≠ some '0')
  | star

def Width.render : Width → List Char
  | .digits l _ _ => l
  | .star => ['*']

structure Head where
  minus : Bool
  zeros : ℕ
  width : Width

namespace Head

def flags (h : Head) : Flags := ⟨decide (0 < h.zeros), h.minus⟩

def render (h : Head) : List Char :=
  (if h.minus then ['-'] else []) ++ (List.replicate h.zeros '0' ++ h.width.render)

/-- The character is not taken for a part of the head in front of it. -/
def Follows (h : Head) (c : Char) : Prop :=
  match h.width with
  | .star => True
  | .digits l _ _ => ¬ IsDigit c ∧ (l = [] → c ≠ '*' ∧ (h.zeros = 0 → h.minus = false →
      c ≠ '-' ∧ c ≠ '%'))

end Head

/-- `l` or `h`. -/
inductive Modifier where
  | l
  | h
  deriving DecidableEq

def Modifier.char : Modifier → Char
  | .l => 'l'
  | .h => 'h'

/-- The characters that the `switch` reads. -/
inductive Code where
  | plain (c : Char) (notL : c ≠ 'l') (notH : c ≠ 'h')
  | once (m : Modifier) (c : Char) (other : c ≠ m.char)
  | twice (m : Modifier) (c : Char)

namespace Code

def init : Code → List Char
  | .plain .. => []
  | .once m .. => [m.char]
  | .twice m _ => [m.char, m.char]

def last : Code → Char
  | .plain c _ _ => c
  | .once _ c _ => c
  | .twice _ c => c

def render (k : Code) : List Char := k.init ++ [k.last]

/-- The `case` of the characters. -/
def conv : Code → Conv
  | .plain c _ _ => plainSwitch c
  | .once .l c _ => lSwitch c
  | .once .h c _ => hSwitch c
  | .twice .l c => llSwitch c
  | .twice .h c => hhSwitch c

end Code

/-! ### Meaning -/

/-- The arguments that are left, and the union. -/
structure Args where
  ap : List (BitVec 64)
  u : BitVec 64

/-- A text, and the arguments behind it. -/
abbrev Eval := Args → Except Fault (List Char × Args)

def Width.eval (w : Width) (args : Args) : Except Fault (ℤ × Args) :=
  match w with
  | .digits l _ _ =>
    let n := value 10 (l.map fun c => c.toNat - '0'.toNat)
    if n < 2 ^ 31 then .ok (n, args) else .error .overflow
  | .star => do
    let (a, ap) ← vaArg args.ap
    .ok ((a.setWidth 32).toInt, { args with ap := ap })

def Conv.eval (str : Addr → List Char) (conv : Conv) (width : ℤ) (flags : Flags) : Eval :=
  fun args => do
    match conv with
    | .none => .ok ([], args)
    | .number store load base sign letbase =>
      let (a, ap) ← vaArg args.ap
      let u := store.write args.u a
      let text ← numberField (load.read u) base sign width flags letbase
      .ok (text, ⟨ap, u⟩)
    | .char =>
      let (a, ap) ← vaArg args.ap
      let c := Char.ofNat (a.toNat % 256)
      let text ← field (if c = nul then [] else [c]) width flags
      .ok (text, ⟨ap, Member.c.write args.u a⟩)
    | .string =>
      let (a, ap) ← vaArg args.ap
      let text ← field (if a ≠ 0 then str a else "(null)".toList) width flags
      .ok (text, ⟨ap, a⟩)

/-- A character for itself, `%%`, or a conversion. -/
inductive Item where
  | char (c : Char) (plain : c ≠ '%')
  | percent
  | directive (head : Head) (code : Code) (follows : head.Follows (deref code.render))

namespace Item

def render : Item → List Char
  | .char c _ => [c]
  | .percent => ['%', '%']
  | .directive head code _ => '%' :: (head.render ++ code.render)

/-- The lines that it ends. -/
def newlines : Item → ℕ
  | .char c _ => if c = '\n' then 1 else 0
  | _ => 0

def eval (str : Addr → List Char) : Item → Eval
  | .char c _, args => .ok (if c = '\n' then ['\r', '\n'] else [c], args)
  | .percent, args => .ok (['%'], args)
  | .directive head code _, args => do
    let (width, args) ← head.width.eval args
    code.conv.eval str width head.flags args

end Item

def render (items : List Item) : List Char := items.flatMap Item.render

def newlines (items : List Item) : ℕ := (items.map Item.newlines).sum

/-- The text of the items, behind so many characters that are counted: all of them but one for each
line. -/
def evalAll (str : Addr → List Char) : List Item → ℤ → Eval
  | [], _, args => .ok ([], args)
  | item :: items, pc, args => do
    let (text, args) ← item.eval str args
    let pc ← int (pc + (text.length - item.newlines))
    let (text', args) ← evalAll str items pc args
    .ok (text ++ text', args)

/-! ### Reading a conversion -/

section Reading

variable {rest : List Char} {head : Head}

theorem isDigit_ne {c d : Char} (h : IsDigit c) (hd : ¬ IsDigit d) : c ≠ d := by
  rintro rfl
  exact hd h

theorem deref_head (hf : head.Follows (deref rest)) (hm : head.minus = false) :
    deref (List.replicate head.zeros '0' ++ (head.width.render ++ rest)) ≠ '-' := by
  obtain ⟨minus, zeros, width⟩ := head
  cases zeros with
  | succ n => exact (by decide : '0' ≠ '-')
  | zero =>
    cases width with
    | star => exact (by decide : '*' ≠ '-')
    | digits l digit first =>
      cases l with
      | nil => exact ((hf.2 rfl).2 rfl hm).1
      | cons c l => exact isDigit_ne (digit c List.mem_cons_self) (by decide)

theorem minusFlag_head (hf : head.Follows (deref rest)) :
    minusFlag (head.render ++ rest) =
      (List.replicate head.zeros '0' ++ (head.width.render ++ rest), ⟨false, head.minus⟩) := by
  unfold minusFlag Head.render
  cases hm : head.minus with
  | true => simp [deref]
  | false =>
    have hne := deref_head hf hm
    simp [hne]

theorem zeroLoop_replicate {l : List Char} (hl : deref l ≠ '0') (n : ℕ) (flags : Flags) :
    zeroLoop (List.replicate n '0' ++ l) flags =
      (l, { flags with padZero := flags.padZero || decide (0 < n) }) := by
  induction n generalizing flags with
  | zero =>
    cases l with
    | nil => simp [zeroLoop]
    | cons c l =>
      have hc : c ≠ '0' := hl
      simp [zeroLoop, hc]
  | succ n ih =>
    rw [List.replicate_succ, List.cons_append, zeroLoop, if_pos rfl, ih]
    simp

theorem deref_width (hf : head.Follows (deref rest)) :
    deref (head.width.render ++ rest) ≠ '0' := by
  obtain ⟨minus, zeros, width⟩ := head
  cases width with
  | star => exact (by decide : '*' ≠ '0')
  | digits l digit first =>
    cases l with
    | nil =>
      intro h
      exact hf.1 (h ▸ (by decide : IsDigit '0'))
    | cons c l =>
      rintro rfl
      exact first rfl

theorem widthLoop_digits (hrest : ¬ IsDigit (deref rest)) (l : List Char)
    (digit : ∀ c ∈ l, IsDigit c) (w : ℕ) (hw : w < 2 ^ 31) :
    let n := w * 10 ^ l.length + value 10 (l.map fun c => c.toNat - '0'.toNat)
    widthLoop (l ++ rest) w = if n < 2 ^ 31 then .ok (rest, (n : ℤ)) else .error .overflow := by
  induction l generalizing w with
  | nil =>
    have hn : w * 10 ^ 0 + value 10 [] = w := by simp [value]
    simp only [List.length_nil, List.map_nil, List.nil_append, hn, if_pos hw]
    cases rest with
    | nil => rfl
    | cons c rest =>
      rw [widthLoop]
      exact if_neg hrest
  | cons c l ih =>
    have hc := digit c List.mem_cons_self
    have hcast : (w : ℤ) * 10 + (c.toNat - '0'.toNat) = (w * 10 + (c.toNat - '0'.toNat) : ℕ) := by
      have := hc.1
      omega
    have hn : w * 10 ^ (l.length + 1) +
        value 10 ((c.toNat - '0'.toNat) :: l.map fun c => c.toNat - '0'.toNat) =
          (w * 10 + (c.toNat - '0'.toNat)) * 10 ^ l.length +
            value 10 (l.map fun c => c.toNat - '0'.toNat) := by
      have hcons := value_append 10 [c.toNat - '0'.toNat] (l.map fun c => c.toNat - '0'.toNat)
      rw [List.singleton_append] at hcons
      rw [hcons, List.length_map, show value 10 [c.toNat - '0'.toNat] = c.toNat - '0'.toNat by
        simp [value]]
      ring
    have hc' : '0'.toNat ≤ c.toNat ∧ c.toNat ≤ '9'.toNat := hc
    rw [List.cons_append, widthLoop, if_pos hc', hcast, List.length_cons, List.map_cons]
    dsimp only
    rw [hn]
    by_cases hlt : w * 10 + (c.toNat - '0'.toNat) < 2 ^ 31
    · rw [int_ok ⟨by omega, by exact_mod_cast hlt⟩, ok_bind]
      exact ih (fun c hc => digit c (List.mem_cons_of_mem _ hc)) _ hlt
    · have hlong : ¬ IsInt ((w * 10 + (c.toNat - '0'.toNat) : ℕ) : ℤ) :=
        fun h => hlt (by exact_mod_cast h.2)
      have hpow : 1 ≤ 10 ^ l.length := Nat.one_le_pow _ _ (by omega)
      rw [int, if_neg hlong, if_neg]
      · rfl
      · nlinarith

theorem widthOf_head (hf : head.Follows (deref rest)) (args : Args) :
    widthOf (head.width.render ++ rest) args.ap =
      (head.width.eval args).map fun r => (rest, r.1, r.2.ap) := by
  obtain ⟨minus, zeros, width⟩ := head
  cases width with
  | star =>
    show widthOf ('*' :: rest) args.ap = (Width.eval .star args).map _
    rw [widthOf, if_pos (show deref ('*' :: rest) = '*' from rfl)]
    obtain ⟨ap, u⟩ := args
    cases ap with
    | nil => rfl
    | cons a ap => rfl
  | digits l digit first =>
    have hstar : deref (l ++ rest) ≠ '*' := by
      cases l with
      | nil => exact (hf.2 rfl).1
      | cons c l => exact isDigit_ne (digit c List.mem_cons_self) (by decide)
    have hloop := widthLoop_digits hf.1 l digit 0 (by omega)
    show widthOf (l ++ rest) args.ap = (Width.eval (.digits l digit first) args).map _
    rw [widthOf, if_neg hstar, Width.eval]
    rw [Nat.cast_zero, Nat.zero_mul, Nat.zero_add] at hloop
    rw [hloop]
    dsimp only
    split <;> rfl

theorem convSwitch_code (code : Code) (rest : List Char) :
    convSwitch (code.render ++ rest) = .ok (code.conv, code.last :: rest) := by
  cases code with
  | plain c notL notH =>
    show convSwitch (c :: rest) = _
    rw [convSwitch, if_neg (show deref (c :: rest) ≠ 'l' from notL),
      if_neg (show deref (c :: rest) ≠ 'h' from notH)]
    rfl
  | once m c other =>
    have hsplit : ∀ once twice, modifierSwitch m.char once twice (m.char :: c :: rest) =
        .ok (once c, c :: rest) := fun once twice => if_neg other
    cases m with
    | l => exact (if_pos rfl).trans (hsplit _ _)
    | h => exact ((if_neg (by decide : 'h' ≠ 'l')).trans (if_pos rfl)).trans (hsplit _ _)
  | twice m c =>
    have hsplit : ∀ once twice, modifierSwitch m.char once twice (m.char :: m.char :: c :: rest) =
        .ok (twice c, c :: rest) := fun once twice => if_pos rfl
    cases m with
    | l => exact (if_pos rfl).trans (hsplit _ _)
    | h => exact ((if_neg (by decide : 'h' ≠ 'l')).trans (if_pos rfl)).trans (hsplit _ _)

/-- The bases, digits and members of the `switch`: a number is read back from the member that it was
put into, or an unsigned one from all of the union. -/
def Conv.Ok : Conv → Prop
  | .number store load base sign letbase =>
    ((1 < base ∧ base ≤ 36) ∧ (letbase = 'a' ∨ letbase = 'A')) ∧
      (store.bits ≤ 32 ∨ store.bits = 64) ∧ (load = store ∨
        (load = .lli ∧ store.bits ≤ 32 ∧ sign = false ∧ (base = 10 ∨ base = 16)))
  | _ => True

instance : DecidablePred Conv.Ok
  | .number .. => inferInstanceAs (Decidable (_ ∧ _))
  | .char | .string | .none => inferInstanceAs (Decidable True)

theorem Code.ok_conv (code : Code) : code.conv.Ok := by
  have hplain : ∀ c, (plainSwitch c).Ok := by
    intro c
    unfold plainSwitch
    split <;> decide
  have hl : ∀ c, (lSwitch c).Ok := by
    intro c
    unfold lSwitch
    split <;> decide
  have hll : ∀ c, (llSwitch c).Ok := by
    intro c
    unfold llSwitch
    split <;> decide
  have hh : ∀ c, (hSwitch c).Ok := by
    intro c
    unfold hSwitch
    split <;> decide
  have hhh : ∀ c, (hhSwitch c).Ok := by
    intro c
    unfold hhSwitch
    split <;> decide
  cases code with
  | plain c => exact hplain c
  | once m c => cases m with
    | l => exact hl c
    | h => exact hh c
  | twice m c => cases m with
    | l => exact hll c
    | h => exact hhh c

theorem setWidth_write {m : Member} (h : m.bits ≤ 64) (u v : BitVec 64) :
    (m.write u v).setWidth m.bits = v.setWidth m.bits := by
  rw [Member.write, ← extract_setField u v (show 0 + m.bits ≤ 64 by omega),
    BitVec.setWidth_eq_extractLsb' h]

theorem convert_eq {conv : Conv} (hconv : conv.Ok) (str : Addr → List Char) {width : ℤ}
    (hwidth : IsInt width) (flags : Flags) {st : PrintState} (hpc : IsInt st.pc) :
    convert str conv width flags st = conv.eval str width flags ⟨st.ap, st.u⟩ >>= fun r =>
      int (st.pc + r.1.length) >>= fun pc =>
        .ok ⟨st.out.map (· ++ r.1), pc, r.2.ap, r.2.u⟩ := by
  obtain ⟨out, pc, ap, u⟩ := st
  cases conv with
  | none =>
    show Except.ok _ = (int (pc + (0 : ℕ)) >>= _)
    rw [Nat.cast_zero, add_zero, int_ok hpc]
    simp
  | number store load base sign letbase =>
    cases ap with
    | nil => rfl
    | cons a ap =>
      show (simpleOutputi _ _ _ _ _ _ _ >>= _) = (numberField _ _ _ _ _ _ >>= _) >>= _
      rw [simpleOutputi_eq hconv.1.1.1 _ _ _ hwidth]
      cases numberField (load.read (store.write u a)) base sign width flags letbase <;> rfl
  | char =>
    cases ap with
    | nil => rfl
    | cons a ap =>
      have hread : (Member.c.read (Member.c.write u a)).toNat = a.toNat % 256 := by
        show ((((Member.c.write u a)).setWidth Member.c.bits).setWidth 64).toNat = _
        rw [setWidth_write (by decide)]
        simp [Member.c]
        omega
      show (prints _ _ _ _ >>= _) = (field _ _ _ >>= _) >>= _
      rw [hread, prints_eq _ _ hwidth.2]
      cases field (if Char.ofNat (a.toNat % 256) = nul then [] else [Char.ofNat (a.toNat % 256)])
        width flags <;> rfl
  | string =>
    cases ap with
    | nil => rfl
    | cons a ap =>
      have hwrite : Member.s.write u a = a := by
        have h := @setWidth_write Member.s (by decide) u a
        rwa [show Member.s.bits = 64 from rfl, BitVec.setWidth_eq, BitVec.setWidth_eq] at h
      have hread : Member.s.read a = a := (BitVec.setWidth_eq _).trans (BitVec.setWidth_eq _)
      show (prints _ _ _ _ >>= _) = (field _ _ _ >>= _) >>= _
      rw [hwrite, hread, prints_eq _ _ hwidth.2]
      cases field (if a ≠ 0 then str a else "(null)".toList) width flags <;> rfl

theorem isInt_of_width {w : Width} {args : Args} {r : ℤ × Args} (h : w.eval args = .ok r) :
    IsInt r.1 := by
  cases w with
  | star =>
    obtain ⟨a, -, h⟩ := bind_eq_ok.mp h
    obtain rfl := Except.ok.inj h
    exact ⟨BitVec.le_toInt _, BitVec.toInt_lt⟩
  | digits l digit first =>
    rw [Width.eval] at h
    split at h
    · next hlt =>
      obtain rfl := Except.ok.inj h
      constructor
      · dsimp only
        omega
      · dsimp only
        exact_mod_cast hlt
    · cases h

theorem u_of_width {w : Width} {args : Args} {r : ℤ × Args} (h : w.eval args = .ok r) :
    r.2.u = args.u := by
  cases w with
  | star =>
    obtain ⟨a, -, h⟩ := bind_eq_ok.mp h
    obtain rfl := Except.ok.inj h
    rfl
  | digits l digit first =>
    rw [Width.eval] at h
    split at h
    · obtain rfl := Except.ok.inj h
      rfl
    · cases h

theorem deref_code (code : Code) (rest : List Char) :
    deref (code.render ++ rest) = deref code.render := by
  cases code <;> rfl

/-- **A whole conversion** has its meaning. -/
theorem directive_eq {code : Code} (hf : head.Follows (deref code.render)) (str : Addr → List Char)
    (rest : List Char) {st : PrintState} (hpc : IsInt st.pc) :
    directive str (head.render ++ (code.render ++ rest)) st =
      Item.eval str (.directive head code hf) ⟨st.ap, st.u⟩ >>= fun r =>
        int (st.pc + r.1.length) >>= fun pc =>
          .ok (code.last :: rest, ⟨st.out.map (· ++ r.1), pc, r.2.ap, r.2.u⟩) := by
  rw [← deref_code code rest] at hf
  have hflags : ({ padZero := (⟨false, head.minus⟩ : Flags).padZero || decide (0 < head.zeros)
                   padRight := (⟨false, head.minus⟩ : Flags).padRight } : Flags) = head.flags := by
    simp [Head.flags]
  unfold directive Item.eval
  rw [minusFlag_head hf]
  dsimp only
  rw [zeroLoop_replicate (deref_width hf), hflags]
  dsimp only
  rw [widthOf_head hf ⟨st.ap, st.u⟩]
  cases hw : head.width.eval ⟨st.ap, st.u⟩ with
  | error e => rfl
  | ok r =>
    have hu : r.2.u = st.u := u_of_width hw
    have hconvert := @convert_eq code.conv code.ok_conv str _ (isInt_of_width hw) head.flags
      { st with ap := r.2.ap } hpc
    show (convSwitch (code.render ++ rest) >>= fun c => _) = _
    rw [convSwitch_code]
    show (convert str code.conv r.1 head.flags { st with ap := r.2.ap } >>= fun c => _) = _
    rw [hconvert]
    show _ = code.conv.eval str r.1 head.flags r.2 >>= _
    rw [show (⟨r.2.ap, st.u⟩ : Args) = r.2 by rw [← hu]]
    cases code.conv.eval str r.1 head.flags r.2 with
    | error e => rfl
    | ok r =>
      show ((int (st.pc + r.1.length) >>= _) >>= _) = int (st.pc + r.1.length) >>= _
      cases int (st.pc + r.1.length) <;> rfl

end Reading

end Umko.Mylibc

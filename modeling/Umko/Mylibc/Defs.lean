import Umko.Lib.BitField
import Umko.Lib.Memory

/-!
# The `printf` of the examples

The formatted output of `examples/aarch64/mylibc.c`, which the example objects call: a format is
read up to its NUL, arguments are 64-bit slots, a `char` is unsigned, and what the C code does
beyond its buffers, its format, its arguments or its signed numbers is a fault.
-/

namespace Umko.Mylibc

open Lib.BitField Lib.Memory

/-- Where the C code leaves its objects or its types. -/
inductive Fault where
  /-- `++format` behind the NUL. -/
  | overread
  /-- `va_arg` behind the last argument. -/
  | noArg
  /-- A result that is no `int` or no `long long`. -/
  | overflow
  /-- `*--s` in front of `print_buf`. -/
  | underrun
  /-- A character behind `g_buff`. -/
  | overrun
  deriving DecidableEq

/-- The characters in front of the cursor `*str`, in a buffer without end; `none` for a null
`str`. -/
abbrev Sink := Option (List Char)

def simpleOutputchar (str : Sink) (c : Char) : Sink := str.map (· ++ [c])

/-- `enum flags` -/
structure Flags where
  padZero : Bool
  padRight : Bool
  deriving DecidableEq

/-- The range of `int`. -/
def IsInt (n : ℤ) : Prop := -2 ^ 31 ≤ n ∧ n < 2 ^ 31

instance : DecidablePred IsInt := fun _ => inferInstanceAs (Decidable (_ ∧ _))

/-- The result of an operation on `int`s. -/
def int (n : ℤ) : Except Fault ℤ := if IsInt n then .ok n else .error .overflow

/-- `for (; width > 0; --width)` around `simple_outputchar(out, padchar); ++pc;` -/
def padLoop (padchar : Char) : ℕ → ℤ × Sink → Except Fault (ℤ × Sink)
  | 0, st => .ok st
  | width + 1, st => do
    let pc ← int (st.1 + 1)
    padLoop padchar width (pc, simpleOutputchar st.2 padchar)

/-- `for (; *string; ++string)` around `simple_outputchar(out, *string); ++pc;` -/
def stringLoop : List Char → ℤ × Sink → Except Fault (ℤ × Sink)
  | [], st => .ok st
  | c :: string, st => do
    let pc ← int (st.1 + 1)
    stringLoop string (pc, simpleOutputchar st.2 c)

/-- `for (ptr = string; *ptr; ++ptr) ++len;` -/
def lenLoop : List Char → ℤ → Except Fault ℤ
  | [], len => .ok len
  | _ :: ptr, len => do
    let len ← int (len + 1)
    lenLoop ptr len

/-- The width that `prints` pads with. -/
def padWidth (string : List Char) (width : ℤ) : Except Fault ℤ :=
  if width > 0 then do
    let len ← lenLoop string 0
    .ok (if len ≥ width then 0 else width - len)
  else .ok width

/-- `prints`: what it returns, and the cursor behind its output. -/
def prints (out : Sink) (string : List Char) (width : ℤ) (flags : Flags) :
    Except Fault (ℤ × Sink) := do
  let padchar := if width > 0 ∧ flags.padZero then '0' else ' '
  let width ← padWidth string width
  if flags.padRight then
    let st ← stringLoop string (0, out)
    padLoop padchar width.toNat st
  else
    -- the last loop finds no width left
    let st ← padLoop padchar width.toNat (0, out)
    stringLoop string st

/-! ### Numbers -/

/-- `PRINT_BUF_LEN` -/
def printBufLen : ℕ := 64

/-- `t + '0'` after `if (t >= 10) t += letbase - '0' - 10;` -/
def digitChar (letbase : Char) (t : ℕ) : Char :=
  let t : ℤ := if t ≥ 10 then t + (letbase.toNat - '0'.toNat - 10) else t
  Char.ofNat (t + '0'.toNat).toNat

/-- `*--s = c`, where the characters from `s` on end in front of the NUL at the end of
`print_buf`. -/
def push (s : List Char) (c : Char) : Except Fault (List Char) :=
  if s.length + 1 < printBufLen then .ok (c :: s) else .error .underrun

/-- `while (u)`, in one round more than `print_buf` has places. -/
def digitLoop (base : ℕ) (letbase : Char) : ℕ → ℕ → List Char → Except Fault (List Char)
  | 0, _, _ => .error .underrun
  | n + 1, u, s =>
    if u = 0 then .ok s
    else do
      let s ← push s (digitChar letbase (u % base))
      digitLoop base letbase n (u / base) s

/-- `u = -i`, which the least `long long` has not. -/
def negate (i : BitVec 64) : Except Fault (BitVec 64) :=
  if i = BitVec.intMin 64 then .error .overflow else .ok (-i)

/-- `simple_outputi` -/
def simpleOutputi (out : Sink) (i : BitVec 64) (base : ℕ) (sign : Bool) (width : ℤ) (flags : Flags)
    (letbase : Char) : Except Fault (ℤ × Sink) :=
  if i = 0 then prints out ['0'] width flags
  else do
    let neg := sign && base == 10 && decide (i.toInt < 0)
    let u ← (if neg then negate i else .ok i)
    let s ← digitLoop base letbase printBufLen u.toNat []
    if neg then
      if width ≠ 0 ∧ flags.padZero then
        let width ← int (width - 1)
        let r ← prints (simpleOutputchar out '-') s width flags
        let pc ← int (1 + r.1)
        .ok (pc, r.2)
      else
        let s ← push s '-'
        prints out s width flags
    else prints out s width flags

/-! ### Arguments -/

/-- A member of the union `u`, which are its lowest bits. -/
structure Member where
  bits : ℕ
  signed : Bool
  deriving DecidableEq

namespace Member

def c : Member := ⟨8, false⟩
def s : Member := ⟨64, false⟩
def i : Member := ⟨32, true⟩
def u : Member := ⟨32, false⟩
def li : Member := ⟨64, true⟩
def lu : Member := ⟨64, false⟩
def lli : Member := ⟨64, true⟩
def llu : Member := ⟨64, false⟩
def hi : Member := ⟨16, true⟩
def hu : Member := ⟨16, false⟩
def hhi : Member := ⟨8, true⟩
def hhu : Member := ⟨8, false⟩

/-- The union after an assignment to the member, which leaves the bits above it. -/
def write (m : Member) (u v : BitVec 64) : BitVec 64 := setField u 0 m.bits v

/-- The member as a `long long`. -/
def read (m : Member) (u : BitVec 64) : BitVec 64 :=
  if m.signed then (u.setWidth m.bits).signExtend 64 else (u.setWidth m.bits).setWidth 64

end Member

/-- The next argument, in a slot of its own. -/
def vaArg : List (BitVec 64) → Except Fault (BitVec 64 × List (BitVec 64))
  | [] => .error .noArg
  | a :: ap => .ok (a, ap)

/-- The variables of `simple_vsprintf` that outlive a conversion. -/
structure PrintState where
  out : Sink
  pc : ℤ
  ap : List (BitVec 64)
  u : BitVec 64

/-! ### Conversions -/

def nul : Char := Char.ofNat 0

/-- `*format` -/
def deref (format : List Char) : Char := format.headD nul

/-- `++format` -/
def advance : List Char → Except Fault (List Char)
  | [] => .error .overread
  | _ :: format => .ok format

/-- What a `case` of the `switch` does: a number is put into the member `store` and handed to
`simple_outputi` from the member `load`. -/
inductive Conv where
  | number (store load : Member) (base : ℕ) (sign : Bool) (letbase : Char)
  | char
  | string
  /-- `default: break;` -/
  | none
  deriving DecidableEq

/-- The cases of one character. -/
def plainSwitch : Char → Conv
  | 'd' => .number .i .i 10 true 'a'
  | 'b' => .number .i .i 2 true 'a'
  | 'u' => .number .u .u 10 false 'a'
  | 'p' => .number .llu .llu 16 false 'a'
  | 'x' => .number .u .u 16 false 'a'
  | 'X' => .number .u .u 16 false 'A'
  | 'c' => .char
  | 's' => .string
  | _ => .none

/-- The cases behind `l`. -/
def lSwitch : Char → Conv
  | 'd' => .number .li .li 10 true 'a'
  | 'u' => .number .lu .lu 10 false 'a'
  | 'x' => .number .lu .lu 16 false 'a'
  | 'X' => .number .lu .lu 16 false 'A'
  | _ => .none

/-- The cases behind `ll`. -/
def llSwitch : Char → Conv
  | 'd' => .number .lli .lli 10 true 'a'
  | 'u' => .number .llu .llu 10 false 'a'
  | 'x' => .number .llu .llu 16 false 'a'
  | 'X' => .number .llu .llu 16 false 'A'
  | _ => .none

/-- The cases behind `h`: the unsigned ones read all of the union back. -/
def hSwitch : Char → Conv
  | 'd' => .number .hi .hi 10 true 'a'
  | 'u' => .number .hu .lli 10 false 'a'
  | 'x' => .number .hu .lli 16 false 'a'
  | 'X' => .number .hu .lli 16 false 'A'
  | _ => .none

/-- The cases behind `hh`, which do the same. -/
def hhSwitch : Char → Conv
  | 'd' => .number .hhi .hhi 10 true 'a'
  | 'u' => .number .hhu .lli 10 false 'a'
  | 'x' => .number .hhu .lli 16 false 'a'
  | 'X' => .number .hhu .lli 16 false 'A'
  | _ => .none

/-- The `switch` of a modifier, which stands twice or once in front of the character. -/
def modifierSwitch (modifier : Char) (once twice : Char → Conv) (format : List Char) :
    Except Fault (Conv × List Char) := do
  let format ← advance format
  if deref format = modifier then
    let format ← advance format
    .ok (twice (deref format), format)
  else .ok (once (deref format), format)

/-- The `switch` on the characters of a conversion, with the format left at the last of them. -/
def convSwitch (format : List Char) : Except Fault (Conv × List Char) :=
  if deref format = 'l' then modifierSwitch 'l' lSwitch llSwitch format
  else if deref format = 'h' then modifierSwitch 'h' hSwitch hhSwitch format
  else .ok (plainSwitch (deref format), format)

/-- The `case` of a conversion, where `str` gives the string at an address. -/
def convert (str : Addr → List Char) (conv : Conv) (width : ℤ) (flags : Flags) (st : PrintState) :
    Except Fault PrintState :=
  match conv with
  | .none => .ok st
  | .number store load base sign letbase => do
    let (a, ap) ← vaArg st.ap
    let u := store.write st.u a
    let (n, out) ← simpleOutputi st.out (load.read u) base sign width flags letbase
    let pc ← int (st.pc + n)
    .ok ⟨out, pc, ap, u⟩
  | .char => do
    let (a, ap) ← vaArg st.ap
    let u := Member.c.write st.u a
    let scr := Char.ofNat (Member.c.read u).toNat
    let (n, out) ← prints st.out (if scr = nul then [] else [scr]) width flags
    let pc ← int (st.pc + n)
    .ok ⟨out, pc, ap, u⟩
  | .string => do
    let (a, ap) ← vaArg st.ap
    let u := Member.s.write st.u a
    let s := Member.s.read u
    let (n, out) ← prints st.out (if s ≠ 0 then str s else "(null)".toList) width flags
    let pc ← int (st.pc + n)
    .ok ⟨out, pc, ap, u⟩

/-- `if (*format == '-')` -/
def minusFlag (format : List Char) : List Char × Flags :=
  if deref format = '-' then (format.tail, ⟨false, true⟩) else (format, ⟨false, false⟩)

/-- `while (*format == '0')` -/
def zeroLoop : List Char → Flags → List Char × Flags
  | [], flags => ([], flags)
  | c :: format, flags =>
    if c = '0' then zeroLoop format { flags with padZero := true } else (c :: format, flags)

/-- `for (; *format >= '0' && *format <= '9'; ++format)` -/
def widthLoop : List Char → ℤ → Except Fault (List Char × ℤ)
  | [], width => .ok ([], width)
  | c :: format, width =>
    if '0'.toNat ≤ c.toNat ∧ c.toNat ≤ '9'.toNat then
      int (width * 10 + (c.toNat - '0'.toNat)) >>= widthLoop format
    else .ok (c :: format, width)

/-- `if (*format == '*')` -/
def widthOf (format : List Char) (ap : List (BitVec 64)) :
    Except Fault (List Char × ℤ × List (BitVec 64)) :=
  if deref format = '*' then do
    let (a, ap) ← vaArg ap
    .ok (format.tail, (a.setWidth 32).toInt, ap)
  else do
    let (format, width) ← widthLoop format 0
    .ok (format, width, ap)

/-- The body of the loop at the character behind `%`, with the format left at the last character of
the conversion. -/
def directive (str : Addr → List Char) (format : List Char) (st : PrintState) :
    Except Fault (List Char × PrintState) := do
  let (format, flags) := minusFlag format
  let (format, flags) := zeroLoop format flags
  let (format, width, ap) ← widthOf format st.ap
  let (conv, format) ← convSwitch format
  let st ← convert str conv width flags { st with ap := ap }
  .ok (format, st)

/-- The label `out`. -/
def literal (c : Char) (st : PrintState) : Except Fault PrintState := do
  let out := if c = '\n' then simpleOutputchar st.out '\r' else st.out
  let pc ← int (st.pc + 1)
  .ok { st with
    out := simpleOutputchar out c
    pc := pc }

/-! ### The loop -/

section Bind

variable {ε α β : Type}

@[simp] theorem ok_bind (a : α) (f : α → Except ε β) : Except.ok a >>= f = f a := rfl

@[simp] theorem error_bind (e : ε) (f : α → Except ε β) : Except.error e >>= f = .error e := rfl

theorem bind_eq_ok {x : Except ε α} {f : α → Except ε β} {r : β} :
    x >>= f = .ok r ↔ ∃ a, x = .ok a ∧ f a = .ok r := by
  cases x with
  | error e => simp
  | ok a => simp

end Bind

section Length

variable {format : List Char}

theorem length_minusFlag (format : List Char) : (minusFlag format).1.length ≤ format.length := by
  unfold minusFlag
  split <;> simp

theorem length_zeroLoop (format : List Char) (flags : Flags) :
    (zeroLoop format flags).1.length ≤ format.length := by
  induction format generalizing flags with
  | nil => exact le_rfl
  | cons c format ih =>
    rw [zeroLoop]
    split
    · exact (ih _).trans (Nat.le_succ _)
    · exact le_rfl

theorem length_widthLoop {width : ℤ} {r : List Char × ℤ} (h : widthLoop format width = .ok r) :
    r.1.length ≤ format.length := by
  induction format generalizing width with
  | nil =>
    obtain rfl := Except.ok.inj h
    exact le_rfl
  | cons c format ih =>
    rw [widthLoop] at h
    split at h
    · obtain ⟨n, -, h⟩ := bind_eq_ok.mp h
      exact (ih h).trans (Nat.le_succ _)
    · obtain rfl := Except.ok.inj h
      exact le_rfl

theorem length_widthOf {ap : List (BitVec 64)} {r : List Char × ℤ × List (BitVec 64)}
    (h : widthOf format ap = .ok r) : r.1.length ≤ format.length := by
  unfold widthOf at h
  split at h
  · obtain ⟨a, -, h⟩ := bind_eq_ok.mp h
    obtain rfl := Except.ok.inj h
    simp
  · obtain ⟨a, ha, h⟩ := bind_eq_ok.mp h
    obtain rfl := Except.ok.inj h
    exact length_widthLoop ha

theorem length_advance {format' : List Char} (h : advance format = .ok format') :
    format'.length < format.length := by
  cases format with
  | nil => cases h
  | cons c format =>
    obtain rfl := Except.ok.inj h
    exact Nat.lt_succ_self _

theorem length_modifierSwitch {m : Char} {once twice : Char → Conv} {r : Conv × List Char}
    (h : modifierSwitch m once twice format = .ok r) : r.2.length ≤ format.length := by
  obtain ⟨f, hf, h⟩ := bind_eq_ok.mp h
  have hlt := length_advance hf
  split at h
  · obtain ⟨f', hf', h⟩ := bind_eq_ok.mp h
    obtain rfl := Except.ok.inj h
    exact ((length_advance hf').trans hlt).le
  · obtain rfl := Except.ok.inj h
    exact hlt.le

theorem length_convSwitch {r : Conv × List Char} (h : convSwitch format = .ok r) :
    r.2.length ≤ format.length := by
  unfold convSwitch at h
  split at h
  · exact length_modifierSwitch h
  · split at h
    · exact length_modifierSwitch h
    · obtain rfl := Except.ok.inj h
      exact le_rfl

theorem length_directive {str : Addr → List Char} {st : PrintState} {r : List Char × PrintState}
    (h : directive str format st = .ok r) : r.1.length ≤ format.length := by
  obtain ⟨w, hw, h⟩ := bind_eq_ok.mp h
  obtain ⟨c, hc, h⟩ := bind_eq_ok.mp h
  obtain ⟨s, -, h⟩ := bind_eq_ok.mp h
  obtain rfl := Except.ok.inj h
  calc c.2.length ≤ w.1.length := length_convSwitch hc
    _ ≤ _ := length_widthOf hw
    _ ≤ _ := length_zeroLoop _ _
    _ ≤ _ := length_minusFlag _

end Length

/-- `for (; *format != 0; ++format)` -/
def vsprintfLoop (str : Addr → List Char) : List Char → PrintState → Except Fault PrintState
  | [], st => .ok st
  | c :: format, st =>
    if c = '%' then
      match format with
      | [] => .ok st
      | c :: format =>
        if c = '%' then literal c st >>= vsprintfLoop str format
        else
          match _h : directive str (c :: format) st with
          | .error e => .error e
          | .ok ([], _) => .error .overread
          | .ok (_ :: format, st) => vsprintfLoop str format st
    else literal c st >>= vsprintfLoop str format
termination_by format => format.length
decreasing_by
  · simp
  · have := length_directive _h
    simp only [List.length_cons] at this ⊢
    omega
  · simp

/-- `simple_vsprintf`, with `u` what the union holds at the start. -/
def simpleVsprintf (str : Addr → List Char) (u : BitVec 64) (out : Sink) (format : List Char)
    (ap : List (BitVec 64)) : Except Fault PrintState :=
  vsprintfLoop str format ⟨out, 0, ap, u⟩

/-- `my_printf`: the bytes that it hands to `my_write`, and what it returns. -/
def myPrintf (str : Addr → List Char) (u : BitVec 64) (fmt : List Char) (va : List (BitVec 64)) :
    Except Fault (List Char × ℤ) := do
  let st ← simpleVsprintf str u (some []) fmt va
  let gBuff := st.out.getD [] ++ [nul]
  if gBuff.length ≤ 1024 then .ok (gBuff.take st.pc.toNat, st.pc) else .error .overrun

end Umko.Mylibc

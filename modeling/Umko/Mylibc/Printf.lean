import Umko.Mylibc.Format

/-!
# The text of a format

Every format is a sequence of items, complete or broken off in a conversion, and `simple_vsprintf`
computes its meaning; `my_printf` writes less than that.
-/

namespace Umko.Mylibc

open Lib.Memory

/-! ### The loop -/

/-- The state after a text that ends some lines. -/
def PrintState.put (st : PrintState) (newlines : ℕ) (r : List Char × Args) : PrintState :=
  ⟨st.out.map (· ++ r.1), st.pc + (r.1.length - newlines), r.2.ap, r.2.u⟩

section Loop

variable {str : Addr → List Char} {format : List Char} {st : PrintState}

theorem vsprintfLoop_nil : vsprintfLoop str [] st = .ok st := by rw [vsprintfLoop]

theorem vsprintfLoop_char {c : Char} (hc : c ≠ '%') :
    vsprintfLoop str (c :: format) st = literal c st >>= vsprintfLoop str format := by
  rw [vsprintfLoop.eq_def]
  exact if_neg hc

theorem vsprintfLoop_percent : vsprintfLoop str ('%' :: '%' :: format) st =
    literal '%' st >>= vsprintfLoop str format := by
  rw [vsprintfLoop, if_pos rfl, if_pos rfl]

theorem vsprintfLoop_end : vsprintfLoop str ['%'] st = .ok st := by
  rw [vsprintfLoop, if_pos rfl]

theorem vsprintfLoop_directive {l : List Char} (hne : l ≠ []) (hl : deref l ≠ '%') :
    vsprintfLoop str ('%' :: l) st = directive str l st >>= fun r =>
      advance r.1 >>= fun format => vsprintfLoop str format r.2 := by
  obtain ⟨c, l, rfl⟩ := List.exists_cons_of_ne_nil hne
  have hc : c ≠ '%' := hl
  rw [vsprintfLoop, if_pos rfl, if_neg hc]
  cases directive str (c :: l) st with
  | error e => rfl
  | ok r =>
    obtain ⟨format, st'⟩ := r
    cases format with
    | nil => rfl
    | cons d format => rfl

theorem deref_render {head : Head} {l : List Char} (hf : head.Follows (deref l)) :
    deref (head.render ++ l) ≠ '%' := by
  obtain ⟨minus, zeros, width⟩ := head
  cases minus with
  | true => exact (by decide : '-' ≠ '%')
  | false =>
    cases zeros with
    | succ n => exact (by decide : '0' ≠ '%')
    | zero =>
      cases width with
      | star => exact (by decide : '*' ≠ '%')
      | digits l digit first =>
        cases l with
        | nil => exact ((hf.2 rfl).2 rfl rfl).2
        | cons c l => exact isDigit_ne (digit c List.mem_cons_self) (by decide)

theorem literal_bind (c : Char) (st : PrintState) (f : PrintState → Except Fault PrintState) :
    let text := if c = '\n' then ['\r', '\n'] else [c]
    let n := if c = '\n' then 1 else 0
    literal c st >>= f =
      int (st.pc + (text.length - (n : ℕ))) >>= fun _ => f (st.put n (text, ⟨st.ap, st.u⟩)) := by
  intro text n
  have hcount : (text.length : ℤ) - n = 1 := by
    by_cases hc : c = '\n'
    · simp [text, n, hc]
    · simp [text, n, hc]
  have hput : literal c st = int (st.pc + 1) >>= fun _ => .ok (st.put n (text, ⟨st.ap, st.u⟩)) := by
    unfold literal PrintState.put
    rw [hcount]
    cases hint : int (st.pc + 1) with
    | error e => rfl
    | ok pc =>
      obtain ⟨rfl, -⟩ := isInt_of_int hint
      by_cases hc : c = '\n'
      · simp [simpleOutputchar, text, hc, Function.comp_def]
      · simp [simpleOutputchar, text, hc]
  rw [hput, hcount]
  cases int (st.pc + 1) <;> rfl

/-- **One item** is read and put out as its meaning says. -/
theorem vsprintfLoop_item (item : Item) (format : List Char) (hpc : IsInt st.pc) :
    vsprintfLoop str (item.render ++ format) st = item.eval str ⟨st.ap, st.u⟩ >>= fun r =>
      int (st.pc + (r.1.length - item.newlines)) >>= fun _ =>
        vsprintfLoop str format (st.put item.newlines r) := by
  cases item with
  | char c plain => exact (vsprintfLoop_char plain).trans (literal_bind c st _)
  | percent => exact vsprintfLoop_percent.trans (literal_bind '%' st _)
  | directive head code follows =>
    have hne : head.render ++ (code.render ++ format) ≠ [] := by
      cases code <;> simp [Code.render, Code.init]
    have hf : head.Follows (deref (code.render ++ format)) := by
      rw [deref_code]
      exact follows
    show vsprintfLoop str ('%' :: ((head.render ++ code.render) ++ format)) st = _
    rw [List.append_assoc, vsprintfLoop_directive hne (deref_render hf),
      directive_eq follows _ _ hpc]
    cases Item.eval str (.directive head code follows) ⟨st.ap, st.u⟩ with
    | error e => rfl
    | ok r =>
      show (int (st.pc + r.1.length) >>= _) >>= _ = int (st.pc + (r.1.length - (0 : ℕ))) >>= _
      rw [Nat.cast_zero, sub_zero]
      cases hint : int (st.pc + r.1.length) with
      | error e => rfl
      | ok pc =>
        obtain ⟨rfl, -⟩ := isInt_of_int hint
        simp [advance, PrintState.put, Item.newlines]

theorem put_put (st : PrintState) (n n' : ℕ) (r r' : List Char × Args) :
    (st.put n r).put n' r' = st.put (n + n') (r.1 ++ r'.1, r'.2) := by
  simp only [PrintState.put, Option.map_map, List.length_append, PrintState.mk.injEq, and_self,
    and_true]
  refine ⟨by simp [Function.comp_def], by push_cast; ring⟩

/-- **A sequence of items** is read and put out as its meaning says. -/
theorem vsprintfLoop_render (items : List Item) (format : List Char) (hpc : IsInt st.pc) :
    vsprintfLoop str (render items ++ format) st = evalAll str items st.pc ⟨st.ap, st.u⟩ >>=
      fun r => vsprintfLoop str format (st.put (newlines items) r) := by
  induction items generalizing st with
  | nil => simp [render, evalAll, newlines, PrintState.put]
  | cons item items ih =>
    rw [render, List.flatMap_cons, List.append_assoc, vsprintfLoop_item _ _ hpc, evalAll]
    cases item.eval str ⟨st.ap, st.u⟩ with
    | error e => rfl
    | ok r =>
      show int (st.pc + (r.1.length - item.newlines)) >>= _ =
        (int (st.pc + (r.1.length - item.newlines)) >>= _) >>= _
      cases hint : int (st.pc + (r.1.length - item.newlines)) with
      | error e => rfl
      | ok pc =>
        obtain ⟨rfl, hpc'⟩ := isInt_of_int hint
        refine (@ih (st.put item.newlines r) hpc').trans ?_
        show evalAll str items (st.put item.newlines r).pc r.2 >>= _ =
          (evalAll str items (st.put item.newlines r).pc r.2 >>= _) >>= _
        cases evalAll str items (st.put item.newlines r).pc r.2 with
        | error e => rfl
        | ok r' =>
          show vsprintfLoop str format ((st.put item.newlines r).put (newlines items) r') = _
          rw [put_put]
          rfl

end Loop

/-! ### Every format -/

/-- The end of a format: nothing, a `%` alone, or a conversion without its last character. -/
inductive Tail where
  | nothing
  | percent
  | cut (head : Head) (modifiers : List Char)
      (modified : modifiers ∈ [[], ['l'], ['l', 'l'], ['h'], ['h', 'h']])
      (follows : head.Follows (deref modifiers)) (started : head.render ++ modifiers ≠ [])

namespace Tail

def render : Tail → List Char
  | .nothing => []
  | .percent => ['%']
  | .cut head modifiers _ _ _ => '%' :: (head.render ++ modifiers)

/-- A conversion that is broken off takes the argument of its width, and leaves the format. -/
def eval : Tail → Args → Except Fault Args
  | .cut head _ _ _ _, args => head.width.eval args >>= fun _ => .error .overread
  | _, args => .ok args

end Tail

section Every

variable {str : Addr → List Char}

theorem convSwitch_cut {modifiers : List Char}
    (h : modifiers ∈ [[], ['l'], ['l', 'l'], ['h'], ['h', 'h']]) :
    convSwitch modifiers = .ok (.none, []) := by
  simp only [List.mem_cons, List.not_mem_nil, or_false] at h
  rcases h with rfl | rfl | rfl | rfl | rfl <;> rfl

theorem vsprintfLoop_tail (tail : Tail) (st : PrintState) :
    vsprintfLoop str tail.render st = (tail.eval ⟨st.ap, st.u⟩).map fun _ => st := by
  cases tail with
  | nothing => exact vsprintfLoop_nil
  | percent => exact vsprintfLoop_end
  | cut head modifiers modified follows started =>
    rw [Tail.render, vsprintfLoop_directive started (deref_render follows)]
    unfold directive
    rw [minusFlag_head follows]
    dsimp only
    rw [zeroLoop_replicate (deref_width follows)]
    dsimp only
    rw [widthOf_head follows ⟨st.ap, st.u⟩, Tail.eval]
    cases head.width.eval ⟨st.ap, st.u⟩ with
    | error e => rfl
    | ok r =>
      show ((convSwitch modifiers >>= fun c => _) >>= _) = _
      rw [convSwitch_cut modified]
      rfl

theorem exists_replicate {c : Char} (hc : c ≠ nul) (l : List Char) :
    ∃ n rest, l = List.replicate n c ++ rest ∧ deref rest ≠ c := by
  induction l with
  | nil => exact ⟨0, [], rfl, hc.symm⟩
  | cons d l ih =>
    by_cases hd : d = c
    · obtain ⟨n, rest, rfl, hrest⟩ := ih
      exact ⟨n + 1, rest, by rw [hd, List.replicate_succ, List.cons_append], hrest⟩
    · exact ⟨0, d :: l, rfl, hd⟩

theorem exists_digits (l : List Char) :
    ∃ ds rest, l = ds ++ rest ∧ (∀ c ∈ ds, IsDigit c) ∧ ¬ IsDigit (deref rest) := by
  induction l with
  | nil => exact ⟨[], [], rfl, by simp, by decide⟩
  | cons d l ih =>
    by_cases hd : IsDigit d
    · obtain ⟨ds, rest, rfl, hds, hrest⟩ := ih
      exact ⟨d :: ds, rest, rfl, by simpa using ⟨hd, hds⟩, hrest⟩
    · exact ⟨[], d :: l, rfl, by simp, hd⟩

theorem exists_head {format : List Char} (hp : deref format ≠ '%') :
    ∃ (head : Head) (rest : List Char), format = head.render ++ rest ∧
      head.Follows (deref rest) := by
  obtain ⟨minus, l, hl, hminus⟩ : ∃ (minus : Bool) (l : List Char),
      format = (if minus then ['-'] else []) ++ l ∧
        (minus = false → deref l ≠ '-' ∧ deref l ≠ '%') := by
    by_cases hm : deref format = '-'
    · cases format with
      | nil => exact absurd hm (by decide)
      | cons c l => exact ⟨true, l, by rw [show c = '-' from hm]; rfl, by simp⟩
    · exact ⟨false, format, rfl, fun _ => ⟨hm, hp⟩⟩
  obtain ⟨zeros, l', hl', hzero⟩ := exists_replicate (show '0' ≠ nul by decide) l
  subst hl hl'
  by_cases hstar : deref l' = '*'
  · cases l' with
    | nil => exact absurd hstar (by decide)
    | cons c rest =>
      refine ⟨⟨minus, zeros, .star⟩, rest, ?_, trivial⟩
      rw [show c = '*' from hstar]
      simp [Head.render, Width.render]
  · obtain ⟨ds, rest, rfl, hds, hrest⟩ := exists_digits l'
    have hfirst : ds.head? ≠ some '0' := by
      cases ds with
      | nil => simp
      | cons d ds => simpa [deref] using hzero
    refine ⟨⟨minus, zeros, .digits ds hds hfirst⟩, rest, by simp [Head.render, Width.render],
      hrest, ?_⟩
    rintro rfl
    refine ⟨hstar, ?_⟩
    rintro rfl hm
    exact hminus hm

theorem exists_code (format : List Char) :
    (∃ (code : Code) (rest : List Char), format = code.render ++ rest) ∨
      format ∈ [[], ['l'], ['l', 'l'], ['h'], ['h', 'h']] := by
  have hmodifier : ∀ (m : Modifier) (l : List Char),
      (∃ (code : Code) (rest : List Char), m.char :: l = code.render ++ rest) ∨
        l = [] ∨ l = [m.char] := by
    intro m l
    match l with
    | [] => exact .inr (.inl rfl)
    | c :: l =>
      by_cases hc : c = m.char
      · match l with
        | [] => exact .inr (.inr (by rw [hc]))
        | d :: l => exact .inl ⟨.twice m d, l, by rw [hc]; rfl⟩
      · exact .inl ⟨.once m c hc, l, rfl⟩
  match format with
  | [] => exact .inr (by simp)
  | c :: l =>
    by_cases hl : c = 'l'
    · rcases hmodifier .l l with h | rfl | rfl
      · exact .inl (hl ▸ h)
      · exact .inr (by simp [hl])
      · exact .inr (by simp [hl, Modifier.char])
    · by_cases hh : c = 'h'
      · rcases hmodifier .h l with h | rfl | rfl
        · exact .inl (hh ▸ h)
        · exact .inr (by simp [hh])
        · exact .inr (by simp [hh, Modifier.char])
      · exact .inl ⟨.plain c hl hh, l, rfl⟩

/-- **Every format is a sequence of items**, with or without a conversion that is broken off. -/
theorem exists_items (format : List Char) :
    ∃ (items : List Item) (tail : Tail), format = render items ++ tail.render := by
  induction hn : format.length using Nat.strong_induction_on generalizing format with
  | _ n ih =>
    subst hn
    have hstep : ∀ (item : Item) (rest : List Char), format = item.render ++ rest →
        rest.length < format.length →
        ∃ (items : List Item) (tail : Tail), format = render items ++ tail.render := by
      intro item rest hformat hlt
      obtain ⟨items, tail, hrest⟩ := ih _ hlt rest rfl
      refine ⟨item :: items, tail, ?_⟩
      rw [render, List.flatMap_cons, List.append_assoc, hformat, hrest]
      rfl
    match hformat : format with
    | [] => exact ⟨[], .nothing, rfl⟩
    | c :: l =>
      by_cases hc : c = '%'
      · subst hc
        match hl : l with
        | [] => exact ⟨[], .percent, rfl⟩
        | d :: l' =>
          by_cases hd : d = '%'
          · exact hstep .percent l' (by rw [hd]; rfl) (by simp)
          · obtain ⟨head, rest, hhead, hfollows⟩ := @exists_head (d :: l') hd
            rcases exists_code rest with ⟨code, rest', rfl⟩ | hcut
            · rw [deref_code] at hfollows
              refine hstep (.directive head code hfollows) rest' ?_ ?_
              · rw [hhead]
                simp [Item.render]
              · rw [hhead]
                cases code <;> simp [Code.render, Code.init] <;> omega
            · exact ⟨[], .cut head rest hcut hfollows (hhead ▸ List.cons_ne_nil d l'),
                congrArg ('%' :: ·) hhead⟩
      · exact hstep (.char c hc) l rfl (by simp)

theorem simpleVsprintf_render (items : List Item) (tail : Tail) (u : BitVec 64) (out : Sink)
    (ap : List (BitVec 64)) : simpleVsprintf str u out (render items ++ tail.render) ap =
      evalAll str items 0 ⟨ap, u⟩ >>= fun r => (tail.eval r.2).map fun _ =>
        ⟨out.map (· ++ r.1), r.1.length - newlines items, r.2.ap, r.2.u⟩ := by
  rw [simpleVsprintf, vsprintfLoop_render _ _ isInt_zero]
  refine congrArg _ (funext fun r => ?_)
  rw [vsprintfLoop_tail, PrintState.put, zero_add]

/-- **`simple_vsprintf` computes the meaning of its format.** Every format is a sequence of items
with an end; whatever the items, the text of the format goes behind the cursor, its length without a
character for each line is returned, and the faults are those of the items in their order, with the
characters behind each of them counted, and then the one of a conversion that is broken off. -/
theorem simpleVsprintf_meaning (str : Addr → List Char) :
    (∀ format, ∃ (items : List Item) (tail : Tail), format = render items ++ tail.render) ∧
    ∀ (items : List Item) (tail : Tail) (u : BitVec 64) (out : Sink) (ap : List (BitVec 64)),
      simpleVsprintf str u out (render items ++ tail.render) ap =
        evalAll str items 0 ⟨ap, u⟩ >>= fun r => (tail.eval r.2).map fun _ =>
          ⟨out.map (· ++ r.1), r.1.length - newlines items, r.2.ap, r.2.u⟩ :=
  ⟨exists_items, simpleVsprintf_render⟩

theorem newlines_le {items : List Item} {pc : ℤ} {args : Args} {r : List Char × Args}
    (h : evalAll str items pc args = .ok r) : newlines items ≤ r.1.length := by
  induction items generalizing pc args r with
  | nil => exact Nat.zero_le _
  | cons item items ih =>
    obtain ⟨r', hr', h⟩ := bind_eq_ok.mp h
    obtain ⟨pc', -, h⟩ := bind_eq_ok.mp h
    obtain ⟨r'', hr'', h⟩ := bind_eq_ok.mp h
    obtain rfl := Except.ok.inj h
    have hitem : item.newlines ≤ r'.1.length := by
      cases item with
      | char c plain =>
        obtain rfl := Except.ok.inj hr'
        show (if c = '\n' then 1 else 0) ≤ (if c = '\n' then ['\r', '\n'] else [c]).length
        split <;> simp
      | percent => exact Nat.zero_le _
      | directive head code follows => exact Nat.zero_le _
    have hitems := ih hr''
    show item.newlines + newlines items ≤ (r'.1 ++ r''.1).length
    rw [List.length_append]
    omega

/-- **`my_printf` writes the text of its format without its last characters**, one for each line of
the format, which it does not count; so it writes all of the text exactly when there is none. The
buffer overflows on texts of 1024 characters. -/
theorem myPrintf_truncates (str : Addr → List Char) (u : BitVec 64) (items : List Item)
    (tail : Tail) (va : List (BitVec 64)) :
    (myPrintf str u (render items ++ tail.render) va = evalAll str items 0 ⟨va, u⟩ >>= fun r =>
      tail.eval r.2 >>= fun _ =>
        if r.1.length < 1024 then
          .ok (r.1.take (r.1.length - newlines items), (r.1.length : ℤ) - newlines items)
        else .error .overrun) ∧
    ∀ r, evalAll str items 0 ⟨va, u⟩ = .ok r → newlines items ≤ r.1.length ∧
      (r.1.take (r.1.length - newlines items) = r.1 ↔ newlines items = 0) := by
  refine ⟨?_, fun r hr => ?_⟩
  · rw [myPrintf, simpleVsprintf_render]
    cases hr : evalAll str items 0 ⟨va, u⟩ with
    | error e => rfl
    | ok r =>
      show (tail.eval r.2).map _ >>= _ = tail.eval r.2 >>= _
      cases tail.eval r.2 with
      | error e => rfl
      | ok args =>
        have hle := newlines_le hr
        have hpc : ((r.1.length : ℤ) - newlines items).toNat = r.1.length - newlines items := by
          omega
        have htake : (r.1 ++ [nul]).take (r.1.length - newlines items) =
            r.1.take (r.1.length - newlines items) := List.take_append_of_le_length (Nat.sub_le _ _)
        show (if (r.1 ++ [nul]).length ≤ 1024 then Except.ok ((r.1 ++ [nul]).take
          ((r.1.length : ℤ) - newlines items).toNat, _) else _) = _
        rw [hpc, htake, List.length_append, List.length_singleton]
        rfl
  · have hle := newlines_le hr
    refine ⟨hle, ?_⟩
    rw [List.take_eq_self_iff]
    omega

/-- The end of the line is the character that is missing. -/
theorem myPrintf_truncates_line :
    myPrintf (fun _ => []) 0 "a\n".toList [] = .ok (['a', '\r'], 2) ∧
      ['a', '\r'] ≠ ['a', '\r', '\n'] := by
  have h := myPrintf_truncates (fun _ => []) 0
    [.char 'a' (by decide), .char '\n' (by decide)] .nothing []
  exact ⟨h.1.trans rfl, fun heq => absurd ((h.2 _ rfl).2.mp heq) (by decide)⟩

end Every

end Umko.Mylibc

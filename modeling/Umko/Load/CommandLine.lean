import Umko.Load.Main

/-!
# The command line

The grammar of the arguments: objects, and `--args` with a word of its own, which may be any word.
`parser_args` reads a command line in one way or refuses it, and it refuses it at the first word
that is `--help`, or at a last word `--args`, where an item should begin.
-/

namespace Umko

/-! ### The grammar -/

/-- An item of the command line; an object is not one of the two options. -/
inductive Item where
  | relObj (path : String) (h : path ≠ "--help" ∧ path ≠ "--args")
  | args (value : String)

def Item.words : Item → List String
  | .relObj path _ => [path]
  | .args value => ["--args", value]

def Item.path : Item → Option String
  | .relObj path _ => some path
  | .args _ => none

def Item.value : Item → Option String
  | .relObj .. => none
  | .args value => some value

def render (items : List Item) : List String := items.flatMap Item.words

/-- What some items name and give, in order. -/
def collect (items : List Item) : Args := ⟨items.filterMap Item.value, items.filterMap Item.path⟩

/-- The words at which the loop gives up. -/
def Refused : List String → Prop
  | [] => False
  | word :: rest => word = "--help" ∨ (word = "--args" ∧ rest = [])

section Grammar

variable {items items' : List Item} {ws rest : List String} {arg : Args}

theorem render_cons (item : Item) : render (item :: items) = item.words ++ render items :=
  List.flatMap_cons

theorem collect_relObj (path : String) (h : path ≠ "--help" ∧ path ≠ "--args") :
    collect (.relObj path h :: items) =
      ⟨(collect items).args, path :: (collect items).relObjs⟩ := rfl

theorem collect_args (value : String) :
    collect (.args value :: items) = ⟨value :: (collect items).args, (collect items).relObjs⟩ := rfl

/-- **The words tell the items.** -/
theorem render_injective (h : render items = render items') : items = items' := by
  induction items generalizing items' with
  | nil =>
    cases items' with
    | nil => rfl
    | cons item items' => cases item <;> simp [render, Item.words] at h
  | cons item items ih =>
    cases items' with
    | nil => cases item <;> simp [render, Item.words] at h
    | cons item' items' =>
      rw [render_cons, render_cons] at h
      cases item with
      | relObj path hp =>
        cases item' with
        | relObj path' hp' =>
          obtain ⟨rfl, hrest⟩ := List.cons.inj h
          rw [ih hrest]
        | args value => exact absurd (List.cons.inj h).1 hp.2
      | args value =>
        cases item' with
        | relObj path' hp' => exact absurd (List.cons.inj h).1.symm hp'.2
        | args value' =>
          obtain ⟨rfl, hrest⟩ := List.cons.inj (List.cons.inj h).2
          rw [ih hrest]

/-! ### The loop -/

theorem parserLoop_relObj {path : String} (h : path ≠ "--help" ∧ path ≠ "--args") :
    parserLoop (path :: rest) arg =
      parserLoop rest { arg with relObjs := arg.relObjs ++ [path] } := by
  rw [parserLoop.eq_def]
  simp [h.1, h.2]

theorem parserLoop_args (value : String) : parserLoop ("--args" :: value :: rest) arg =
    parserLoop rest { arg with args := arg.args ++ [value] } := by
  rw [parserLoop.eq_def]
  simp

theorem parserLoop_help : parserLoop ("--help" :: rest) arg = none := by
  rw [parserLoop.eq_def]
  simp

theorem parserLoop_render (items : List Item) (rest : List String) (arg : Args) :
    parserLoop (render items ++ rest) arg = parserLoop rest
      ⟨arg.args ++ (collect items).args, arg.relObjs ++ (collect items).relObjs⟩ := by
  induction items generalizing arg with
  | nil => simp [render, collect]
  | cons item items ih =>
    rw [render_cons, List.append_assoc]
    cases item with
    | relObj path hp =>
      show parserLoop (path :: (render items ++ rest)) arg = _
      rw [parserLoop_relObj hp, ih, collect_relObj, List.append_assoc]
      rfl
    | args value =>
      show parserLoop ("--args" :: value :: (render items ++ rest)) arg = _
      rw [parserLoop_args, ih, collect_args, List.append_assoc]
      rfl

theorem parserLoop_refused (h : Refused rest) : parserLoop rest arg = none := by
  cases rest with
  | nil => cases h
  | cons word rest =>
    obtain rfl | ⟨rfl, rfl⟩ := h
    · exact parserLoop_help
    · rfl

/-- **Every word list** is some items, and then nothing or the words at which the loop gives up. -/
theorem exists_render (ws : List String) :
    ∃ items rest, ws = render items ++ rest ∧ (rest = [] ∨ Refused rest) := by
  induction hn : ws.length using Nat.strong_induction_on generalizing ws with
  | _ n ih =>
    subst hn
    match ws with
    | [] => exact ⟨[], [], rfl, .inl rfl⟩
    | word :: ws =>
      by_cases hhelp : word = "--help"
      · exact ⟨[], word :: ws, rfl, .inr (.inl hhelp)⟩
      by_cases hargs : word = "--args"
      · match ws with
        | [] => exact ⟨[], [word], rfl, .inr (.inr ⟨hargs, rfl⟩)⟩
        | value :: ws =>
          obtain ⟨items, rest, rfl, hrest⟩ := ih ws.length (by simp) ws rfl
          exact ⟨.args value :: items, rest, by rw [hargs]; rfl, hrest⟩
      · obtain ⟨items, rest, rfl, hrest⟩ := ih ws.length (by simp) ws rfl
        exact ⟨.relObj word ⟨hhelp, hargs⟩ :: items, rest, rfl, hrest⟩

end Grammar

/-- **`parser_args` reads the grammar**: it returns what the items of the command line name and give
when the words are items, which they then are in one way only; and it refuses the command line
exactly when there is no word, or when some items are followed by `--help` or by a last `--args`. -/
theorem parserArgs_grammar (argv : List String) :
    (∀ arg, parserArgs argv = some arg ↔
      argv.length ≠ 1 ∧ ∃! items, argv.tail = render items ∧ arg = collect items) ∧
    (parserArgs argv = none ↔
      argv.length = 1 ∨ ∃ items rest, argv.tail = render items ++ rest ∧ Refused rest) := by
  have hnone : ∀ items rest, argv.tail = render items ++ rest → Refused rest →
      parserLoop argv.tail ⟨[], []⟩ = none := by
    intro items rest htail hrest
    rw [htail, parserLoop_render, parserLoop_refused hrest]
  have hsome : ∀ items, argv.tail = render items →
      parserLoop argv.tail ⟨[], []⟩ = some (collect items) := by
    intro items htail
    have h := parserLoop_render items [] ⟨[], []⟩
    rw [List.append_nil] at h
    rw [htail, h]
    rfl
  obtain ⟨items, rest, htail, hrest⟩ := exists_render argv.tail
  unfold parserArgs
  by_cases hlen : argv.length = 1
  · simp [hlen]
  rw [if_neg hlen]
  rcases hrest with rfl | hrest
  · rw [List.append_nil] at htail
    have hloop := hsome items htail
    refine ⟨fun arg => ⟨fun h => ?_, ?_⟩, ?_⟩
    · rw [hloop] at h
      refine ⟨hlen, items, ⟨htail, (Option.some.inj h).symm⟩, fun items' h' => ?_⟩
      exact render_injective (h'.1.symm.trans htail)
    · rintro ⟨-, items', ⟨htail', rfl⟩, -⟩
      exact hsome items' htail'
    · rw [hloop]
      refine ⟨(by intro h; cases h), ?_⟩
      rintro (h | ⟨items', rest', htail', hrest'⟩)
      · exact absurd h hlen
      · exact absurd (hloop.symm.trans (hnone items' rest' htail' hrest')) (by simp)
  · have hloop := hnone items rest htail hrest
    refine ⟨fun arg => ⟨fun h => ?_, ?_⟩, ?_⟩
    · exact absurd (hloop.symm.trans h) (by simp)
    · rintro ⟨-, items', ⟨htail', -⟩, -⟩
      exact absurd (hloop.symm.trans (hsome items' htail')) (by simp)
    · exact ⟨fun _ => .inr ⟨items, rest, htail, hrest⟩, fun _ => hloop⟩

end Umko

import InputMask.Draft.Fitting
import InputMask.Proofs.Pattern.Leaves

/-!
# What happens to a value

What a fitting does to the text and to the selection comes down to three kinds of events: a
character of the value is taken, one is left out, or a literal is filled in. `Course` says which
events can follow one another from an index of the value on, and `replay` does them on a sheet,
which is the part of a draft that a fitting writes and never asks: the text, its length and the
selection.

`Course.indices` says that the characters of the value are met once each, in order, and
`replay_text` says what comes to be written.
-/

set_option autoImplicit false

namespace InputMask

/-! ## Sheets -/

/-- The part of a draft that is written on: the text, its length, and the selection. -/
structure Sheet where
  text : List Char
  length : Nat
  selection : Selection

namespace Sheet

/-- Writes one character. -/
def write (s : Sheet) (c : Char) : Sheet := { s with text := s.text ++ [c], length := s.length + 1 }

/-- Moves the selection by a number of characters. -/
def shift (s : Sheet) (δ : Int) : Sheet := { s with selection := s.selection.shift δ }

/-- Whether the text still ends before the selection, as `Draft.precedesSelection` has it. -/
def precedes (s : Sheet) (inputLeft : Bool) : Bool :=
  s.length < s.selection.start || (!inputLeft && (s.length : Int) == s.selection.start)

end Sheet

namespace Draft

/-- What a draft has written. -/
def sheet (d : Draft) : Sheet := ⟨d.text, d.length, d.selection⟩

/-- The draft with another sheet. -/
def on (d : Draft) (s : Sheet) : Draft :=
  { d with text := s.text, length := s.length, selection := s.selection }

/-- A draft on its own sheet is the draft. -/
@[simp] theorem on_sheet (d : Draft) : d.on d.sheet = d := rfl

end Draft

/-! ## Events -/

/-- What can happen while a value is fitted. -/
inductive Event where
  /-- The character of the value at an index is written. -/
  | take (i : Nat)
  /-- The character of the value at an index is left out. -/
  | drop (i : Nat)
  /-- A literal is filled in before the character of the value at an index. -/
  | fill (c : Char) (i : Nat)

namespace Event

/-- The index of the character of the value that an event uses up. -/
def index? : Event → Option Nat
  | take i | drop i => some i
  | fill _ _ => none

/-- The character that an event writes. -/
def output (value : List Char) : Event → Option Char
  | take i => value[i]?
  | drop _ => none
  | fill c _ => some c

end Event

/-- What an event does to a sheet. A character that is left out before the selection takes the
selection back, and a literal that is filled in before it moves the selection along. -/
def Sheet.after (value : List Char) (s : Sheet) : Event → Sheet
  | .take i => value[i]?.elim s s.write
  | .drop _ => if s.precedes true then s.shift (-1) else s
  | .fill c i => if s.precedes value[i]?.isSome then (s.write c).shift 1 else s.write c

/-- What some events, one after another, do to a sheet. -/
def replay (value : List Char) (events : List Event) (s : Sheet) : Sheet :=
  events.foldl (Sheet.after value) s

/-- Events are replayed one part after the other. -/
theorem replay_append (value : List Char) (xs ys : List Event) (s : Sheet) :
    replay value (xs ++ ys) s = replay value ys (replay value xs s) := List.foldl_append

/-- The events that can follow one another from an index of the value to another: only a leaf's own
characters are taken, and only a literal without a mark is filled in. -/
inductive Course (o : Options) (value : List Char) (leaves : List (Leaf × Quantifier)) :
    Nat → List Event → Nat → Prop
  | nil (v : Nat) : Course o value leaves v [] v
  | take {v v' : Nat} {es : List Event} {c : Char} {l : Leaf} {q : Quantifier}
      (hv : value[v]? = some c) (hl : (l, q) ∈ leaves) (hc : l.accepts c = true)
      (h : Course o value leaves (v + 1) es v') : Course o value leaves v (.take v :: es) v'
  | drop {v v' : Nat} {es : List Event} {c : Char} (hv : value[v]? = some c)
      (ho : o.discard = true) (h : Course o value leaves (v + 1) es v') :
      Course o value leaves v (.drop v :: es) v'
  | fill {v v' : Nat} {es : List Event} {c : Char} (hl : (.literal c, .once) ∈ leaves)
      (hv : value[v]?.isSome = true ∨ o.appendLiterals = true)
      (h : Course o value leaves v es v') : Course o value leaves v (.fill c v :: es) v'

namespace Course

variable {o : Options} {value : List Char} {leaves : List (Leaf × Quantifier)} {v v' : Nat}
  {es : List Event}

/-- A course can go on with another from where it ends. -/
theorem append {v'' : Nat} {fs : List Event} (h : Course o value leaves v es v')
    (h' : Course o value leaves v' fs v'') : Course o value leaves v (es ++ fs) v'' := by
  induction h with
  | nil v => exact h'
  | take hv hl hc _ ih => exact .take hv hl hc (ih h')
  | drop hv ho _ ih => exact .drop hv ho (ih h')
  | fill hl hv _ ih => exact .fill hl hv (ih h')

/-- A course for some leaves is a course for more of them. -/
theorem mono {leaves' : List (Leaf × Quantifier)} (h : Course o value leaves v es v')
    (hsub : leaves ⊆ leaves') : Course o value leaves' v es v' := by
  induction h with
  | nil v => exact .nil v
  | take hv hl hc _ ih => exact .take hv (hsub hl) hc ih
  | drop hv ho _ ih => exact .drop hv ho ih
  | fill hl hv _ ih => exact .fill (hsub hl) hv ih

/-- Along a course, every character of the value is met once, in order. -/
theorem indices (h : Course o value leaves v es v') :
    v ≤ v' ∧ es.filterMap Event.index? = List.range' v (v' - v) := by
  induction h with
  | nil v => exact ⟨le_rfl, by simp⟩
  | @take v v' es c l q hv hl hc h ih =>
    obtain ⟨hle, hindices⟩ := ih
    refine ⟨Nat.le_of_succ_le hle, ?_⟩
    have hsucc : v' - v = v' - (v + 1) + 1 := by omega
    rw [hsucc, List.range'_succ, ← hindices]
    rfl
  | @drop v v' es c hv ho h ih =>
    obtain ⟨hle, hindices⟩ := ih
    refine ⟨Nat.le_of_succ_le hle, ?_⟩
    have hsucc : v' - v = v' - (v + 1) + 1 := by omega
    rw [hsucc, List.range'_succ, ← hindices]
    rfl
  | fill hl hv h ih => exact ih

/-- A course does not go beyond the end of the value. -/
theorem le_length (h : Course o value leaves v es v') (hle : v ≤ value.length) :
    v' ≤ value.length := by
  induction h with
  | nil v => exact hle
  | take hv hl hc h ih => exact ih (List.getElem?_eq_some_iff.1 hv).1
  | drop hv ho h ih => exact ih (List.getElem?_eq_some_iff.1 hv).1
  | fill hl hv h ih => exact ih hle

/-- A course that moves on in the value stays within it, wherever it starts. -/
theorem le_length_of_lt (h : Course o value leaves v es v') (hlt : v < v') : v' ≤ value.length := by
  induction h with
  | nil v => exact absurd hlt (Nat.lt_irrefl v)
  | take hv hl hc h ih => exact h.le_length (List.getElem?_eq_some_iff.1 hv).1
  | drop hv ho h ih => exact h.le_length (List.getElem?_eq_some_iff.1 hv).1
  | fill hl hv h ih => exact ih hlt

/-- An event on a course takes a character that a leaf accepts, leaves one out where that is
allowed, or fills in a literal without a mark. -/
theorem mem_cases (h : Course o value leaves v es v') {e : Event} (he : e ∈ es) :
    (∃ i c l q, e = .take i ∧ value[i]? = some c ∧ (l, q) ∈ leaves ∧ l.accepts c = true) ∨
      (∃ i, e = .drop i ∧ o.discard = true) ∨
        ∃ c i, e = .fill c i ∧ (.literal c, .once) ∈ leaves := by
  induction h with
  | nil v => cases he
  | @take v v' es c l q hv hl hc h ih =>
    obtain rfl | he := List.mem_cons.1 he
    · exact .inl ⟨v, c, l, q, rfl, hv, hl, hc⟩
    · exact ih he
  | @drop v v' es c hv ho h ih =>
    obtain rfl | he := List.mem_cons.1 he
    · exact .inr (.inl ⟨v, rfl, ho⟩)
    · exact ih he
  | @fill v v' es c hl hv h ih =>
    obtain rfl | he := List.mem_cons.1 he
    · exact .inr (.inr ⟨c, v, rfl, hl⟩)
    · exact ih he

end Course

/-! ## What is written -/

/-- An event adds to the text the character that it writes. -/
theorem Sheet.after_text (value : List Char) (s : Sheet) (e : Event) :
    (s.after value e).text = s.text ++ (e.output value).toList := by
  cases e with
  | take i => cases h : value[i]? <;> simp [Sheet.after, Event.output, Sheet.write, h]
  | drop i =>
    simp only [Sheet.after, Event.output, Option.toList_none, List.append_nil]
    split <;> rfl
  | fill c i =>
    simp only [Sheet.after, Event.output, Option.toList_some]
    split <;> rfl

/-- An event makes the text longer by the character that it writes. -/
theorem Sheet.after_length (value : List Char) (s : Sheet) (e : Event) :
    (s.after value e).length = s.length + (e.output value).toList.length := by
  cases e with
  | take i => cases h : value[i]? <;> simp [Sheet.after, Event.output, Sheet.write, h]
  | drop i =>
    simp only [Sheet.after, Event.output, Option.toList_none, List.length_nil, Nat.add_zero]
    split <;> rfl
  | fill c i =>
    simp only [Sheet.after, Event.output, Option.toList_some, List.length_singleton]
    split <;> rfl

/-- Events write their characters, in order. -/
theorem replay_text (value : List Char) (es : List Event) (s : Sheet) :
    (replay value es s).text = s.text ++ es.filterMap (Event.output value) := by
  induction es generalizing s with
  | nil => simp [replay]
  | cons e es ih =>
    calc (replay value (e :: es) s).text
        = (s.after value e).text ++ es.filterMap (Event.output value) := ih _
      _ = s.text ++ ((e.output value).toList ++ es.filterMap (Event.output value)) := by
        rw [Sheet.after_text, List.append_assoc]
      _ = s.text ++ (e :: es).filterMap (Event.output value) := by
        cases h : e.output value <;> simp [h]

/-- The text's length stays in step with the text. -/
theorem replay_length {value : List Char} {es : List Event} {s : Sheet}
    (h : s.length = s.text.length) :
    (replay value es s).length = (replay value es s).text.length := by
  induction es generalizing s with
  | nil => exact h
  | cons e es ih =>
    refine ih ?_
    rw [Sheet.after_text, Sheet.after_length, List.length_append, h]

end InputMask

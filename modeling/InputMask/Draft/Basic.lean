/-!
# Drafts

A draft is the state of fitting a value to a pattern: the text written so far, the selection carried
along with it, the captures made, and how far the reading of the pattern and of the value has come.

Groups are fitted on trial. An attempt starts from a draft and yields another; `revertTo` takes the
text, the selection and the place in the value back to the earlier one, and `openScope` and
`closeScope` give a group a scope of its own for its captures and for the marks on its progress.

The length of the text is kept beside the text. `Draft.withText_length` and `Draft.write_length` say
that the operations keep the two in step.
-/

set_option autoImplicit false

namespace InputMask

/-- An entry among the captures of a group or of a whole pattern. -/
inductive Capture where
  /-- A run of characters that classes matched. -/
  | run (text : List Char)
  /-- The slot of a group that matched no times. -/
  | unmatched
  /-- The slot of a group that matched, with what was captured in it. -/
  | matched (entries : List Capture)

namespace Capture

/-- The slot of a group, given what was captured in it if it matched. -/
def slot : Option (List Capture) → Capture
  | none => unmatched
  | some entries => matched entries

mutual

/-- Whether two captures are equal. -/
def decEq : (a b : Capture) → Decidable (a = b)
  | run s, run t => decidable_of_iff (s = t) (by rw [run.injEq])
  | unmatched, unmatched => isTrue rfl
  | matched es, matched fs =>
    have := decEqList es fs
    decidable_of_iff (es = fs) (by rw [matched.injEq])
  | run _, unmatched | run _, matched _ | unmatched, run _ | unmatched, matched _
  | matched _, run _ | matched _, unmatched => isFalse (by simp)

/-- Whether two lists of captures are equal. -/
def decEqList : (as bs : List Capture) → Decidable (as = bs)
  | [], [] => isTrue rfl
  | [], _ :: _ | _ :: _, [] => isFalse (by simp)
  | a :: as, b :: bs =>
    have := decEq a b
    have := decEqList as bs
    decidable_of_iff (a = b ∧ as = bs) (by rw [List.cons.injEq])

end

/-- Equality of captures is decidable. -/
instance : DecidableEq Capture := decEq

end Capture

/-- The two ends of a selection while a value is being fitted. They may lie outside the text. -/
structure Selection where
  start : Int
  stop : Int
  deriving DecidableEq

namespace Selection

/-- The greatest offset that a selection starts from. -/
def greatest : Nat := 0x7fffffffffffffff

/-- The selection between two positions; greater ones than `greatest` count as that. -/
def between (start stop : Nat) : Selection := ⟨min start greatest, min stop greatest⟩

/-- The selection with both ends moved by a number of characters. -/
def shift (s : Selection) (δ : Int) : Selection := ⟨s.start + δ, s.stop + δ⟩

end Selection

/-- The state of fitting a value to a pattern. -/
structure Draft where
  /-- The text written so far. -/
  text : List Char := []
  /-- The number of characters of `text`. -/
  length : Nat := 0
  selection : Selection
  /-- Whether the last fitting satisfied its whole pattern. -/
  complete : Bool := false
  /-- The captures made at the current level. -/
  captures : List Capture := []
  /-- The index of the current token in the pattern of the current level. -/
  tokenIndex : Nat := 0
  /-- The index of the next character of the value. -/
  valueIndex : Nat := 0
  /-- Whether tokens of the current level were skipped to get on. -/
  skipped : Bool := false
  /-- The matches that the current repeating token has made so far. -/
  repeats : Nat := 0
  /-- The characters of a capture that has not ended. -/
  pending : List Char := []
  /-- The level: one for the whole pattern, one more for each group within it; zero when no fitting
  is under way. -/
  depth : Nat := 0
  deriving DecidableEq

namespace Draft

/-- The draft that a fitting starts from. -/
def ofSelection (start stop : Nat) : Draft := { selection := .between start stop }

/-! ## Text and selection -/

/-- Replaces the text. -/
def withText (d : Draft) (text : List Char) : Draft := { d with text, length := text.length }

/-- Replaces the selection. -/
def select (d : Draft) (start stop : Int) : Draft := { d with selection := ⟨start, stop⟩ }

/-- Moves the selection by a number of characters. -/
def shift (d : Draft) (δ : Int) : Draft := { d with selection := d.selection.shift δ }

/-- Writes one character. -/
def write (d : Draft) (c : Char) : Draft :=
  { d with text := d.text ++ [c], length := d.length + 1 }

/-- Whether the text still ends before the selection. When no input is left, a selection that starts
right at the end of the text counts too, so that what is filled in there moves it along. -/
def precedesSelection (d : Draft) (inputLeft : Bool) : Bool :=
  d.length < d.selection.start || (!inputLeft && (d.length : Int) == d.selection.start)

/-- A text that is set has its own length. -/
@[simp] theorem withText_length (d : Draft) (text : List Char) :
    (d.withText text).length = (d.withText text).text.length := rfl

/-- The length stays that of the text when a character is written. -/
theorem write_length {d : Draft} (h : d.length = d.text.length) (c : Char) :
    (d.write c).length = (d.write c).text.length := by
  simp [write, h]

/-! ## Progress -/

/-- Moves on to the next token. -/
def passToken (d : Draft) : Draft := { d with tokenIndex := d.tokenIndex + 1 }

/-- Moves on to the next character of the value. -/
def passChar (d : Draft) : Draft := { d with valueIndex := d.valueIndex + 1 }

/-- Leaves out a character of the value; one before the selection moves the selection back. -/
def dropChar (d : Draft) (before : Bool) : Draft :=
  if before then d.passChar.shift (-1) else d.passChar

/-- Skips tokens, up to the one at an index. -/
def skipTo (d : Draft) (index : Nat) : Draft := { d with tokenIndex := index, skipped := true }

/-! ## Captures -/

/-- Writes one character that belongs to the current capture. -/
def capture (d : Draft) (c : Char) : Draft := { d.write c with pending := d.pending ++ [c] }

/-- Ends the current capture. Only within a group is it kept. -/
def endCapture (d : Draft) : Draft :=
  if d.pending.isEmpty then d
  else
    { d with
      pending := []
      captures := if 1 < d.depth then d.captures ++ [.run d.pending] else d.captures }

/-! ## Groups -/

/-- Takes text, selection and the place in the value back to those of an earlier draft, and drops
the current capture. -/
def revertTo (d earlier : Draft) : Draft :=
  { d with
    text := earlier.text
    length := earlier.length
    valueIndex := earlier.valueIndex
    selection := earlier.selection
    pending := [] }

/-- Opens the scope of a group, with no captures and no progress. -/
def openScope (d : Draft) : Draft :=
  { d with captures := [], skipped := false, repeats := 0 }

/-- Closes the scope of a group that was entered from `outer`, and moves past the group. -/
def closeScope (d outer : Draft) (captured : Option (List Capture)) : Draft :=
  { d with
    tokenIndex := outer.tokenIndex + 1
    captures := outer.captures ++ [.slot captured]
    skipped := outer.skipped
    repeats := outer.repeats }

end Draft

end InputMask

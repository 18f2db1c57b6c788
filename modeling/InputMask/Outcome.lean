import InputMask.Draft.Basic
import InputMask.Text.Quoted

/-!
# Outcomes

An outcome is what remains to be said once a value was fitted: the text, whether the whole pattern
was satisfied, where the selection ended up, the captures, and the part of the value that was not
read. An outcome is shown as one line of text, with captures in brackets and texts in quotes.

Which characters of a text are written by number is a parameter of `Outcome.render`; the line that a
program prints is `Outcome.line`.
-/

set_option autoImplicit false

namespace InputMask

/-- The part of a value that was not read, with the cursor to go with it. -/
structure Remainder where
  value : List Char
  cursor : Nat
  deriving DecidableEq

/-- The outcome of masking a value. -/
structure Outcome where
  text : List Char
  /-- Whether the whole pattern was satisfied, without skipping. -/
  complete : Bool
  start : Nat
  stop : Nat
  captures : List Capture
  remainder : Option Remainder
  deriving DecidableEq

namespace Outcome

/-- The outcome for a value that is missing. -/
def missing : Outcome := ⟨[], false, 0, 0, [], none⟩

end Outcome

/-- The outcome that a draft stands for, with what is left of the value. The selection is brought
into the text; the cursor of the remainder is only kept from being negative. -/
def Draft.outcome (d : Draft) (value : List Char) : Outcome where
  text := d.text
  complete := d.complete
  start := min d.selection.start.toNat d.length
  stop := min d.selection.stop.toNat d.length
  captures := d.captures
  remainder :=
    match value.drop d.valueIndex with
    | [] => none
    | rest => some ⟨rest, d.selection.start.toNat⟩

/-! ## Writing outcomes -/

namespace Capture

mutual

/-- A capture in writing: a run in quotes, a group that matched no times as a dash, and any other
group as its entries in brackets. -/
def render (byNumber : Char → Bool) : Capture → List Char
  | run text => Quoted.between byNumber '"' text
  | unmatched => ['-']
  | matched entries => '[' :: renderList byNumber entries ++ [']']

/-- Captures in writing, with a comma and a space between two. -/
def renderList (byNumber : Char → Bool) : List Capture → List Char
  | [] => []
  | [e] => render byNumber e
  | e :: e' :: es => render byNumber e ++ [',', ' '] ++ renderList byNumber (e' :: es)

end

end Capture

namespace Outcome

/-- The word for whether a pattern was satisfied. -/
def completeness (complete : Bool) : List Char :=
  if complete then "complete".toList else "incomplete".toList

/-- The captures of an outcome in writing, unless there are none. -/
def renderCaptures (byNumber : Char → Bool) : List Capture → List Char
  | [] => []
  | captures => " groups=[".toList ++ Capture.renderList byNumber captures ++ [']']

/-- The remainder of an outcome in writing, if there is one. -/
def renderRemainder (byNumber : Char → Bool) : Option Remainder → List Char
  | none => []
  | some r =>
    " truncated=".toList ++ Quoted.between byNumber '"' r.value ++ '@' :: Nat.toDigits 10 r.cursor

/-- An outcome in writing. -/
def render (byNumber : Char → Bool) (r : Outcome) : List Char :=
  Quoted.between byNumber '"' r.text ++ ' ' :: completeness r.complete
    ++ " cursor=".toList ++ Nat.toDigits 10 r.start ++ ['.', '.'] ++ Nat.toDigits 10 r.stop
    ++ renderCaptures byNumber r.captures ++ renderRemainder byNumber r.remainder

/-- The line that shows an outcome. -/
def line (r : Outcome) : List Char := r.render Unprintable.test

end Outcome

end InputMask

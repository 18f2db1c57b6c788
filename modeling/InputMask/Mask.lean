import InputMask.Pattern.Reader
import InputMask.Draft.Reached
import InputMask.Outcome

/-!
# Masks

A mask is a pattern that was read, with the options for fitting values to it and, where wanted, a
hook that acts before a value is fitted and one that acts after. A mask can be used for any number
of values, and each value is fitted from a draft of its own.

`Mask.passage` says what a value goes through, draft by draft; `Mask.apply` keeps the outcome.
-/

set_option autoImplicit false

namespace InputMask

/-- What acts before a value is fitted: it may change the value and the draft to start from. -/
abbrev BeforeHook := List Char → Draft → List Char × Draft

/-- What acts after a value was fitted: it may change the draft that the outcome is taken from. -/
abbrev AfterHook := Draft → Draft

/-- A pattern that was read, and how values are fitted to it. -/
structure Mask where
  /-- The text of the pattern. -/
  source : List Char
  /-- The pattern's tokens. -/
  tokens : List Token
  /-- The tokens are those that the text reads as. -/
  read_source : Pattern.read source = .ok tokens
  options : Options := {}
  before : Option BeforeHook := none
  after : Option AfterHook := none

/-- What a value goes through in a mask. -/
structure Passage where
  /-- The draft at the outset, before any hook. -/
  opening : Draft
  /-- The value that is fitted. -/
  value : List Char
  /-- The draft once the value was fitted. -/
  fitted : Draft
  /-- The draft that the outcome is taken from. -/
  closing : Draft

/-- The outcome at the end of a passage. -/
def Passage.outcome (p : Passage) : Outcome := p.closing.outcome p.value

namespace Mask

/-- Reads a pattern's text as a mask without hooks. -/
def ofSource (source : List Char) (options : Options := {}) : Except Fault Mask :=
  match h : Pattern.read source with
  | .ok tokens => .ok { source, tokens, read_source := h, options }
  | .error e => .error e

/-- The passage of a value through a mask, with a selection in the value. -/
def passage (m : Mask) (value : List Char) (start stop : Nat) : Passage :=
  let opening := Draft.ofSelection start stop
  let prepared := match m.before with
    | some hook => hook value opening
    | none => (value, opening)
  let fitted := fit m.options prepared.1 m.tokens prepared.2
  let closing := match m.after with
    | some hook => hook fitted
    | none => fitted
  { opening, value := prepared.1, fitted, closing }

/-- Fits a value to a mask; the selection is carried along with the text. -/
def apply (m : Mask) (value : List Char) (start stop : Nat) : Outcome :=
  (m.passage value start stop).outcome

/-- Fits a value that may be missing. For a missing value no hook acts. -/
def applyIfGiven (m : Mask) (value : Option (List Char)) (start stop : Nat) : Outcome :=
  match value with
  | some value => m.apply value start stop
  | none => .missing

/-- The selections that fitting a value to a mask without hooks reaches. -/
def reached (m : Mask) (value : List Char) (start stop : Nat) : List Selection :=
  InputMask.reached m.options value m.tokens (.ofSelection start stop)

/-- Whether a value can be fitted to a mask without hooks in signed numbers of 64 bits. -/
def staysInRange (m : Mask) (value : List Char) (start stop : Nat) : Bool :=
  InputMask.staysInRange m.options value m.tokens (.ofSelection start stop)

/-- Whether a character could be the first of a value. -/
def admission (m : Mask) (c : Char) : Verdict := InputMask.admission m.options.discard c m.tokens

/-- A boolean as a word. -/
def yesNo (b : Bool) : List Char := if b then "true".toList else "false".toList

/-- A mask in writing: its text, its options, and which hooks it has. -/
def describe (m : Mask) : List Char :=
  "EditMask \x7b mask: ".toList ++ Quoted.ofText m.source
    ++ ", options: MaskOptions \x7b lookahead: ".toList ++ yesNo m.options.lookahead
    ++ ", eat_invalid: ".toList ++ yesNo m.options.discard
    ++ ", append_literals: ".toList ++ yesNo m.options.appendLiterals
    ++ " \x7d, preprocess: ".toList ++ yesNo m.before.isSome
    ++ ", postprocess: ".toList ++ yesNo m.after.isSome ++ " \x7d".toList

end Mask

end InputMask

import InputMask.Text.Quoted

/-!
# What can be wrong with a pattern

Reading a pattern fails with a fault. The fault says what is wrong, and where, if there is more than
one place for it; positions count characters from the start of the whole pattern.
-/

set_option autoImplicit false

namespace InputMask

/-- The deepest that groups may nest. -/
def maxNesting : Nat := 32

/-- A reason why a pattern, or a part of one, cannot be read. -/
inductive Fault where
  /-- The escape mark is the last character. -/
  | escapeAtEnd
  /-- No parenthesis closes the group that would start at a position. -/
  | groupNotClosed (start : Nat)
  /-- A character is not the mark of a quantifier. -/
  | notAMark (c : Char)
  /-- The mark of a quantifier stands where a token should start. -/
  | strayMark (c : Char) (pos : Nat)
  /-- Groups nest deeper than `maxNesting`. -/
  | tooDeep
  /-- A token was asked for where the pattern has no more characters. -/
  | nothingLeft
  deriving DecidableEq

/-- The sentence that reports a fault. -/
def Fault.message : Fault → List Char
  | escapeAtEnd => "'/' literal escape character cannot terminate a mask".toList
  | groupNotClosed start =>
    "Unclosed group '(' at position ".toList ++ Nat.toDigits 10 start ++ " in mask".toList
  | notAMark c => "Unknown quantifier: ".toList ++ Quoted.ofChar c
  | strayMark c pos =>
    "Quantifier ".toList ++ Quoted.ofChar c ++ " at position ".toList ++ Nat.toDigits 10 pos
      ++ " has nothing to apply to".toList
  | tooDeep =>
    "Groups nested more than ".toList ++ Nat.toDigits 10 maxNesting ++ " levels deep".toList
  | nothingLeft => "Unexpected end of mask".toList

/-- The fault with its position, if it has one, moved on by a number of characters. -/
def Fault.shift (offset : Nat) : Fault → Fault
  | groupNotClosed start => groupNotClosed (start + offset)
  | strayMark c pos => strayMark c (pos + offset)
  | fault => fault

end InputMask

import Mathlib.Computability.Language
import InputMask.Pattern.Basic

/-!
# The language of a pattern

A pattern read as a regular expression: the texts that satisfy it. This reading knows nothing of
selections, of literals that are filled in, or of characters that are left out; it is what the
fitting of values is measured against.

`Leaf.mem_language`, `Token.mem_languageOf_nil` and `Token.mem_languageOf_cons` say which texts the
parts of a pattern stand for.
-/

set_option autoImplicit false

namespace InputMask

/-- A leaf stands for the single characters that it accepts. -/
def Leaf.language (l : Leaf) : Language Char := {w | ∃ c, l.accepts c = true ∧ w = [c]}

/-- A quantifier puts together as many texts as it allows. -/
def Quantifier.language : Quantifier → Language Char → Language Char
  | once, L => L
  | required, L => L
  | optional, L => 1 + L
  | zeroOrMore, L => KStar.kstar L
  | oneOrMore, L => L * KStar.kstar L

namespace Token

mutual

/-- The texts that a token stands for. -/
def language : Token → Language Char
  | leaf l q _ => q.language l.language
  | group body q _ => q.language (languageOf body)

/-- The texts that a list of tokens stands for, one token after another. -/
def languageOf : List Token → Language Char
  | [] => 1
  | t :: ts => language t * languageOf ts

end

end Token

/-- The texts of a leaf are the single characters that it takes. -/
theorem Leaf.mem_language {l : Leaf} {w : List Char} :
    w ∈ l.language ↔ ∃ c, l.accepts c = true ∧ w = [c] := Iff.rfl

/-- What is optional has the empty text and its own texts. -/
theorem Quantifier.mem_language_optional {L : Language Char} {w : List Char} :
    w ∈ optional.language L ↔ w = [] ∨ w ∈ L := by
  rw [Quantifier.language, Language.mem_add, Language.mem_one]

/-- A pattern without tokens has the empty text only. -/
theorem Token.mem_languageOf_nil {w : List Char} : w ∈ Token.languageOf [] ↔ w = [] := by
  rw [Token.languageOf, Language.mem_one]

/-- A text of a pattern is a text of its first token, followed by one of the others. -/
theorem Token.mem_languageOf_cons {t : Token} {ts : List Token} {w : List Char} :
    w ∈ Token.languageOf (t :: ts) ↔
      ∃ u ∈ t.language, ∃ v ∈ Token.languageOf ts, u ++ v = w := by
  rw [Token.languageOf, Language.mem_mul]

end InputMask

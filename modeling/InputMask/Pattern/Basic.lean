/-!
# The vocabulary of patterns

A pattern describes the text a field accepts, one token after another. A token is a leaf, which
takes single characters, or a group, which holds a pattern of its own; either may carry a
quantifier that says how often it may occur. This file has the types, what a leaf accepts, what a
quantifier allows, and the marks by which quantifiers are written.

`Quantifier.ofMark?_eq_some_iff` says that reading a mark and writing a quantifier's mark are
inverse to each other; `Token.groupInduction` is induction on patterns, from the bodies of groups
outward.
-/

set_option autoImplicit false

namespace InputMask

/-! ## Character classes -/

/-- A set of characters that a pattern names by one symbol. -/
inductive CharClass where
  /-- Every character but the line feed. -/
  | any
  /-- The ten decimal digits of ASCII. -/
  | digit
  deriving DecidableEq

namespace CharClass

/-- Whether a class holds a character. -/
def accepts : CharClass → Char → Bool
  | any, c => c != '\n'
  | digit, c => c.isDigit

/-- The symbol that stands for a class in a pattern's text. -/
def symbol : CharClass → Char
  | any => '.'
  | digit => 'd'

/-- The class that a symbol stands for, if it stands for one. -/
def ofSymbol? (c : Char) : Option CharClass :=
  if c = '.' then some any else if c = 'd' then some digit else none

/-- The symbol of a class stands for the class. -/
@[simp] theorem ofSymbol?_symbol (k : CharClass) : ofSymbol? k.symbol = some k := by
  cases k <;> rfl

end CharClass

/-! ## Quantifiers -/

/-- How often a token may occur. A token without a mark has `once`. A token with `required` also
occurs exactly once, but it has to be typed and is never filled in. -/
inductive Quantifier where
  | once
  | optional
  | zeroOrMore
  | oneOrMore
  | required
  deriving DecidableEq

namespace Quantifier

/-- The character that a quantifier is written by; `once` has none. -/
def mark : Quantifier → Option Char
  | once => none
  | optional => some '?'
  | zeroOrMore => some '*'
  | oneOrMore => some '+'
  | required => some '!'

/-- The quantifier that a character is the mark of. -/
def ofMark? (c : Char) : Option Quantifier :=
  if c = '?' then some optional
  else if c = '*' then some zeroOrMore
  else if c = '+' then some oneOrMore
  else if c = '!' then some required
  else none

/-- Whether a character is the mark of a quantifier. -/
def isMark (c : Char) : Bool := (ofMark? c).isSome

/-- The least and the greatest number of occurrences, where a quantifier is written; no greatest
number means no limit. -/
def occurrences : Quantifier → Option (Nat × Option Nat)
  | once => none
  | optional => some (0, some 1)
  | zeroOrMore => some (0, none)
  | oneOrMore => some (1, none)
  | required => some (1, some 1)

/-- Whether a token may be left out. -/
def canBeAbsent : Quantifier → Bool
  | optional | zeroOrMore => true
  | _ => false

/-- Whether a token may occur any number of times. -/
def repeats : Quantifier → Bool
  | zeroOrMore | oneOrMore => true
  | _ => false

/-- The number of characters that a quantifier takes in a pattern's text. -/
def width (q : Quantifier) : Nat := q.mark.toList.length

/-- A character reads as a quantifier exactly if that quantifier is written by it. -/
theorem ofMark?_eq_some_iff {c : Char} {q : Quantifier} :
    ofMark? c = some q ↔ q.mark = some c := by
  constructor
  · intro h
    unfold ofMark? at h
    grind [mark]
  · intro h
    cases q <;> cases h <;> rfl

/-- A quantifier that has no mark is that of a token without one. -/
theorem mark_eq_none_iff {q : Quantifier} : q.mark = none ↔ q = once := by
  cases q <;> simp [mark]

/-- A character is a mark exactly if some quantifier is written by it. -/
theorem isMark_iff {c : Char} : isMark c = true ↔ ∃ q : Quantifier, q.mark = some c := by
  simp only [isMark, Option.isSome_iff_exists, ofMark?_eq_some_iff]

end Quantifier

/-! ## Tokens -/

/-- A token that takes one character at a time. -/
inductive Leaf where
  /-- Any one character of a class. -/
  | ofClass (k : CharClass)
  /-- The one given character. -/
  | literal (c : Char)
  deriving DecidableEq

namespace Leaf

/-- Whether a leaf takes a character. -/
def accepts : Leaf → Char → Bool
  | ofClass k, c => k.accepts c
  | literal d, c => d == c

end Leaf

/-- The positions that a token takes in the text of its pattern, its mark included: from `start` up
to, but not with, `stop`. -/
structure Span where
  start : Nat
  stop : Nat
  deriving DecidableEq

/-- The number of characters in a span. -/
def Span.width (s : Span) : Nat := s.stop - s.start

/-- One part of a pattern: a leaf or a group, its quantifier, and where it stands. -/
inductive Token where
  | leaf (l : Leaf) (q : Quantifier) (span : Span)
  | group (body : List Token) (q : Quantifier) (span : Span)

namespace Token

mutual

/-- Whether two tokens are equal, their spans included. -/
def decEq : (s t : Token) → Decidable (s = t)
  | leaf l q s, leaf m r t =>
    decidable_of_iff (l = m ∧ q = r ∧ s = t) (by rw [leaf.injEq])
  | group b q s, group c r t =>
    have := decEqList b c
    decidable_of_iff (b = c ∧ q = r ∧ s = t) (by rw [group.injEq])
  | leaf .., group .. | group .., leaf .. => isFalse (by simp)

/-- Whether two lists of tokens are equal. -/
def decEqList : (ss ts : List Token) → Decidable (ss = ts)
  | [], [] => isTrue rfl
  | [], _ :: _ | _ :: _, [] => isFalse (by simp)
  | s :: ss, t :: ts =>
    have := decEq s t
    have := decEqList ss ts
    decidable_of_iff (s = t ∧ ss = ts) (by rw [List.cons.injEq])

end

/-- Equality of tokens is decidable, spans included. -/
instance : DecidableEq Token := decEq

/-- How often a token may occur. -/
def quantifier : Token → Quantifier
  | leaf _ q _ => q
  | group _ q _ => q

/-- Where a token stands in the pattern's text. -/
def span : Token → Span
  | leaf _ _ s => s
  | group _ _ s => s

/-- Whether a token is a group. -/
def isGroup : Token → Bool
  | leaf .. => false
  | group .. => true

/-- Whether a token by itself takes a character; a group takes none. -/
def accepts : Token → Char → Bool
  | leaf l _ _, c => l.accepts c
  | group .., _ => false

mutual

/-- The token with every span in it, at any depth, changed by a function. -/
def mapSpan (f : Span → Span) : Token → Token
  | leaf l q s => leaf l q (f s)
  | group body q s => group (mapSpans f body) q (f s)

/-- The tokens with every span in them, at any depth, changed by a function. -/
def mapSpans (f : Span → Span) : List Token → List Token
  | [] => []
  | t :: ts => mapSpan f t :: mapSpans f ts

end

mutual

/-- How deep groups nest in a token: a leaf has height zero, and a group is one higher than its
body. -/
def height : Token → Nat
  | leaf .. => 0
  | group body _ _ => heights body + 1

/-- The greatest height among some tokens. -/
def heights : List Token → Nat
  | [] => 0
  | t :: ts => max (height t) (heights ts)

end

/-- Induction on patterns: what holds of a list of tokens if it holds of the bodies of the groups in
it, holds of every list of tokens. -/
theorem groupInduction {motive : List Token → Prop}
    (h : ∀ tokens, (∀ body q s, group body q s ∈ tokens → motive body) → motive tokens)
    (tokens : List Token) : motive tokens := by
  refine h tokens fun body q s hmem => ?_
  have hlt : sizeOf body < sizeOf tokens := by
    have hgroup := List.sizeOf_lt_of_mem hmem
    rw [group.sizeOf_spec] at hgroup
    omega
  exact groupInduction h body
termination_by sizeOf tokens

end Token

end InputMask

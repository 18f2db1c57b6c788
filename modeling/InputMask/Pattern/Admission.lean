import InputMask.Pattern.Basic

/-!
# Which tokens admit a character

Two questions are asked of a pattern and one character. `admission` asks whether the character could
come next: it is accepted, it is rejected, or the answer is deferred to what follows. It looks into
groups. `landing?` asks for the first token, from a given one on, at which reading could be taken up
again with the character; it stops at a group without looking in.

Both read the pattern from the left, and both are asked about the same character when reading goes
wrong.
-/

set_option autoImplicit false

namespace InputMask

/-- The answer to whether a character could come next in a pattern. -/
inductive Verdict where
  | accepted
  | rejected
  /-- A token that may be left out, or the end of the pattern, leaves the question open. -/
  | deferred
  deriving DecidableEq

mutual

/-- What one token says of a character; a literal has nothing to say of a character that is not its
own. Where characters that fit nowhere are discarded, a class that does not hold the character
defers instead of rejecting it. -/
def Token.admission? (discards : Bool) (c : Char) : Token → Option Verdict
  | .leaf (.ofClass k) q _ =>
    if k.accepts c then some .accepted
    else if q.canBeAbsent || discards then some .deferred
    else some .rejected
  | .leaf (.literal d) _ _ => if d = c then some .accepted else none
  | .group body q _ =>
    match admission discards c body with
    | .accepted => some .accepted
    | _ => if q.canBeAbsent then some .deferred else some .rejected

/-- Whether a character could come next, with some tokens ahead: the first token with something to
say decides, but where characters are discarded a deferral leaves it to the tokens after it. -/
def admission (discards : Bool) (c : Char) : List Token → Verdict
  | [] => .deferred
  | t :: ts =>
    match Token.admission? discards c t with
    | none => admission discards c ts
    | some .deferred => if discards then admission discards c ts else .deferred
    | some v => v

end

/-- The index of the first token, from a given index on, that takes a character or is a group. -/
def landing? (tokens : List Token) (start : Nat) (c : Char) : Option Nat :=
  ((tokens.drop start).findIdx? fun t => t.isGroup || t.accepts c).map (· + start)

/-- The search for a token to go on at does not look back. -/
theorem landing?_ge {tokens : List Token} {start index : Nat} {c : Char}
    (h : landing? tokens start c = some index) : start ≤ index := by
  obtain ⟨i, _, rfl⟩ := Option.map_eq_some_iff.1 h
  exact Nat.le_add_left _ _

/-- A token to go on at is one of the tokens. -/
theorem landing?_lt {tokens : List Token} {start index : Nat} {c : Char}
    (h : landing? tokens start c = some index) : index < tokens.length := by
  obtain ⟨i, hi, rfl⟩ := Option.map_eq_some_iff.1 h
  obtain ⟨hlt, -⟩ := List.findIdx?_eq_some_iff_getElem.1 hi
  rw [List.length_drop] at hlt
  omega

end InputMask

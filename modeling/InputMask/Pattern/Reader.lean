import InputMask.Pattern.Basic
import InputMask.Pattern.Fault

/-!
# Reading a pattern

A pattern's text is read one token at a time. A group is found as a whole first: `groupBody?` looks
for the parenthesis that closes it, passing over escaped characters, and the body between is then
read as a pattern of its own, one level deeper. What is left of the text after a token is always
shorter, which is why reading ends (`readOne_length_lt`).

Reading keeps the position of the text in the whole pattern, so that spans and faults name
positions there.
-/

set_option autoImplicit false

namespace InputMask

/-- The quantifier that is written by a character, or by none. -/
def Quantifier.ofOptionalMark : Option Char → Except Fault Quantifier
  | none => .ok .once
  | some c =>
    match ofMark? c with
    | some q => .ok q
    | none => .error (.notAMark c)

namespace Pattern

/-- The character that makes the one after it a literal. -/
def escapeMark : Char := '/'

/-- Reading a pattern's text, which starts at a position: the tokens, or what is wrong. -/
abbrev Reader := Nat → List Char → Except Fault (List Token)

/-! ## The extent of a group -/

/-- Splits the text after a group's opening parenthesis into the body of the group and what comes
after the parenthesis that closes it. The flag says whether the first character is escaped, and the
number how many inner groups are open. -/
def splitBody? : Bool → Nat → List Char → Option (List Char × List Char)
  | _, _, [] => none
  | true, depth, c :: cs => (splitBody? false depth cs).map fun (body, rest) => (c :: body, rest)
  | false, depth, c :: cs =>
    if c = ')' then
      match depth with
      | 0 => some ([], cs)
      | depth + 1 => (splitBody? false depth cs).map fun (body, rest) => (c :: body, rest)
    else
      (splitBody? (c = escapeMark) (if c = '(' then depth + 1 else depth) cs).map
        fun (body, rest) => (c :: body, rest)

/-- The body of the group whose opening parenthesis stands just before a text, and what follows the
group. -/
def groupBody? (cs : List Char) : Option (List Char × List Char) := splitBody? false 0 cs

/-- The width of the group that starts at a position, both parentheses counted and its mark
not. The character at the position itself is not looked at. -/
def widthOfGroup (text : List Char) (pos : Nat) : Except Fault Nat :=
  match groupBody? (text.drop (pos + 1)) with
  | some (body, _) => .ok (body.length + 2)
  | none => .error (.groupNotClosed pos)

/-- The body, the closing parenthesis and the rest make up the text. -/
theorem splitBody?_eq_append {escaped : Bool} {depth : Nat} {cs body rest : List Char}
    (h : splitBody? escaped depth cs = some (body, rest)) : cs = body ++ ')' :: rest := by
  fun_induction splitBody? escaped depth cs generalizing body rest with
  | case1 => simp at h
  | case2 depth c cs ih =>
    obtain ⟨⟨body', rest'⟩, hsplit, heq⟩ := Option.map_eq_some_iff.1 h
    cases heq
    rw [ih hsplit, List.cons_append]
  | case3 cs =>
    cases h
    rfl
  | case4 cs depth ih =>
    obtain ⟨⟨body', rest'⟩, hsplit, heq⟩ := Option.map_eq_some_iff.1 h
    cases heq
    rw [ih hsplit, List.cons_append]
  | case5 depth c cs hc ih =>
    obtain ⟨⟨body', rest'⟩, hsplit, heq⟩ := Option.map_eq_some_iff.1 h
    cases heq
    rw [ih hsplit, List.cons_append]

/-! ## One token -/

/-- The quantifier that a text starts with, and what follows it. Only a mark is read as one, so
this never fails (`exists_readQuantifier`). -/
def readQuantifier (cs : List Char) : Except Fault (Quantifier × List Char) :=
  let mark := cs.head?.filter Quantifier.isMark
  (Quantifier.ofOptionalMark mark).map fun q => (q, cs.drop mark.toList.length)

/-- A token of some width at a position, made with the quantifier that follows it and its span. -/
def readMarked (token : Quantifier → Span → Token) (pos width : Nat) (cs : List Char) :
    Except Fault (Token × List Char) :=
  (readQuantifier cs).map fun (q, rest) => (token q ⟨pos, pos + width + q.width⟩, rest)

/-- Reads the token that a text starts with, and gives what is left of the text; the bodies of
groups are read by `readBody`. -/
def readOne (readBody : Reader) (pos : Nat) : List Char → Except Fault (Token × List Char)
  | [] => .error .nothingLeft
  | c :: cs =>
    if c = '(' then
      match groupBody? cs with
      | none => .error (.groupNotClosed pos)
      | some (body, rest) =>
        match readBody (pos + 1) body with
        | .error e => .error e
        | .ok tokens => readMarked (.group tokens) pos (body.length + 2) rest
    else if c = escapeMark then
      match cs with
      | [] => .error .escapeAtEnd
      | d :: rest => readMarked (.leaf (.literal d)) pos 2 rest
    else if Quantifier.isMark c then .error (.strayMark c pos)
    else
      match CharClass.ofSymbol? c with
      | some k => readMarked (.leaf (.ofClass k)) pos 1 cs
      | none => readMarked (.leaf (.literal c)) pos 1 cs

/-- What follows the quantifier of a token is no longer than the text after the token. -/
theorem readMarked_length_le {token : Quantifier → Span → Token} {pos width : Nat}
    {cs rest : List Char} {t : Token} (h : readMarked token pos width cs = .ok (t, rest)) :
    rest.length ≤ cs.length := by
  dsimp only [readMarked, readQuantifier] at h
  cases hq : Quantifier.ofOptionalMark (cs.head?.filter Quantifier.isMark) with
  | error e =>
    rw [hq] at h
    cases h
  | ok q =>
    rw [hq] at h
    cases h
    rw [List.length_drop]
    exact Nat.sub_le _ _

/-- What follows a group is shorter than the text after its opening parenthesis. -/
theorem groupBody?_length_lt {cs body rest : List Char} (h : groupBody? cs = some (body, rest)) :
    rest.length < cs.length := by
  rw [splitBody?_eq_append h]
  simp
  omega

/-- Reading a token leaves less of the text than there was. -/
theorem readOne_length_lt {readBody : Reader} {pos : Nat} {cs rest : List Char} {t : Token}
    (h : readOne readBody pos cs = .ok (t, rest)) : rest.length < cs.length := by
  cases cs with
  | nil => cases h
  | cons c cs =>
    simp only [readOne] at h
    split at h
    · split at h
      · cases h
      · next body after hbody =>
        split at h
        · cases h
        · have hlt := groupBody?_length_lt hbody
          exact Nat.lt_succ_of_lt (Nat.lt_of_le_of_lt (readMarked_length_le h) hlt)
    · split at h
      · split at h
        · cases h
        · exact Nat.lt_succ_of_lt (Nat.lt_succ_of_le (readMarked_length_le h))
      · split at h
        · cases h
        · split at h <;> exact Nat.lt_succ_of_le (readMarked_length_le h)

/-! ## The whole pattern -/

/-- Reads a text to its end as a list of tokens. -/
def readAll (readBody : Reader) (pos : Nat) (cs : List Char) :
    Except Fault (List Token) :=
  match cs with
  | [] => .ok []
  | c :: tail =>
    match _h : readOne readBody pos (c :: tail) with
    | .error e => .error e
    | .ok (t, rest) =>
      match readAll readBody t.span.stop rest with
      | .error e => .error e
      | .ok ts => .ok (t :: ts)
termination_by cs.length
decreasing_by exact readOne_length_lt _h

/-- An empty text has no tokens. -/
@[simp] theorem readAll_nil (readBody : Reader) (pos : Nat) :
    readAll readBody pos [] = .ok [] := by
  rw [readAll]

/-- Reading a text that is not empty is reading a token and then what is left. -/
theorem readAll_cons (readBody : Reader) (pos : Nat) (c : Char) (cs : List Char) :
    readAll readBody pos (c :: cs) =
      match readOne readBody pos (c :: cs) with
      | .error e => .error e
      | .ok (t, rest) =>
        match readAll readBody t.span.stop rest with
        | .error e => .error e
        | .ok ts => .ok (t :: ts) := by
  rw [readAll]
  split <;> rename_i h <;> rw [h]

/-- Reads the body of a group within which groups may nest so many levels deep, itself counted. -/
def readBody : Nat → Reader
  | 0, _, _ => .error .tooDeep
  | levels + 1, pos, cs => readAll (readBody levels) pos cs

/-- Reads a whole pattern. -/
def read (text : List Char) : Except Fault (List Token) :=
  readAll (readBody maxNesting) 0 text

/-- Reads the one token that starts at a position of a pattern, as if no group were open there. -/
def readAt (text : List Char) (pos : Nat) : Except Fault Token :=
  (readOne (readBody maxNesting) pos (text.drop pos)).map Prod.fst

end Pattern

end InputMask

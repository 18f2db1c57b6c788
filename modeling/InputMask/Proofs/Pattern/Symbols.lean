import InputMask.Pattern.Reader

/-!
# Reading a text by its first symbol

A pattern's text starts with an escaped character, a parenthesis, or a character that is neither.
What reading does there is told by that symbol: where a group closes (`splitBody?_escape`,
`splitBody?_open`, `splitBody?_close_succ`, `splitBody?_other`), and which quantifier follows a
token (`readQuantifier_mark`, `readQuantifier_of_unmarked`). `Front` lists the ways to read the
token at the front of a text, with what each relies on; `readOne_front` says that there are no
others, and `Front.readOne_eq` that each of them comes to what is read.
-/

set_option autoImplicit false

namespace InputMask

namespace Pattern

variable {c : Char} {cs rest : List Char} {pos depth : Nat} {q : Quantifier} {reading : Reader}

/-- A character that is neither the escape mark nor a parenthesis. -/
structure Ordinary (c : Char) : Prop where
  ne_escapeMark : c ≠ escapeMark
  ne_open : c ≠ '('
  ne_close : c ≠ ')'

/-- A text that does not start with the mark of a quantifier. -/
def Unmarked (cs : List Char) : Prop := ∀ c ∈ cs.head?, Quantifier.isMark c = false

/-- The empty text starts with no mark. -/
theorem unmarked_nil : Unmarked [] := by
  intro c hc
  cases hc

/-- A text whose first character is no mark starts with none. -/
theorem unmarked_cons (hc : Quantifier.isMark c = false) (cs : List Char) : Unmarked (c :: cs) := by
  intro b hb
  obtain rfl : c = b := Option.some.inj hb
  exact hc

/-- The mark of a quantifier is neither the escape mark nor a parenthesis. -/
theorem ordinary_of_isMark (hc : Quantifier.isMark c = true) : Ordinary c := by
  constructor
  all_goals
    rintro rfl
    revert hc
    decide

/-- Equality of what reading comes to is decidable. -/
instance : DecidableEq (Except Fault (List Token))
  | .ok ts, .ok us => decidable_of_iff (ts = us) (by rw [Except.ok.injEq])
  | .error e, .error f => decidable_of_iff (e = f) (by rw [Except.error.injEq])
  | .ok _, .error _ | .error _, .ok _ => isFalse (by simp)

/-! ## The extent of a group -/

/-- Puts characters in front of the body that a text was split into. -/
def inFront (front : List Char) : List Char × List Char → List Char × List Char :=
  Prod.map (front ++ ·) id

/-- What is put in front comes before the body. -/
@[simp] theorem inFront_fst (front : List Char) (parts : List Char × List Char) :
    (inFront front parts).1 = front ++ parts.1 := rfl

/-- What is put in front of the body leaves the rest as it is. -/
@[simp] theorem inFront_snd (front : List Char) (parts : List Char × List Char) :
    (inFront front parts).2 = parts.2 := rfl

/-- What is put in front in two parts comes in the order of the text. -/
theorem inFront_inFront (front front' : List Char) (parts : List Char × List Char) :
    inFront front (inFront front' parts) = inFront (front ++ front') parts := by
  simp [inFront, Prod.map]

/-- An escape mark takes the next character into the body with it. -/
theorem splitBody?_escape (c : Char) (cs : List Char) :
    splitBody? false depth (escapeMark :: c :: cs) =
      (splitBody? false depth cs).map (inFront [escapeMark, c]) := by
  have hescaped : splitBody? false depth (escapeMark :: c :: cs) =
      (splitBody? true depth (c :: cs)).map (inFront [escapeMark]) := rfl
  have hpassed : splitBody? true depth (c :: cs) =
      (splitBody? false depth cs).map (inFront [c]) := rfl
  rw [hescaped, hpassed, Option.map_map]
  rfl

/-- An opening parenthesis opens an inner group of the body. -/
theorem splitBody?_open (cs : List Char) :
    splitBody? false depth ('(' :: cs) =
      (splitBody? false (depth + 1) cs).map (inFront ['(']) := rfl

/-- Where no inner group is open, a closing parenthesis ends the body. -/
theorem splitBody?_close_zero (cs : List Char) :
    splitBody? false 0 (')' :: cs) = some ([], cs) := rfl

/-- Where an inner group is open, a closing parenthesis closes it. -/
theorem splitBody?_close_succ (cs : List Char) :
    splitBody? false (depth + 1) (')' :: cs) =
      (splitBody? false depth cs).map (inFront [')']) := rfl

/-- Any other character is one of the body. -/
theorem splitBody?_other (hc : Ordinary c) (cs : List Char) :
    splitBody? false depth (c :: cs) = (splitBody? false depth cs).map (inFront [c]) := by
  simp only [splitBody?, if_neg hc.ne_close, if_neg hc.ne_open, hc.ne_escapeMark, decide_false]
  rfl

/-! ## The quantifier after a token -/

/-- A mark is read as the quantifier that is written by it. -/
theorem readQuantifier_mark (hq : q.mark = some c) (cs : List Char) :
    readQuantifier (c :: cs) = .ok (q, cs) := by
  have hc : Quantifier.isMark c = true := Quantifier.isMark_iff.2 ⟨q, hq⟩
  have hmark : (c :: cs).head?.filter Quantifier.isMark = some c := Option.filter_some_pos hc
  simp only [readQuantifier, hmark, Quantifier.ofOptionalMark,
    Quantifier.ofMark?_eq_some_iff.2 hq]
  rfl

/-- Where no mark comes next, a token occurs once, and nothing is passed over. -/
theorem readQuantifier_of_unmarked (h : Unmarked cs) : readQuantifier cs = .ok (.once, cs) := by
  have hmark : cs.head?.filter Quantifier.isMark = none := by
    rw [Option.filter_eq_none_iff]
    intro c hc
    exact Bool.not_eq_true _ ▸ h c hc
  simp only [readQuantifier, hmark]
  rfl

/-- Every text starts with a quantifier, written by a mark or by none: what is read as one was seen
to be a mark, so it is not refused for not being one. -/
theorem exists_readQuantifier (cs : List Char) :
    ∃ q rest, readQuantifier cs = .ok (q, rest) ∧ cs = q.mark.toList ++ rest ∧
      (q = .once → Unmarked rest) := by
  cases cs with
  | nil => exact ⟨.once, [], readQuantifier_of_unmarked unmarked_nil, rfl, fun _ => unmarked_nil⟩
  | cons c cs =>
    cases hc : Quantifier.isMark c with
    | false =>
      have hunmarked : Unmarked (c :: cs) := unmarked_cons hc cs
      exact ⟨.once, c :: cs, readQuantifier_of_unmarked hunmarked, rfl, fun _ => hunmarked⟩
    | true =>
      obtain ⟨q, hq⟩ := Quantifier.isMark_iff.1 hc
      refine ⟨q, cs, readQuantifier_mark hq cs, by simp [hq], ?_⟩
      rintro rfl
      cases hq

/-- The quantifier that is read is the one whose mark comes next, or `once` where none does. -/
theorem readQuantifier_eq_ok_iff :
    readQuantifier cs = .ok (q, rest) ↔
      cs = q.mark.toList ++ rest ∧ (q = .once → Unmarked rest) := by
  constructor
  · intro h
    obtain ⟨q', rest', hread, hparts⟩ := exists_readQuantifier cs
    rw [hread] at h
    cases h
    exact hparts
  · rintro ⟨rfl, hrest⟩
    cases hq : q.mark with
    | none =>
      obtain rfl := Quantifier.mark_eq_none_iff.1 hq
      exact readQuantifier_of_unmarked (hrest rfl)
    | some c => exact readQuantifier_mark hq rest

/-- A token is finished by the quantifier that follows it. -/
theorem readMarked_eq (hq : readQuantifier cs = .ok (q, rest))
    (token : Quantifier → Span → Token) (pos width : Nat) :
    readMarked token pos width cs = .ok (token q ⟨pos, pos + width + q.width⟩, rest) := by
  rw [readMarked, hq]
  rfl

/-! ## The token at the front -/

/-- The leaf that a character stands for which is not escaped. -/
def bareLeaf (c : Char) : Leaf :=
  match CharClass.ofSymbol? c with
  | some k => .ofClass k
  | none => .literal c

/-- A way to read the token at the front of a text that starts at a position, and what it comes
to. -/
inductive Front (reading : Reader) (pos : Nat) :
    List Char → Except Fault (Token × List Char) → Prop
  | nothing : Front reading pos [] (.error .nothingLeft)
  | escapeAtEnd : Front reading pos [escapeMark] (.error .escapeAtEnd)
  | escaped {cs rest : List Char} {q : Quantifier} (c : Char)
      (hq : readQuantifier cs = .ok (q, rest)) :
      Front reading pos (escapeMark :: c :: cs)
        (.ok (.leaf (.literal c) q ⟨pos, pos + 2 + q.width⟩, rest))
  | notClosed {cs : List Char} (h : groupBody? cs = none) :
      Front reading pos ('(' :: cs) (.error (.groupNotClosed pos))
  | badBody {cs body rest : List Char} {e : Fault} (h : groupBody? cs = some (body, rest))
      (hbody : reading (pos + 1) body = .error e) : Front reading pos ('(' :: cs) (.error e)
  | group {cs body after rest : List Char} {tokens : List Token} {q : Quantifier}
      (h : groupBody? cs = some (body, after)) (hbody : reading (pos + 1) body = .ok tokens)
      (hq : readQuantifier after = .ok (q, rest)) :
      Front reading pos ('(' :: cs)
        (.ok (.group tokens q ⟨pos, pos + (body.length + 2) + q.width⟩, rest))
  | strayMark {c : Char} (hc : Quantifier.isMark c = true) (cs : List Char) :
      Front reading pos (c :: cs) (.error (.strayMark c pos))
  | bare {c : Char} {cs rest : List Char} {q : Quantifier} (hescape : c ≠ escapeMark)
      (hopen : c ≠ '(') (hc : Quantifier.isMark c = false)
      (hq : readQuantifier cs = .ok (q, rest)) :
      Front reading pos (c :: cs) (.ok (.leaf (bareLeaf c) q ⟨pos, pos + 1 + q.width⟩, rest))

/-- The token at the front of a text is read in one of these ways. -/
theorem readOne_front (reading : Reader) (pos : Nat) (cs : List Char) :
    Front reading pos cs (readOne reading pos cs) := by
  cases cs with
  | nil => exact .nothing
  | cons c cs =>
    simp only [readOne]
    split
    · next hopen =>
      subst hopen
      cases hbody : groupBody? cs with
      | none => exact .notClosed hbody
      | some parts =>
        cases hreading : reading (pos + 1) parts.1 with
        | error e => simpa only [hreading] using .badBody hbody hreading
        | ok tokens =>
          obtain ⟨q, rest, hq, -⟩ := exists_readQuantifier parts.2
          simpa only [hreading, readMarked_eq hq] using .group hbody hreading hq
    · next hopen =>
      split
      · next hescape =>
        subst hescape
        cases cs with
        | nil => exact .escapeAtEnd
        | cons c cs =>
          obtain ⟨q, rest, hq, -⟩ := exists_readQuantifier cs
          simpa only [readMarked_eq hq] using .escaped c hq
      · next hescape =>
        split
        · next hc => exact .strayMark hc cs
        · next hc =>
          obtain ⟨q, rest, hq, -⟩ := exists_readQuantifier cs
          have hbare : Front reading pos (c :: cs) _ :=
            .bare hescape hopen (Bool.eq_false_iff.2 hc) hq
          cases hk : CharClass.ofSymbol? c with
          | none => simpa only [readMarked_eq hq, bareLeaf, hk] using hbare
          | some k => simpa only [readMarked_eq hq, bareLeaf, hk] using hbare

/-- What is read at the front of a text was read in one of these ways. -/
theorem front_of_readOne {r : Except Fault (Token × List Char)}
    (h : readOne reading pos cs = r) : Front reading pos cs r :=
  h ▸ readOne_front reading pos cs

/-- Each of these ways comes to what reading the token gives. -/
theorem Front.readOne_eq {r : Except Fault (Token × List Char)} (h : Front reading pos cs r) :
    readOne reading pos cs = r := by
  cases h with
  | nothing => rfl
  | escapeAtEnd => rfl
  | escaped c hq => exact readMarked_eq hq _ pos 2
  | notClosed h => simp only [readOne, if_true, h]
  | badBody h hbody => simp only [readOne, if_true, h, hbody]
  | group h hbody hq => simp only [readOne, if_true, h, hbody, readMarked_eq hq]
  | strayMark hc cs =>
    have hordinary := ordinary_of_isMark hc
    simp only [readOne, if_neg hordinary.ne_open, if_neg hordinary.ne_escapeMark, if_pos hc]
  | @bare c cs rest q hescape hopen hc hq =>
    simp only [readOne, if_neg hopen, if_neg hescape, hc, Bool.false_eq_true, if_false, bareLeaf]
    cases CharClass.ofSymbol? c <;> exact readMarked_eq hq _ pos 1

/-- A text is read by reading the token at its front and then what is left. -/
theorem readAll_eq_map {t : Token} (hone : readOne reading pos cs = .ok (t, rest)) :
    readAll reading pos cs = (readAll reading t.span.stop rest).map (t :: ·) := by
  cases cs with
  | nil => cases hone
  | cons c cs =>
    rw [readAll_cons, hone]
    dsimp only
    cases readAll reading t.span.stop rest <;> rfl

/-- A text is read if the token at its front is read, and then what is left. -/
theorem readAll_of_readOne {t : Token} {ts : List Token}
    (hone : readOne reading pos cs = .ok (t, rest))
    (hrest : readAll reading t.span.stop rest = .ok ts) :
    readAll reading pos cs = .ok (t :: ts) := by
  rw [readAll_eq_map hone, hrest]
  rfl

end Pattern

end InputMask

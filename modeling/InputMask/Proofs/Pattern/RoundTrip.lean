import InputMask.Pattern.Printer
import InputMask.Proofs.Pattern.Symbols

/-!
# Tokens that are written and read back

What is written for a list of tokens closes every group that it opens and leaves no character
escaped (`balanced_renders`). So the body of a group is found again as it was written, and a token
is read from its text whatever follows, as long as that is not the mark of a quantifier
(`readOne_render_leaf`, `readOne_render_group`). Reading the text of tokens gives these tokens,
placed where their texts are (`readAll_renders`), and no more of them is asked than that their
groups nest no deeper than `maxNesting`.
-/

set_option autoImplicit false

namespace InputMask

/-! ## Spans -/

namespace Token

mutual

/-- A token with the spans that it has in its own text, which starts at a position. -/
def place (pos : Nat) : Token → Token
  | leaf l q _ => leaf l q ⟨pos, pos + l.render.length + q.width⟩
  | group body q _ =>
    group (places (pos + 1) body) q ⟨pos, pos + ((renders body).length + 2) + q.width⟩

/-- Some tokens with the spans that they have in their own text, which starts at a position. -/
def places (pos : Nat) : List Token → List Token
  | [] => []
  | t :: ts => place pos t :: places (place pos t).span.stop ts

end

/-- Some tokens with all their spans made alike, so that only the trees remain to be compared. -/
def eraseSpans (tokens : List Token) : List Token := mapSpans (fun _ => ⟨0, 0⟩) tokens

/-- Placing tokens changes no more than their spans. -/
theorem eraseSpans_places (pos : Nat) (tokens : List Token) :
    eraseSpans (places pos tokens) = eraseSpans tokens := by
  induction tokens using groupInduction generalizing pos with
  | h tokens ih =>
    induction tokens generalizing pos with
    | nil => rfl
    | cons t ts ihts =>
      have htail : eraseSpans (places (place pos t).span.stop ts) = eraseSpans ts :=
        ihts (fun body q s hmem => ih body q s (List.mem_cons_of_mem t hmem)) _
      unfold eraseSpans at htail ⊢
      rw [places, mapSpans, mapSpans, htail]
      cases t with
      | leaf l q s => rfl
      | group body q s =>
        have hbody : eraseSpans (places (pos + 1) body) = eraseSpans body :=
          ih body q s List.mem_cons_self (pos + 1)
        unfold eraseSpans at hbody
        rw [place, mapSpan, mapSpan, hbody]

end Token

namespace Pattern

variable {front front' rest : List Char} {pos : Nat}

/-! ## Texts that close what they open -/

/-- A text that the search for the end of a group passes over, wherever it stands. -/
def Balanced (front : List Char) : Prop :=
  ∀ depth cs, splitBody? false depth (front ++ cs) =
    (splitBody? false depth cs).map (inFront front)

/-- The empty text is balanced. -/
theorem balanced_nil : Balanced [] := by
  intro depth cs
  exact Option.map_id'.symm

/-- Two balanced texts one after the other are balanced. -/
theorem Balanced.append (h : Balanced front) (h' : Balanced front') :
    Balanced (front ++ front') := by
  intro depth cs
  rw [List.append_assoc, h, h', Option.map_map]
  exact congrArg (Option.map · _) (funext fun parts => inFront_inFront front front' parts)

/-- The parentheses of a group balance if its body does. -/
theorem Balanced.group (h : Balanced front) : Balanced ('(' :: front ++ [')']) := by
  intro depth cs
  rw [List.append_assoc, List.cons_append, splitBody?_open, h, List.singleton_append,
    splitBody?_close_succ, Option.map_map, Option.map_map]
  refine congrArg (Option.map · _) (funext fun parts => ?_)
  rw [Function.comp_apply, Function.comp_apply, inFront_inFront, inFront_inFront,
    List.singleton_append, List.cons_append]

/-- An escaped character is balanced, be it a parenthesis. -/
theorem balanced_escaped (c : Char) : Balanced [escapeMark, c] := by
  intro depth cs
  exact splitBody?_escape c cs

/-- An ordinary character is balanced. -/
theorem Ordinary.balanced {c : Char} (h : Ordinary c) : Balanced [c] := by
  intro depth cs
  exact splitBody?_other h cs

/-- The body of a group is found if it is balanced. -/
theorem Balanced.groupBody? (h : Balanced front) (rest : List Char) :
    groupBody? (front ++ ')' :: rest) = some (front, rest) := by
  refine (h 0 (')' :: rest)).trans ?_
  simp [splitBody?_close_zero, inFront]

/-! ## What is written is balanced -/

/-- The mark of a quantifier is balanced. -/
theorem balanced_quantifier (q : Quantifier) : Balanced q.render := by
  cases hq : q.mark with
  | none =>
    rw [Quantifier.render, hq]
    exact balanced_nil
  | some c =>
    rw [Quantifier.render, hq]
    exact (ordinary_of_isMark (Quantifier.isMark_iff.2 ⟨q, hq⟩)).balanced

/-- What is written for a leaf is balanced. -/
theorem balanced_leaf (l : Leaf) : Balanced l.render := by
  cases l with
  | ofClass k =>
    refine Ordinary.balanced ?_
    cases k <;> constructor <;> decide
  | literal c => exact balanced_escaped c

/-- What is written for a pattern is balanced. -/
theorem balanced_renders (tokens : List Token) : Balanced (Token.renders tokens) := by
  induction tokens using Token.groupInduction with
  | h tokens ih =>
    induction tokens with
    | nil => exact balanced_nil
    | cons t ts ihts =>
      rw [Token.renders]
      refine Balanced.append ?_
        (ihts fun body q s hmem => ih body q s (List.mem_cons_of_mem t hmem))
      cases t with
      | leaf l q s => exact (balanced_leaf l).append (balanced_quantifier q)
      | group body q s =>
        have hgroup := (ih body q s List.mem_cons_self).group.append (balanced_quantifier q)
        simpa [Token.render] using hgroup

/-! ## What is written is read back -/

/-- The text of tokens does not start with the mark of a quantifier. -/
theorem unmarked_renders (tokens : List Token) : Unmarked (Token.renders tokens) := by
  cases tokens with
  | nil => exact unmarked_nil
  | cons t ts =>
    cases t with
    | leaf l q s =>
      cases l with
      | ofClass k => cases k <;> exact unmarked_cons (by decide) _
      | literal c => exact unmarked_cons (by decide) _
    | group body q s => exact unmarked_cons (by decide) _

/-- A quantifier is read from its mark, or from none where no mark follows. -/
theorem readQuantifier_render (q : Quantifier) (h : q = .once → Unmarked rest) :
    readQuantifier (q.render ++ rest) = .ok (q, rest) := readQuantifier_eq_ok_iff.2 ⟨rfl, h⟩

/-- A leaf is read from its text. -/
theorem readOne_render_leaf {reading : Reader} (l : Leaf) (q : Quantifier) (s : Span)
    (h : Unmarked rest) :
    readOne reading pos (Token.render (.leaf l q s) ++ rest) =
      .ok (Token.place pos (.leaf l q s), rest) := by
  have hleaf : readOne reading pos (l.render ++ (q.render ++ rest)) =
      readMarked (.leaf l) pos l.render.length (q.render ++ rest) := by
    cases l with
    | ofClass k => cases k <;> rfl
    | literal c => rfl
  rw [Token.render, List.append_assoc, hleaf, readMarked_eq (readQuantifier_render q fun _ => h)]
  rfl

/-- A group is read from its text if its body is. -/
theorem readOne_render_group {reading : Reader} {body : List Token}
    (hbody : reading (pos + 1) (Token.renders body) = .ok (Token.places (pos + 1) body))
    (q : Quantifier) (s : Span) (h : Unmarked rest) :
    readOne reading pos (Token.render (.group body q s) ++ rest) =
      .ok (Token.place pos (.group body q s), rest) := by
  have hsplit := (balanced_renders body).groupBody? (q.render ++ rest)
  rw [Token.render, List.append_assoc, List.cons_append]
  simp only [List.cons_append, readOne, if_true, hsplit, hbody,
    readMarked_eq (readQuantifier_render q fun _ => h)]
  rfl

/-- Where so many levels are left as groups nest in some tokens, the text of the tokens is read as
these tokens, in the places of their texts. -/
theorem readAll_renders (tokens : List Token) {levels : Nat}
    (hheight : Token.heights tokens ≤ levels) (pos : Nat) :
    readAll (readBody levels) pos (Token.renders tokens) = .ok (Token.places pos tokens) := by
  induction tokens using Token.groupInduction generalizing levels pos with
  | h tokens ih =>
    induction tokens generalizing pos with
    | nil => exact readAll_nil _ _
    | cons t ts ihts =>
      obtain ⟨hhead, htail⟩ := Nat.max_le.1 hheight
      have hone : readOne (readBody levels) pos (Token.render t ++ Token.renders ts) =
          .ok (Token.place pos t, Token.renders ts) := by
        cases t with
        | leaf l q s => exact readOne_render_leaf l q s (unmarked_renders ts)
        | group body q s =>
          -- the group takes one level, and its body has the others
          obtain ⟨levels, rfl⟩ := Nat.exists_eq_add_of_le' (Nat.le_of_add_left_le hhead)
          have hbody : readBody (levels + 1) (pos + 1) (Token.renders body) =
              .ok (Token.places (pos + 1) body) :=
            ih body q s List.mem_cons_self (Nat.le_of_succ_le_succ hhead) (pos + 1)
          exact readOne_render_group hbody q s (unmarked_renders ts)
      exact readAll_of_readOne hone
        (ihts (fun body q s hmem => ih body q s (List.mem_cons_of_mem t hmem)) htail _)

/-- The text of tokens whose groups do not nest too deep is read as these tokens, but for the spans
that they had. -/
theorem exists_read_renders (tokens : List Token) (hheight : Token.heights tokens ≤ maxNesting) :
    ∃ reread, read (Token.renders tokens) = .ok reread ∧
      Token.eraseSpans reread = Token.eraseSpans tokens :=
  ⟨Token.places 0 tokens, readAll_renders tokens hheight 0, Token.eraseSpans_places 0 tokens⟩

/-- Escaped parentheses and marks next to the end of a group, an escaped escape mark, and a group
that is empty. -/
theorem exists_read_renders_escaped :
    let tokens : List Token :=
      [.group
        [.leaf (.literal '(') .zeroOrMore ⟨0, 0⟩, .group [] .optional ⟨7, 1⟩,
          .leaf (.literal '/') .oneOrMore ⟨0, 0⟩, .leaf (.ofClass .digit) .required ⟨3, 4⟩,
          .leaf (.literal ')') .once ⟨0, 0⟩, .leaf (.literal '+') .once ⟨0, 0⟩]
        .oneOrMore ⟨0, 0⟩, .leaf (.ofClass .any) .once ⟨0, 0⟩]
    Token.renders tokens = "(/(*()?//+d!/)/+)+.".toList ∧ Token.heights tokens ≤ maxNesting ∧
      ∃ reread, read (Token.renders tokens) = .ok reread ∧
        Token.eraseSpans reread = Token.eraseSpans tokens := by
  intro tokens
  have hheight : Token.heights tokens ≤ maxNesting := by decide
  exact ⟨by decide +kernel, hheight, exists_read_renders tokens hheight⟩

end Pattern

end InputMask

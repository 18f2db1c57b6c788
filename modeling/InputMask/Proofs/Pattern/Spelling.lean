import InputMask.Proofs.Pattern.RoundTrip

/-!
# The characters that a token was read from

Each token that is read has its own part of the pattern's text: its parts follow each other without
a gap (`Token.Tiles`), and each part is a way to write its token (`Token.SpelledIn`), in which a
group has its body's tokens between its parentheses.

The body of a group that was found is balanced (`balanced_of_groupBody?`). So where the tokens of a
body are read one after another, none of them is a parenthesis that closes nothing, and each leaves
a balanced rest (`Wording.balanced`); outside of groups such a parenthesis stands for itself.
-/

set_option autoImplicit false

namespace InputMask

/-! ## Ways to write a token -/

/-- Whether a character that is not escaped has a meaning of its own in a pattern. -/
def Pattern.isSpecial (c : Char) : Bool :=
  c = escapeMark || c = '(' || c = ')' || (CharClass.ofSymbol? c).isSome || Quantifier.isMark c

/-- The ways to write a leaf without its quantifier. Outside of groups, where nothing is left to
close, a closing parenthesis need not be escaped. -/
inductive Leaf.Spelling (outside : Bool) : Leaf → List Char → Prop
  | symbol (k : CharClass) : Spelling outside (.ofClass k) [k.symbol]
  | escaped (c : Char) : Spelling outside (.literal c) [Pattern.escapeMark, c]
  | bare {c : Char} (hc : Pattern.isSpecial c = false ∨ outside = true ∧ c = ')') :
      Spelling outside (.literal c) [c]

/-- A leaf is written with at least one character. -/
theorem Leaf.Spelling.ne_nil {outside : Bool} {l : Leaf} {w : List Char}
    (h : l.Spelling outside w) : w ≠ [] := by
  cases h <;> exact List.cons_ne_nil _ _

/-- What is written outside of groups is written in the same way in them, but for a closing
parenthesis. -/
theorem Leaf.Spelling.inside {l : Leaf} {w : List Char} (h : l.Spelling true w) (hw : w ≠ [')']) :
    l.Spelling false w := by
  cases h with
  | symbol k => exact .symbol k
  | escaped c => exact .escaped c
  | bare hc =>
    refine .bare (hc.imp_right ?_)
    rintro ⟨-, rfl⟩
    exact absurd rfl hw

namespace Token

/-- Whether the spans of some tokens, none of which is empty, follow each other without a gap from
one position up to another. -/
def Tiles : Nat → Nat → List Token → Prop
  | start, stop, [] => start = stop
  | start, stop, t :: ts => t.span.start = start ∧ start < t.span.stop ∧ Tiles t.span.stop stop ts

mutual

/-- Whether the characters of a text that a token's span takes are a way to write the token. Of a
group, they are its parentheses with the characters between that the tokens of its body take, and
the same holds of these. -/
def SpelledIn (text : List Char) : Bool → Token → Prop
  | outside, leaf l q s =>
    ∃ w, l.Spelling outside w ∧ text.extract s.start s.stop = w ++ q.render
  | _, group body q s =>
    ∃ inner, text.extract s.start s.stop = '(' :: inner ++ ')' :: q.render ∧
      Tiles (s.start + 1) (s.start + 1 + inner.length) body ∧ AllSpelledIn text false body

/-- Whether the characters of a text that the spans of some tokens take are ways to write the
tokens. -/
def AllSpelledIn (text : List Char) : Bool → List Token → Prop
  | _, [] => True
  | outside, t :: ts => SpelledIn text outside t ∧ AllSpelledIn text outside ts

end

end Token

namespace Pattern

variable {c : Char} {cs body rest w before after : List Char} {pos depth : Nat}
  {escaped outside : Bool}
  {reading : Reader} {t : Token} {tokens : List Token}

/-! ## The body of a group is balanced -/

/-- What was found to be the rest of a body is passed over in the same way wherever it stands, with
any number of groups open around it. -/
theorem splitBody?_passes (h : splitBody? escaped depth cs = some (body, rest)) (outer : Nat)
    (more : List Char) :
    splitBody? escaped (depth + outer) (body ++ more) =
      (splitBody? false outer more).map (inFront body) := by
  fun_induction splitBody? escaped depth cs generalizing body rest with
  | case1 => cases h
  | case2 depth c cs ih =>
    obtain ⟨⟨inner, rest'⟩, hsplit, heq⟩ := Option.map_eq_some_iff.1 h
    cases heq
    simp only [List.cons_append, splitBody?, ih hsplit, Option.map_map]
    rfl
  | case3 cs =>
    cases h
    rw [Nat.zero_add]
    exact Option.map_id'.symm
  | case4 cs depth ih =>
    obtain ⟨⟨inner, rest'⟩, hsplit, heq⟩ := Option.map_eq_some_iff.1 h
    cases heq
    rw [Nat.succ_add]
    simp only [List.cons_append, splitBody?, if_true, ih hsplit, Option.map_map]
    rfl
  | case5 depth c cs hc ih =>
    obtain ⟨⟨inner, rest'⟩, hsplit, heq⟩ := Option.map_eq_some_iff.1 h
    cases heq
    -- an opening parenthesis goes one level deeper, and the groups around stay open
    have hdepth : (if c = '(' then depth + outer + 1 else depth + outer) =
        (if c = '(' then depth + 1 else depth) + outer := by
      split <;> omega
    simp only [List.cons_append, splitBody?, if_neg hc, hdepth, ih hsplit, Option.map_map]
    rfl

/-- The body of a group that is found is balanced. -/
theorem balanced_of_groupBody? (h : groupBody? cs = some (body, rest)) : Balanced body := by
  intro depth more
  simpa using splitBody?_passes h depth more

/-- After a part that is balanced, the rest of a balanced text is balanced. -/
theorem Balanced.of_append (hw : Balanced w) (h : Balanced (w ++ rest)) : Balanced rest := by
  intro depth cs
  have hinjective : Function.Injective (Option.map (inFront w)) := by
    refine Option.map_injective fun parts parts' heq => ?_
    simpa [inFront, Prod.ext_iff] using heq
  refine hinjective ?_
  rw [← hw, ← List.append_assoc, h, Option.map_map]
  exact congrArg (Option.map · _) (funext fun parts => (inFront_inFront w rest parts).symm)

/-- A text that starts with a closing parenthesis is not balanced. -/
theorem not_balanced_close (cs : List Char) : ¬Balanced (')' :: cs) := by
  intro h
  have hsplit := h 0 [')']
  rw [List.cons_append, splitBody?_close_zero, splitBody?_close_zero] at hsplit
  cases hsplit

/-! ## The characters of one token -/

/-- A token that is read at a position, and the characters that it is read from. -/
inductive Wording (reading : Reader) (pos : Nat) : Token → List Char → Prop
  | leaf {l : Leaf} {q : Quantifier} {w : List Char} (hl : l.Spelling true w) :
      Wording reading pos (.leaf l q ⟨pos, pos + w.length + q.width⟩) (w ++ q.render)
  | group {inner : List Char} {body : List Token} {q : Quantifier} (hinner : Balanced inner)
      (hbody : reading (pos + 1) inner = .ok body) :
      Wording reading pos (.group body q ⟨pos, pos + (inner.length + 2) + q.width⟩)
        ('(' :: inner ++ ')' :: q.render)

/-- A single character that is no mark and starts no group or escape spells the leaf that it is read
as. -/
theorem spelling_bareLeaf (hescape : c ≠ escapeMark) (hopen : c ≠ '(')
    (hc : Quantifier.isMark c = false) : (bareLeaf c).Spelling true [c] := by
  unfold bareLeaf
  split
  · next k hk =>
    have hsymbol : k.symbol = c := by
      unfold CharClass.ofSymbol? at hk
      split at hk
      · next hdot => cases hk; exact hdot.symm
      · split at hk
        · next hd => cases hk; exact hd.symm
        · cases hk
    rw [← hsymbol]
    exact .symbol k
  · next hk =>
    refine .bare ?_
    by_cases hclose : c = ')'
    · exact .inr ⟨rfl, hclose⟩
    · exact .inl (by simp [isSpecial, hescape, hopen, hclose, hk, hc])

/-- A token is read from the characters at the front of a text, and what is left is the rest. -/
theorem exists_wording (h : readOne reading pos cs = .ok (t, rest)) :
    ∃ w, Wording reading pos t w ∧ cs = w ++ rest := by
  cases front_of_readOne h with
  | escaped c hq =>
    refine ⟨_, .leaf (.escaped c), ?_⟩
    exact congrArg (escapeMark :: c :: ·) (readQuantifier_eq_ok_iff.1 hq).1
  | @group _ body _ _ _ _ hgroup hbody hq =>
    refine ⟨_, .group (balanced_of_groupBody? hgroup) hbody, ?_⟩
    rw [splitBody?_eq_append hgroup, List.cons_append, List.cons_append, List.append_assoc,
      List.cons_append]
    exact congrArg (fun marked => '(' :: (body ++ ')' :: marked)) (readQuantifier_eq_ok_iff.1 hq).1
  | @bare c _ _ _ hescape hopen hc hq =>
    refine ⟨_, .leaf (spelling_bareLeaf hescape hopen hc), ?_⟩
    exact congrArg (c :: ·) (readQuantifier_eq_ok_iff.1 hq).1

/-- The span of a token takes its characters. -/
theorem Wording.span_eq (h : Wording reading pos t w) : t.span = ⟨pos, pos + w.length⟩ := by
  cases h with
  | leaf hl =>
    simp only [Token.span, List.length_append, Quantifier.width, Quantifier.render, Nat.add_assoc]
  | group hinner hbody =>
    simp only [Token.span, Quantifier.width, Quantifier.render, List.cons_append, List.length_cons,
      List.length_append, Span.mk.injEq, true_and]
    omega

/-- A token is read from at least one character. -/
theorem Wording.length_pos (h : Wording reading pos t w) : 0 < w.length := by
  cases h with
  | leaf hl => exact List.length_pos_iff.2 (List.append_ne_nil_of_left_ne_nil hl.ne_nil _)
  | group => exact Nat.succ_pos _

/-- The characters of a token are balanced, unless they start with a closing parenthesis that stands
for itself. -/
theorem Wording.balanced (h : Wording reading pos t w) : Balanced w ∨ ∃ v, w = ')' :: v := by
  cases h with
  | @leaf l q w hl =>
    cases hl with
    | symbol k => exact .inl ((balanced_leaf (.ofClass k)).append (balanced_quantifier q))
    | escaped c => exact .inl ((balanced_escaped c).append (balanced_quantifier q))
    | @bare c hc =>
      obtain hplain | ⟨-, rfl⟩ := hc
      · have hordinary : Ordinary c := by
          constructor <;> rintro rfl <;> exact absurd hplain (by decide)
        exact .inl (hordinary.balanced.append (balanced_quantifier q))
      · exact .inr ⟨_, rfl⟩
  | @group inner body q hinner hbody =>
    left
    simpa using hinner.group.append (balanced_quantifier q)

/-- In a text that is balanced, the token at the front and the rest are. -/
theorem Wording.balanced_of_append (h : Wording reading pos t w)
    (hbalanced : Balanced (w ++ rest)) :
    Balanced w ∧ Balanced rest := by
  obtain hw | ⟨v, rfl⟩ := h.balanced
  · exact ⟨hw, hw.of_append hbalanced⟩
  · exact absurd hbalanced (not_balanced_close _)

/-- Induction along a text that is read to its end, from the last of its tokens to the first. -/
theorem readAll_induction {motive : Nat → List Char → List Token → Prop}
    (hnil : ∀ pos, motive pos [] [])
    (hcons : ∀ (pos : Nat) (t : Token) (w rest : List Char) (ts : List Token),
      Wording reading pos t w → readOne reading pos (w ++ rest) = .ok (t, rest) →
        motive (pos + w.length) rest ts → motive pos (w ++ rest) (t :: ts))
    (h : readAll reading pos cs = .ok tokens) : motive pos cs tokens := by
  induction pos, cs using readAll.induct reading generalizing tokens with
  | case1 pos =>
    rw [readAll_nil] at h
    cases h
    exact hnil pos
  | case2 pos c cs e hone =>
    rw [readAll_cons, hone] at h
    cases h
  | case3 pos c cs t rest hone e hrest ih =>
    rw [readAll_cons, hone] at h
    simp only [hrest] at h
    cases h
  | case4 pos c cs t rest hone ts hrest ih =>
    rw [readAll_cons, hone] at h
    simp only [hrest] at h
    cases h
    obtain ⟨w, hw, happend⟩ := exists_wording hone
    have hstop : t.span.stop = pos + w.length := by rw [hw.span_eq]
    rw [happend] at hone ⊢
    exact hcons pos t w rest ts hw hone (hstop ▸ ih hrest)

/-! ## The characters of all tokens -/

/-- The part of a text between what stands before it and what stands after it. -/
theorem extract_append (before w after : List Char) :
    (before ++ (w ++ after)).extract before.length (before.length + w.length) = w := by
  simp [List.extract_eq_take_drop]

/-- Reading that gives tokens with spans that tile the text that is read, wherever it stands in a
whole pattern, and with the characters there spelling them. In groups this is asked of balanced
texts only. -/
def Locates (outside : Bool) (reading : Reader) : Prop :=
  ∀ (before after : List Char) {cs : List Char} {tokens : List Token},
    outside = true ∨ Balanced cs → reading before.length cs = .ok tokens →
      Token.Tiles before.length (before.length + cs.length) tokens ∧
        Token.AllSpelledIn (before ++ (cs ++ after)) outside tokens

/-- A token is spelled by the characters that it was read from, if reading locates the tokens of
bodies. -/
theorem Wording.spelledIn (hreading : Locates false reading)
    (h : Wording reading before.length t w) (hplace : outside = true ∨ Balanced w)
    (after : List Char) : t.SpelledIn (before ++ (w ++ after)) outside := by
  have hpart := extract_append before w after
  cases h with
  | @leaf l q w hl =>
    rw [List.length_append, ← Nat.add_assoc] at hpart
    refine ⟨w, ?_, hpart⟩
    obtain rfl | hbalanced := hplace
    · exact hl
    · have hinside : l.Spelling false w := by
        refine hl.inside ?_
        rintro rfl
        exact not_balanced_close _ hbalanced
      cases outside
      · exact hinside
      · exact hl
  | @group inner body q hinner hbody =>
    have hlength : ('(' :: inner ++ ')' :: q.render).length = inner.length + 2 + q.width := by
      simp only [List.cons_append, List.length_cons, List.length_append, Quantifier.width,
        Quantifier.render]
      omega
    have hplace : (before ++ ['(']).length = before.length + 1 := List.length_append
    rw [← hplace] at hbody
    obtain ⟨htiles, hspelled⟩ :=
      hreading (before ++ ['(']) (')' :: q.render ++ after) (.inr hinner) hbody
    rw [hplace] at htiles
    rw [hlength, ← Nat.add_assoc] at hpart
    refine ⟨inner, hpart, htiles, ?_⟩
    simpa using hspelled

/-- Reading a text to its end locates its tokens if reading the bodies of its groups does. -/
theorem locates_readAll (hreading : Locates false reading) (outside : Bool) :
    Locates outside (readAll reading) := by
  intro before after cs tokens hplace h
  refine readAll_induction (motive := fun pos cs tokens => ∀ before : List Char,
    before.length = pos → outside = true ∨ Balanced cs →
      Token.Tiles pos (pos + cs.length) tokens ∧
        Token.AllSpelledIn (before ++ (cs ++ after)) outside tokens) ?_ ?_ h before rfl hplace
  · intro pos before hpos hplace
    exact ⟨rfl, trivial⟩
  · intro pos t w rest ts hw hone ih before hpos hplace
    subst hpos
    have hparts : (outside = true ∨ Balanced w) ∧ (outside = true ∨ Balanced rest) := by
      obtain houtside | hbalanced := hplace
      · exact ⟨.inl houtside, .inl houtside⟩
      · exact (hw.balanced_of_append hbalanced).imp .inr .inr
    -- for the tokens that follow, this one is part of what stands before them
    obtain ⟨htiles, hspelled⟩ := ih (before ++ w) List.length_append hparts.2
    have htoken := hw.spelledIn hreading hparts.1 (rest ++ after)
    rw [List.append_assoc] at hspelled ⊢
    refine ⟨⟨?_, ?_, ?_⟩, htoken, hspelled⟩
    · rw [hw.span_eq]
    · rw [hw.span_eq]
      exact Nat.lt_add_of_pos_right hw.length_pos
    · rw [hw.span_eq, List.length_append, ← Nat.add_assoc]
      exact htiles

/-- Reading the body of a group locates its tokens. -/
theorem locates_readBody (levels : Nat) : Locates false (readBody levels) := by
  induction levels with
  | zero =>
    intro before after cs tokens hplace h
    cases h
  | succ levels ih => exact locates_readAll ih false

/-- The spans of the tokens that a pattern is read as tile its text, those in a group tile what
stands between its parentheses, and the characters at each span are a way to write its token. -/
theorem tiles_and_allSpelledIn_of_read {text : List Char} (h : read text = .ok tokens) :
    Token.Tiles 0 text.length tokens ∧ Token.AllSpelledIn text true tokens := by
  have hlocates := locates_readAll (locates_readBody maxNesting) true [] [] (.inl rfl) h
  simpa using hlocates

/-- A parenthesis that closes nothing and carries a mark, and in a group an escaped one, which does
not end the group. -/
theorem tiles_and_allSpelledIn_of_read_nested :
    let text := ")?(/)(d+)*)!".toList
    let tokens : List Token :=
      [.leaf (.literal ')') .optional ⟨0, 2⟩,
        .group
          [.leaf (.literal ')') .once ⟨3, 5⟩,
            .group [.leaf (.ofClass .digit) .oneOrMore ⟨6, 8⟩] .zeroOrMore ⟨5, 10⟩]
          .required ⟨2, 12⟩]
    read text = .ok tokens ∧ Token.Tiles 0 text.length tokens ∧
      Token.AllSpelledIn text true tokens := by
  intro text tokens
  have hread : read text = .ok tokens := by decide +kernel
  exact ⟨hread, tiles_and_allSpelledIn_of_read hread⟩

end Pattern

end InputMask

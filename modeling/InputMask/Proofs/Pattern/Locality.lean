import InputMask.Proofs.Pattern.Spelling
import InputMask.Proofs.Pattern.Subtokens

/-!
# Reading is local

A token is read from its own characters, and the only other thing that is looked at is whether a
mark comes next. So it is read alike when more text follows that does not start with a mark, and
when more levels are left for groups (`readOne_append`); and text in front of it only moves
positions (`readOne_shift`). From this come two laws for whole patterns: what is read from two texts
put together (`read_append`), and that each token, however deep in groups, is read again by itself
from where it starts (`readAt_of_mem_subtokensOf`).
-/

set_option autoImplicit false

namespace InputMask

/-- The span moved on by a number of characters. -/
def Span.shift (offset : Nat) (s : Span) : Span := ⟨s.start + offset, s.stop + offset⟩

/-- Changing the spans of a token changes its own. -/
theorem Token.mapSpan_span (f : Span → Span) (t : Token) : (mapSpan f t).span = f t.span := by
  cases t <;> rfl

namespace Pattern

variable {cs body rest more : List Char} {pos offset : Nat} {reading reading' : Reader} {t : Token}
  {tokens : List Token}

/-! ## More text after a token -/

/-- Reading that gives what another gives, wherever that one succeeds. -/
def Covers (reading' reading : Reader) : Prop :=
  ∀ pos cs tokens, reading pos cs = .ok tokens → reading' pos cs = .ok tokens

/-- Reading gives what it gives. -/
theorem covers_refl (reading : Reader) : Covers reading reading := fun _ _ _ h => h

/-- More text that does not start with a mark is left as it is by the quantifier before it. -/
theorem readQuantifier_append {q : Quantifier} (hmore : Unmarked more)
    (h : readQuantifier cs = .ok (q, rest)) :
    readQuantifier (cs ++ more) = .ok (q, rest ++ more) := by
  obtain ⟨rfl, hrest⟩ := readQuantifier_eq_ok_iff.1 h
  refine readQuantifier_eq_ok_iff.2 ⟨List.append_assoc _ _ _, fun hq => ?_⟩
  cases rest with
  | nil => exact hmore
  | cons c rest => exact unmarked_cons (hrest hq c rfl) (rest ++ more)

/-- The parenthesis that closes a group is found without looking any further. -/
theorem groupBody?_append (h : groupBody? cs = some (body, rest)) (more : List Char) :
    groupBody? (cs ++ more) = some (body, rest ++ more) := by
  rw [splitBody?_eq_append h, List.append_assoc, List.cons_append]
  exact (balanced_of_groupBody? h).groupBody? (rest ++ more)

/-- A token is read alike with more text after it, and by reading that covers more. -/
theorem readOne_append (hcovers : Covers reading' reading) (hmore : Unmarked more)
    (h : readOne reading pos cs = .ok (t, rest)) :
    readOne reading' pos (cs ++ more) = .ok (t, rest ++ more) := by
  cases front_of_readOne h with
  | escaped c hq => exact (Front.escaped c (readQuantifier_append hmore hq)).readOne_eq
  | group hgroup hbody hq =>
    exact (Front.group (groupBody?_append hgroup more) (hcovers _ _ _ hbody)
      (readQuantifier_append hmore hq)).readOne_eq
  | bare hescape hopen hc hq =>
    exact (Front.bare hescape hopen hc (readQuantifier_append hmore hq)).readOne_eq

/-- After a text that can be read to its end, more text is read as it is at that place by itself. -/
theorem readAll_append (hcovers : Covers reading' reading) (hmore : Unmarked more)
    (h : readAll reading pos cs = .ok tokens) :
    readAll reading' pos (cs ++ more) =
      (readAll reading' (pos + cs.length) more).map (tokens ++ ·) := by
  refine readAll_induction (motive := fun pos cs tokens => readAll reading' pos (cs ++ more) =
    (readAll reading' (pos + cs.length) more).map (tokens ++ ·)) ?_ ?_ h
  · intro pos
    change readAll reading' pos more = (readAll reading' pos more).map _
    cases readAll reading' pos more <;> rfl
  · intro pos t w rest ts hw hone ih
    have hone' := readOne_append hcovers hmore hone
    rw [readAll_eq_map hone', hw.span_eq, ih, List.length_append, ← Nat.add_assoc]
    cases readAll reading' (pos + w.length + rest.length) more <;> rfl

/-- With one more level for groups, everything is read that was read before, and alike. -/
theorem covers_readBody_succ (levels : Nat) : Covers (readBody (levels + 1)) (readBody levels) := by
  induction levels with
  | zero =>
    intro pos cs tokens h
    cases h
  | succ levels ih =>
    intro pos cs tokens h
    -- more text that is empty makes a difference to the levels only
    have happend := readAll_append ih unmarked_nil h
    rw [List.append_nil, readAll_nil] at happend
    refine happend.trans ?_
    simp [Except.map]

/-! ## More text before a token -/

/-- What was read, or the fault, with all positions moved on by a number of characters. -/
def moved {α β : Type} (offset : Nat) (f : α → β) (r : Except Fault α) : Except Fault β :=
  (r.map f).mapError (Fault.shift offset)

/-- What was read moves on by a number of characters. -/
@[simp] theorem moved_ok {α β : Type} (offset : Nat) (f : α → β) (a : α) :
    moved offset f (.ok a) = .ok (f a) := rfl

/-- A fault moves on by a number of characters. -/
@[simp] theorem moved_error {α β : Type} (offset : Nat) (f : α → β) (e : Fault) :
    moved offset f (.error e) = .error (e.shift offset) := rfl

/-- Reading for which the position of a text makes no difference but to positions. -/
def Movable (offset : Nat) (reading : Reader) : Prop :=
  ∀ pos cs, reading (pos + offset) cs =
    moved offset (Token.mapSpans (Span.shift offset)) (reading pos cs)

/-- A token of some width with its mark has its span further on where it starts further on. -/
theorem shift_span (offset pos width marked : Nat) :
    Span.shift offset ⟨pos, pos + width + marked⟩ =
      ⟨pos + offset, pos + offset + width + marked⟩ := by
  simp only [Span.shift, Span.mk.injEq, true_and]
  omega

/-- Reading a token further on moves its spans, or the fault, and nothing else. -/
theorem readOne_shift (hreading : Movable offset reading) (pos : Nat) (cs : List Char) :
    readOne reading (pos + offset) cs =
      moved offset (Prod.map (Token.mapSpan (Span.shift offset)) id) (readOne reading pos cs) := by
  have hfront : Front reading pos cs _ := readOne_front reading pos cs
  generalize readOne reading pos cs = r at hfront ⊢
  refine Front.readOne_eq ?_
  have hbody : ∀ body, reading (pos + offset + 1) body =
      moved offset (Token.mapSpans (Span.shift offset)) (reading (pos + 1) body) := by
    intro body
    rw [Nat.add_right_comm]
    exact hreading (pos + 1) body
  cases hfront with
  | nothing => exact .nothing
  | escapeAtEnd => exact .escapeAtEnd
  | escaped c hq =>
    simp only [moved_ok, Prod.map, Token.mapSpan, id, shift_span]
    exact .escaped c hq
  | notClosed h => exact .notClosed h
  | @badBody _ body _ e h hfault =>
    refine .badBody h ?_
    rw [hbody body, hfault, moved_error]
  | @group _ body _ _ tokens _ h hok hq =>
    have hmoved : reading (pos + offset + 1) body =
        .ok (Token.mapSpans (Span.shift offset) tokens) := by
      rw [hbody body, hok, moved_ok]
    simp only [moved_ok, Prod.map, Token.mapSpan, id, shift_span]
    exact .group h hmoved hq
  | strayMark hc cs => exact .strayMark hc cs
  | bare hescape hopen hc hq =>
    simp only [moved_ok, Prod.map, Token.mapSpan, id, shift_span]
    exact .bare hescape hopen hc hq

/-- Reading a text to its end can be moved if reading the bodies of its groups can. -/
theorem movable_readAll (hreading : Movable offset reading) : Movable offset (readAll reading) := by
  -- whether what is left can be read or not, what is read of it is moved with the token before it
  have hstep : ∀ (pos : Nat) (c : Char) (cs : List Char) (t : Token) (rest : List Char),
      readOne reading pos (c :: cs) = .ok (t, rest) →
        readAll reading (t.span.stop + offset) rest =
          moved offset (Token.mapSpans (Span.shift offset)) (readAll reading t.span.stop rest) →
        readAll reading (pos + offset) (c :: cs) =
          moved offset (Token.mapSpans (Span.shift offset)) (readAll reading pos (c :: cs)) := by
    intro pos c cs t rest hone hrest
    have hone' : readOne reading (pos + offset) (c :: cs) =
        .ok (t.mapSpan (Span.shift offset), rest) := by
      rw [readOne_shift hreading, hone, moved_ok]
      rfl
    rw [readAll_eq_map hone, readAll_eq_map hone', Token.mapSpan_span]
    refine (congrArg (Except.map _) hrest).trans ?_
    cases readAll reading t.span.stop rest <;> rfl
  intro pos cs
  induction pos, cs using readAll.induct reading with
  | case1 pos =>
    rw [readAll_nil, readAll_nil]
    rfl
  | case2 pos c cs e hone =>
    have hone' := readOne_shift hreading pos (c :: cs)
    rw [hone, moved_error] at hone'
    rw [readAll_cons, readAll_cons, hone, hone']
    rfl
  | case3 pos c cs t rest hone e hrest ih => exact hstep pos c cs t rest hone ih
  | case4 pos c cs t rest hone ts hrest ih => exact hstep pos c cs t rest hone ih

/-- The position of a body makes no difference to how it is read but to positions. -/
theorem movable_readBody (offset levels : Nat) : Movable offset (readBody levels) := by
  induction levels with
  | zero =>
    intro pos cs
    rfl
  | succ levels ih => exact movable_readAll ih

/-- A text that can be read, followed by one that does not start with a mark, is read as both of
them one after the other: the tokens of the second have their places after the first, and so has a
fault in it. -/
theorem read_append {a b : List Char} (ha : read a = .ok tokens) (hb : Unmarked b) :
    read (a ++ b) =
      moved a.length (fun ts => tokens ++ Token.mapSpans (Span.shift a.length) ts) (read b) := by
  have happend := readAll_append (covers_refl _) hb ha
  have hmoved := movable_readAll (movable_readBody a.length maxNesting) 0 b
  rw [hmoved] at happend
  refine happend.trans ?_
  change _ = moved _ _ (readAll (readBody maxNesting) 0 b)
  cases readAll (readBody maxNesting) 0 b <;> rfl

/-- The first text ends with a parenthesis that closes nothing, and a group follows, or one that is
not closed. -/
theorem read_append_unmatched :
    read "(d!)*x)".toList =
        .ok [.group [.leaf (.ofClass .digit) .required ⟨1, 3⟩] .zeroOrMore ⟨0, 5⟩,
          .leaf (.literal 'x') .once ⟨5, 6⟩, .leaf (.literal ')') .once ⟨6, 7⟩] ∧
      Unmarked "(.)+".toList ∧ Unmarked "a(/)".toList ∧
        read "(d!)*x)(.)+".toList =
            .ok [.group [.leaf (.ofClass .digit) .required ⟨1, 3⟩] .zeroOrMore ⟨0, 5⟩,
              .leaf (.literal 'x') .once ⟨5, 6⟩, .leaf (.literal ')') .once ⟨6, 7⟩,
              .group [.leaf (.ofClass .any) .once ⟨8, 9⟩] .oneOrMore ⟨7, 11⟩] ∧
          read "(d!)*x)a(/)".toList = .error (.groupNotClosed 8) := by
  have ha : read "(d!)*x)".toList =
      .ok [.group [.leaf (.ofClass .digit) .required ⟨1, 3⟩] .zeroOrMore ⟨0, 5⟩,
        .leaf (.literal 'x') .once ⟨5, 6⟩, .leaf (.literal ')') .once ⟨6, 7⟩] := by decide +kernel
  have hgroup : Unmarked "(.)+".toList := unmarked_cons (by decide) _
  have hopen : Unmarked "a(/)".toList := unmarked_cons (by decide) _
  have hread : read "(.)+".toList =
      .ok [.group [.leaf (.ofClass .any) .once ⟨1, 2⟩] .oneOrMore ⟨0, 4⟩] := by decide +kernel
  have hfault : read "a(/)".toList = .error (.groupNotClosed 1) := by decide +kernel
  refine ⟨ha, hgroup, hopen, ?_, ?_⟩
  · refine (read_append ha hgroup).trans ?_
    rw [hread]
    rfl
  · refine (read_append ha hopen).trans ?_
    rw [hfault]
    rfl

/-! ## Reading one token by itself -/

/-- Whether a token can be read where its span starts in a text, which itself starts at a
position. -/
def ReadableIn (reading : Reader) (pos : Nat) (cs : List Char) (t : Token) : Prop :=
  ∃ front back rest, cs = front ++ back ∧ t.span.start = pos + front.length ∧
    readOne reading t.span.start back = .ok (t, rest)

/-- A token that can be read in a text can be read in more text around it. -/
theorem ReadableIn.around (hcovers : Covers reading' reading) (before : List Char)
    (hmore : Unmarked more) (h : ReadableIn reading (pos + before.length) cs t) :
    ReadableIn reading' pos (before ++ (cs ++ more)) t := by
  obtain ⟨front, back, rest, rfl, hstart, hone⟩ := h
  refine ⟨before ++ front, back ++ more, rest ++ more, ?_, ?_, readOne_append hcovers hmore hone⟩
  · simp only [List.append_assoc]
  · rw [hstart, List.length_append, Nat.add_assoc]

/-- Reading whose tokens, at any depth, can each be read by itself. -/
def ReadsSingly (reading : Reader) : Prop :=
  ∀ pos cs tokens, reading pos cs = .ok tokens →
    ∀ t ∈ Token.subtokensOf tokens, ReadableIn reading pos cs t

/-- If the tokens of bodies can each be read by themselves, so can those of a text that is read to
its end. A token in a group is followed by the rest of the body and the parenthesis that closes it,
which is no mark. -/
theorem readableIn_of_readAll (hbody : ReadsSingly reading)
    (h : readAll reading pos cs = .ok tokens) :
    ∀ t ∈ Token.subtokensOf tokens, ReadableIn reading pos cs t := by
  refine readAll_induction (motive := fun pos cs tokens =>
    ∀ t ∈ Token.subtokensOf tokens, ReadableIn reading pos cs t) ?_ ?_ h
  · intro pos t ht
    cases ht
  · intro pos t w rest ts hw hone ih u hu
    obtain hu | hu := List.mem_append.1 hu
    · obtain rfl | ⟨body, q, s, rfl, hinside⟩ := Token.mem_subtokens_iff.1 hu
      · have hstart : u.span.start = pos := by rw [hw.span_eq]
        exact ⟨[], w ++ rest, rest, rfl, hstart, hstart ▸ hone⟩
      · cases hw with
        | @group inner body q hinner hread =>
          have hclosed : Unmarked (')' :: q.render ++ rest) := unmarked_cons (by decide) _
          simpa using (hbody _ _ _ hread u hinside).around (covers_refl _) ['('] hclosed
    · simpa using (ih u hu).around (covers_refl _) w unmarked_nil

/-- The tokens of a body, at any depth, can each be read by themselves. -/
theorem readsSingly_readBody (levels : Nat) : ReadsSingly (readBody levels) := by
  induction levels with
  | zero =>
    intro pos cs tokens h
    cases h
  | succ levels ih =>
    intro pos cs tokens h t ht
    have hreadable := readableIn_of_readAll ih h t ht
    simpa using hreadable.around (covers_readBody_succ levels) [] unmarked_nil

/-- Every token of a pattern, at any depth, is what is read by itself where the token starts: the
end of the group around it and the levels that are left there make no difference. -/
theorem readAt_of_mem_subtokensOf {text : List Char} (h : read text = .ok tokens)
    (ht : t ∈ Token.subtokensOf tokens) : readAt text t.span.start = .ok t := by
  obtain ⟨front, back, rest, htext, hstart, hone⟩ :=
    readableIn_of_readAll (readsSingly_readBody maxNesting) h t ht
  have hdrop : text.drop t.span.start = back := by
    rw [htext, hstart, Nat.zero_add, List.drop_left]
  rw [readAt, hdrop, hone]
  rfl

/-- A group in a group in a group, the last token of a body, and an escaped parenthesis before
it. -/
theorem readAt_of_mem_subtokensOf_nested :
    let text := "(/)((d+)?x)!)*b".toList
    let inner : Token :=
      .group [.leaf (.ofClass .digit) .oneOrMore ⟨5, 7⟩] .optional ⟨4, 9⟩
    let last : Token := .group [inner, .leaf (.literal 'x') .once ⟨9, 10⟩] .required ⟨3, 12⟩
    let tokens : List Token :=
      [.group [.leaf (.literal ')') .once ⟨1, 3⟩, last] .zeroOrMore ⟨0, 14⟩,
        .leaf (.literal 'b') .once ⟨14, 15⟩]
    read text = .ok tokens ∧ last ∈ Token.subtokensOf tokens ∧ readAt text 3 = .ok last ∧
      inner ∈ Token.subtokensOf tokens ∧ readAt text 4 = .ok inner := by
  intro text inner last tokens
  have hread : read text = .ok tokens := by decide +kernel
  have hlast : last ∈ Token.subtokensOf tokens := by decide
  have hinner : inner ∈ Token.subtokensOf tokens := by decide
  exact ⟨hread, hlast, readAt_of_mem_subtokensOf hread hlast, hinner,
    readAt_of_mem_subtokensOf hread hinner⟩

end Pattern

end InputMask

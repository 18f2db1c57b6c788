import Mathlib.Algebra.Group.Embedding
import Mathlib.Data.Finset.Card
import InputMask.Proofs.Pattern.Extent
import InputMask.Proofs.Pattern.Spelling

/-!
# What a fault says of the text

Where reading fails, the text up to the fault was read (`exists_unread`), and the fault is one of a
few that the first symbol of the rest allows, or one in the body of a group whose end was found.
`Failure` follows the fault into these bodies, one constructor for each way to fail. Such a body
leaves nothing escaped and closes all that it opens (`groupBody?_eq_some_iff`), so the two faults
that a text has for ending too early are not faults of a body (`Failure.of_closes`). What each fault
says of the whole text is `Explains`.
-/

set_option autoImplicit false

namespace InputMask

namespace Pattern

variable {c : Char} {cs front rest body w more : List Char} {pos levels : Nat} {reading : Reader}
  {t : Token} {tokens : List Token} {e : Fault}

/-! ## Texts that can be read leave nothing escaped -/

/-- The mark of a quantifier leaves nothing escaped. -/
theorem not_escapes_render {q : Quantifier} : ¬Escapes q.render := by cases q <;> decide

/-- A character that may stand for itself is read as a literal. -/
theorem bareLeaf_of_plain {outside : Bool}
    (hc : isSpecial c = false ∨ outside = true ∧ c = ')') :
    c ≠ escapeMark ∧ c ≠ '(' ∧ Quantifier.isMark c = false ∧ bareLeaf c = .literal c := by
  obtain hplain | ⟨-, rfl⟩ := hc
  · simp only [isSpecial, Bool.or_eq_false_iff, decide_eq_false_iff_not, Option.isSome_eq_false_iff,
      Option.isNone_iff_eq_none] at hplain
    obtain ⟨⟨⟨⟨hescape, hopen⟩, hclose⟩, hsymbol⟩, hmark⟩ := hplain
    exact ⟨hescape, hopen, hmark, by simp only [bareLeaf, hsymbol]⟩
  · decide

/-- The characters that a leaf is written with leave nothing escaped. -/
theorem not_escapes_spelling {l : Leaf} (h : l.Spelling true w) : ¬Escapes w := by
  cases h with
  | symbol k => cases k <;> decide
  | escaped c =>
    have hpair : Escapes ([escapeMark] ++ [c]) ↔ c = escapeMark ∧ ¬Escapes [escapeMark] :=
      escapes_concat
    exact fun h => (hpair.1 h).2 (escapes_singleton.2 rfl)
  | @bare c hc =>
    exact fun h => (bareLeaf_of_plain hc).1 (escapes_singleton.1 h)

/-- The characters of a token leave nothing escaped. -/
theorem Wording.not_escapes (h : Wording reading pos t w) : ¬Escapes w := by
  cases h with
  | leaf hl =>
    rw [escapes_append (not_escapes_spelling hl)]
    exact not_escapes_render
  | group hinner hbody =>
    rw [escapes_append_cons (by decide)]
    exact not_escapes_render

/-- Reading ends where the next character is not escaped. -/
theorem not_escapes_of_readAll (h : readAll reading pos front = .ok tokens) : ¬Escapes front := by
  refine readAll_induction (motive := fun _ cs _ => ¬Escapes cs) ?_ ?_ h
  · intro pos
    exact not_escapes_nil
  · intro pos t w rest ts hw hone ih
    rwa [escapes_append hw.not_escapes]

/-! ## The text before a fault -/

/-- A mark that follows a token is read with it. -/
theorem unmarked_of_readOne (h : readOne reading pos cs = .ok (t, rest))
    (hq : t.quantifier = .once) :
    Unmarked rest := by
  cases front_of_readOne h with
  | escaped c hread => exact (readQuantifier_eq_ok_iff.1 hread).2 hq
  | group hgroup hbody hread => exact (readQuantifier_eq_ok_iff.1 hread).2 hq
  | bare hescape hopen hc hread => exact (readQuantifier_eq_ok_iff.1 hread).2 hq

/-- A leaf is read from each way to write it, with the quantifier that follows. -/
theorem readOne_spelling {l : Leaf} {q : Quantifier} (h : l.Spelling true w)
    (hq : readQuantifier cs = .ok (q, rest)) :
    readOne reading pos (w ++ cs) = .ok (.leaf l q ⟨pos, pos + w.length + q.width⟩, rest) := by
  cases h with
  | symbol k => cases k <;> exact readMarked_eq hq _ pos 1
  | escaped c => exact (Front.escaped c hq).readOne_eq
  | bare hc =>
    obtain ⟨hescape, hopen, hmark, hleaf⟩ := bareLeaf_of_plain hc
    rw [← hleaf]
    exact (Front.bare hescape hopen hmark hq).readOne_eq

/-- A token is read from its characters, whatever follows them that is not a mark for it. -/
theorem Wording.readOne_eq (h : Wording reading pos t w)
    (hmore : t.quantifier = .once → Unmarked more) :
    readOne reading pos (w ++ more) = .ok (t, more) := by
  cases h with
  | @leaf l q w hl =>
    rw [List.append_assoc]
    exact readOne_spelling hl (readQuantifier_render q hmore)
  | @group inner body q hinner hbody =>
    have hgroup := Front.group (hinner.groupBody? (q.render ++ more)) hbody
      (readQuantifier_render q hmore)
    rw [List.append_assoc]
    exact hgroup.readOne_eq

/-- A text that starts with no mark has no start that does. -/
theorem Unmarked.of_append (h : Unmarked (cs ++ more)) : Unmarked cs := by
  cases cs with
  | nil => exact unmarked_nil
  | cons c cs => exact unmarked_cons (h c rfl) cs

/-- The characters of a token end with the mark of its quantifier. -/
theorem Wording.render_suffix (h : Wording reading pos t w) : t.quantifier.render <:+ w := by
  cases h with
  | leaf hl => exact List.suffix_append _ _
  | @group inner body q hinner hbody => exact ⟨'(' :: inner ++ [')'], by simp [Token.quantifier]⟩

/-- A text ends with the mark of the last token that it is read as, if this has one. -/
theorem ends_of_readAll (h : readAll reading pos cs = .ok tokens) :
    (tokens = [] → cs = []) ∧ ∀ t ∈ tokens.getLast?, t.quantifier.render <:+ cs := by
  refine readAll_induction (motive := fun _ cs tokens =>
    (tokens = [] → cs = []) ∧ ∀ t ∈ tokens.getLast?, t.quantifier.render <:+ cs) ?_ ?_ h
  · intro pos
    exact ⟨fun _ => rfl, by simp⟩
  · intro pos t w rest ts hw hone ih
    refine ⟨fun hnil => (List.cons_ne_nil _ _ hnil).elim, fun last hlast => ?_⟩
    rw [List.getLast?_cons, Option.mem_some_iff] at hlast
    cases hts : ts.getLast? with
    | some t' =>
      rw [hts, Option.getD_some] at hlast
      exact (ih.2 last (hlast ▸ hts)).trans (List.suffix_append w rest)
    | none =>
      obtain rfl : ts = [] := List.getLast?_eq_none_iff.1 hts
      obtain rfl : t = last := hlast
      obtain rfl : rest = [] := ih.1 rfl
      rw [List.append_nil]
      exact hw.render_suffix

/-- Where reading fails, some text was read to its end, with any mark that follows it, and no token
can be read from the rest. -/
theorem exists_unread (h : readAll reading pos cs = .error e) :
    ∃ front rest tokens, cs = front ++ rest ∧ rest ≠ [] ∧ readAll reading pos front = .ok tokens ∧
      (∀ t ∈ tokens.getLast?, t.quantifier = .once → Unmarked rest) ∧
        readOne reading (pos + front.length) rest = .error e := by
  induction pos, cs using readAll.induct reading with
  | case1 pos =>
    rw [readAll_nil] at h
    cases h
  | case2 pos c cs e' hone =>
    rw [readAll_cons, hone] at h
    cases h
    exact ⟨[], c :: cs, [], rfl, List.cons_ne_nil _ _, readAll_nil _ _, by simp, hone⟩
  | case3 pos c cs t rest hone e' hrest ih =>
    rw [readAll_cons, hone] at h
    simp only [hrest] at h
    cases h
    obtain ⟨front, rest', tokens, rfl, hne, hfront, hlast, hfault⟩ := ih hrest
    obtain ⟨w, hw, happend⟩ := exists_wording hone
    have hstop : t.span.stop = pos + w.length := by rw [hw.span_eq]
    -- the first token is read alike in front of less text, as no mark of its own is cut off
    have hmore : t.quantifier = .once → Unmarked (front ++ rest') := unmarked_of_readOne hone
    have hone' : readOne reading pos (w ++ front) = .ok (t, front) :=
      hw.readOne_eq fun hq => (hmore hq).of_append
    refine ⟨w ++ front, rest', t :: tokens, ?_, hne, readAll_of_readOne hone' hfront, ?_, ?_⟩
    · rw [happend, List.append_assoc]
    · intro last hmem hq
      rw [List.getLast?_cons, Option.mem_some_iff] at hmem
      cases htokens : tokens.getLast? with
      | some t' =>
        rw [htokens, Option.getD_some] at hmem
        exact hlast last (hmem ▸ htokens) hq
      | none =>
        obtain rfl : tokens = [] := List.getLast?_eq_none_iff.1 htokens
        obtain rfl : front = [] := (ends_of_readAll hfront).1 rfl
        obtain rfl : t = last := hmem
        exact hmore hq
    · rw [List.length_append, ← Nat.add_assoc, ← hstop]
      exact hfault
  | case4 pos c cs t rest hone ts hrest ih =>
    rw [readAll_cons, hone] at h
    simp only [hrest] at h
    cases h

/-! ## How reading fails -/

/-- How reading fails for a text that starts at a position, with so many levels left for groups:
after some text that was read, or in the body of a group that follows it. -/
inductive Failure : Nat → Nat → List Char → Fault → Prop
  | escapeAtEnd {levels pos : Nat} {front : List Char} {tokens : List Token}
      (hfront : readAll (readBody levels) pos front = .ok tokens) :
      Failure levels pos (front ++ [escapeMark]) .escapeAtEnd
  | notClosed {levels pos : Nat} {front rest : List Char} {tokens : List Token}
      (hfront : readAll (readBody levels) pos front = .ok tokens) (hrest : Unclosed rest) :
      Failure levels pos (front ++ '(' :: rest) (.groupNotClosed (pos + front.length))
  | strayMark {levels pos : Nat} {c : Char} {front rest : List Char} {tokens : List Token}
      (hfront : readAll (readBody levels) pos front = .ok tokens)
      (hlast : ∀ t ∈ tokens.getLast?, t.quantifier ≠ .once) (hc : Quantifier.isMark c = true) :
      Failure levels pos (front ++ c :: rest) (.strayMark c (pos + front.length))
  | tooDeep {pos : Nat} {front rest : List Char} {tokens : List Token}
      (hfront : readAll (readBody 0) pos front = .ok tokens) :
      Failure 0 pos (front ++ '(' :: rest) .tooDeep
  | inBody {levels pos : Nat} {front body rest : List Char} {tokens : List Token} {e : Fault}
      (hfront : readAll (readBody (levels + 1)) pos front = .ok tokens)
      (hcloses : Closes body) (hbefore : Unclosed body)
      (hbody : Failure levels (pos + front.length + 1) body e) :
      Failure (levels + 1) pos (front ++ '(' :: (body ++ ')' :: rest)) e

/-- If a text cannot be read, it fails in one of these ways. -/
theorem failure_of_readAll (h : readAll (readBody levels) pos cs = .error e) :
    Failure levels pos cs e := by
  induction levels using Nat.strongRecOn generalizing pos cs with
  | ind levels ih =>
    obtain ⟨front, rest, tokens, rfl, hne, hfront, hlast, hone⟩ := exists_unread h
    have hrest : Front (readBody levels) (pos + front.length) rest _ := readOne_front _ _ rest
    rw [hone] at hrest
    cases hrest with
    | nothing => exact absurd rfl hne
    | escapeAtEnd => exact .escapeAtEnd hfront
    | notClosed hgroup => exact .notClosed hfront (groupBody?_eq_none_iff.1 hgroup)
    | @badBody cs body rest _ hgroup hbody =>
      obtain ⟨rfl, hcloses, hbefore⟩ := groupBody?_eq_some_iff.1 hgroup
      cases levels with
      | zero =>
        cases hbody
        exact .tooDeep hfront
      | succ levels => exact .inBody hfront hcloses hbefore (ih levels (Nat.lt_succ_self _) hbody)
    | @strayMark c hc cs =>
      refine .strayMark hfront (fun t ht hq => ?_) hc
      have hunmarked : Quantifier.isMark c = false := hlast t ht hq c rfl
      rw [hc] at hunmarked
      cases hunmarked

/-- In the body of a group, no escape mark is the last character and no group lacks its end. -/
theorem Failure.of_closes (h : Failure levels pos cs e) (hcloses : Closes cs)
    (hbefore : Unclosed cs) :
    e ≠ .escapeAtEnd ∧ ∀ start, e ≠ .groupNotClosed start := by
  induction h with
  | escapeAtEnd hfront =>
    exact absurd (escapes_concat.2 ⟨rfl, not_escapes_of_readAll hfront⟩) hcloses.1
  | @notClosed levels pos front rest tokens hfront hrest =>
    -- the group that is not closed leaves more parentheses that open than ones that close
    have hcount : ∀ c, unescaped c (front ++ '(' :: rest) =
        unescaped c front + (unescaped c ['('] + unescaped c rest) := by
      intro c
      rw [unescaped_append (not_escapes_of_readAll hfront), ← List.singleton_append,
        unescaped_append (by decide)]
    have hopens : unescaped '(' ['('] = 1 := by decide
    have hshuts : unescaped ')' ['('] = 0 := by decide
    have hclosed := hcloses.2
    rw [hcount, hcount, hopens, hshuts] at hclosed
    have hfront_le := hbefore.of_append.unescaped_le
    have hrest_le := hrest.unescaped_le
    omega
  | strayMark hfront hlast hc => exact ⟨nofun, fun _ => nofun⟩
  | tooDeep hfront => exact ⟨nofun, fun _ => nofun⟩
  | inBody hfront hclosesBody hbeforeBody hbody ih => exact ih hclosesBody hbeforeBody

/-! ## What a fault says -/

/-- Whether a text ends where a pattern starts: nothing stands before, or the parenthesis that opens
a group. -/
def AtStart (outside : List Char) : Prop :=
  outside = [] ∨ ∃ before, outside = before ++ ['('] ∧ ¬Escapes before

/-- Whether a text, which starts at a position, is read with a mark as the end of its last token. -/
def EndsMarked (reading : Reader) (pos : Nat) (inside : List Char) : Prop :=
  ∃ tokens t, readAll reading pos inside = .ok tokens ∧ t ∈ tokens.getLast? ∧ t.quantifier ≠ .once ∧
    t.quantifier.render <:+ inside

/-- Whether at some place in a text a group is opened that the text does not close. -/
def OpenAt (front : List Char) (place : Nat) : Prop :=
  front[place]? = some '(' ∧ ¬Escapes (front.take place) ∧ Unclosed (front.drop (place + 1))

/-- What a fault says of a text that starts at a position, where so many levels are left for
groups. -/
def Explains (levels pos : Nat) (cs : List Char) : Fault → Prop
  | .escapeAtEnd =>
    ∃ front tokens, cs = front ++ [escapeMark] ∧ readAll (readBody levels) pos front = .ok tokens
  | .groupNotClosed start =>
    ∃ front rest tokens, cs = front ++ '(' :: rest ∧ start = pos + front.length ∧ ¬Escapes front ∧
      Unclosed rest ∧ readAll (readBody levels) pos front = .ok tokens
  | .strayMark c place =>
    ∃ outside inside rest, cs = outside ++ (inside ++ c :: rest) ∧
      place = pos + (outside ++ inside).length ∧ Quantifier.isMark c = true ∧
        ¬Escapes (outside ++ inside) ∧ AtStart outside ∧
          (inside = [] ∨ ∃ inner, EndsMarked (readBody inner) (pos + outside.length) inside)
  | .tooDeep =>
    ∃ front rest, ∃ places : Finset Nat, cs = front ++ rest ∧ levels < places.card ∧
      ∀ place ∈ places, OpenAt front place
  | .notAMark _ => False
  | .nothingLeft => False

/-- A mark that finds no token to apply to has nothing before it, or another mark. -/
theorem explains_strayMark (hfront : readAll (readBody levels) pos front = .ok tokens)
    (hlast : ∀ t ∈ tokens.getLast?, t.quantifier ≠ .once) (hc : Quantifier.isMark c = true)
    (rest : List Char) :
    Explains levels pos (front ++ c :: rest) (.strayMark c (pos + front.length)) := by
  refine ⟨[], front, rest, rfl, rfl, hc, not_escapes_of_readAll hfront, .inl rfl, ?_⟩
  cases htokens : tokens.getLast? with
  | none => exact .inl ((ends_of_readAll hfront).1 (List.getLast?_eq_none_iff.1 htokens))
  | some t =>
    have hends := (ends_of_readAll hfront).2 t htokens
    exact .inr ⟨levels, tokens, t, hfront, htokens, hlast t htokens, hends⟩

/-- What was passed before, leaving nothing escaped, moves the groups that are open and nothing
else. -/
theorem OpenAt.append {place : Nat} (h : OpenAt cs place) (hfront : ¬Escapes front) :
    OpenAt (front ++ cs) (front.length + place) := by
  obtain ⟨hopen, hescapes, hrest⟩ := h
  refine ⟨?_, ?_, ?_⟩
  · rwa [List.getElem?_append_right (Nat.le_add_right _ _), Nat.add_sub_cancel_left]
  · rwa [List.take_length_add_append, escapes_append hfront]
  · rwa [Nat.add_assoc, List.drop_length_add_append]

/-- The parenthesis of a group is open as long as its body goes on. -/
theorem openAt_length (hfront : ¬Escapes front) (hbody : Unclosed body) :
    OpenAt (front ++ '(' :: body) front.length := by
  refine ⟨by simp, by simpa using hfront, ?_⟩
  rwa [List.drop_length_add_append, List.drop_one, List.tail_cons]

/-- What a fault in the body of a group says of the whole text. -/
theorem Explains.inBody (hfront : ¬Escapes front) (hcloses : Closes body) (hbefore : Unclosed body)
    (hend : e ≠ .escapeAtEnd ∧ ∀ start, e ≠ .groupNotClosed start)
    (h : Explains levels (pos + front.length + 1) body e) (rest : List Char) :
    Explains (levels + 1) pos (front ++ '(' :: (body ++ ')' :: rest)) e := by
  cases e with
  | escapeAtEnd => exact absurd rfl hend.1
  | groupNotClosed start => exact absurd rfl (hend.2 start)
  | notAMark c => exact h
  | nothingLeft => exact h
  | strayMark c place =>
    obtain ⟨outside, inside, after, rfl, rfl, hc, hescapes, hstart, hends⟩ := h
    refine ⟨front ++ '(' :: outside, inside, after ++ ')' :: rest, by simp, ?_, hc, ?_, ?_, ?_⟩
    · simp only [List.length_append, List.length_cons]
      omega
    · rwa [List.append_assoc, List.cons_append, escapes_append_cons (by decide)]
    · right
      obtain rfl | ⟨before, rfl, hescapes⟩ := hstart
      · exact ⟨front, rfl, hfront⟩
      · exact ⟨front ++ '(' :: before, by simp, by rwa [escapes_append_cons (by decide)]⟩
    · refine hends.imp_right ?_
      rintro ⟨inner, hmarked⟩
      refine ⟨inner, ?_⟩
      have hplace :
          pos + (front ++ '(' :: outside).length = pos + front.length + 1 + outside.length := by
        simp only [List.length_append, List.length_cons]
        omega
      rwa [hplace]
  | tooDeep =>
    obtain ⟨inner, after, places, rfl, hcard, hopen⟩ := h
    have hpassed : ¬Escapes (front ++ ['(']) := fun h => absurd (escapes_concat.1 h).1 (by decide)
    -- besides the groups that are open within the body, the group of the body is
    refine ⟨front ++ '(' :: inner, after ++ ')' :: rest,
      insert front.length (places.map (addLeftEmbedding (front.length + 1))), by simp, ?_, ?_⟩
    · rw [Finset.card_insert_of_notMem, Finset.card_map]
      · exact Nat.succ_lt_succ hcard
      · simp only [Finset.mem_map, addLeftEmbedding_apply, not_exists, not_and]
        intro place _
        omega
    · intro place hplace
      obtain rfl | hplace := Finset.mem_insert.1 hplace
      · exact openAt_length hfront hbefore.of_append
      · obtain ⟨place, hmem, rfl⟩ := Finset.mem_map.1 hplace
        have hmoved := (hopen place hmem).append hpassed
        rwa [List.length_append, ← List.append_cons] at hmoved

/-- Each way to fail has the fault that says so. -/
theorem Failure.explains (h : Failure levels pos cs e) : Explains levels pos cs e := by
  induction h with
  | escapeAtEnd hfront => exact ⟨_, _, rfl, hfront⟩
  | notClosed hfront hrest =>
    exact ⟨_, _, _, rfl, rfl, not_escapes_of_readAll hfront, hrest, hfront⟩
  | strayMark hfront hlast hc => exact explains_strayMark hfront hlast hc _
  | @tooDeep pos front rest tokens hfront =>
    refine ⟨front ++ ['('], rest, {front.length}, by simp, by simp, fun place hplace => ?_⟩
    obtain rfl := Finset.mem_singleton.1 hplace
    exact openAt_length (not_escapes_of_readAll hfront) unclosed_nil
  | inBody hfront hcloses hbefore hbody ih =>
    exact ih.inBody (not_escapes_of_readAll hfront) hcloses hbefore
      (hbody.of_closes hcloses hbefore) _

/-- No pattern is refused for a character that is not the mark of a quantifier: what is read as a
mark was seen to be one before. -/
theorem read_ne_notAMark (text : List Char) (c : Char) : read text ≠ .error (.notAMark c) :=
  fun h => (failure_of_readAll h).explains

/-- A fault says what is wrong with a pattern and where, and only outside of groups is it that the
text ends too early. -/
theorem explains_of_read_error {text : List Char} (h : read text = .error e) :
    Explains maxNesting 0 text e ∧
      ∀ (inside body rest : List Char) (levels pos : Nat) (e' : Fault),
        groupBody? inside = some (body, rest) → readBody levels pos body = .error e' →
          e' ≠ .escapeAtEnd ∧ ∀ start, e' ≠ .groupNotClosed start := by
  refine ⟨(failure_of_readAll h).explains, ?_⟩
  intro inside body rest levels pos e' hgroup hbody
  obtain ⟨-, hcloses, hbefore⟩ := groupBody?_eq_some_iff.1 hgroup
  cases levels with
  | zero =>
    cases hbody
    exact ⟨nofun, fun _ => nofun⟩
  | succ levels => exact (failure_of_readAll hbody).of_closes hcloses hbefore

/-- A mark after the mark of a token, in a group in a group; the first parenthesis is escaped, and
the second one closes nothing. -/
theorem explains_of_read_error_nested :
    read "/()(a(d?*))".toList = .error (.strayMark '*' 8) ∧
      Explains maxNesting 0 "/()(a(d?*))".toList (.strayMark '*' 8) ∧
        groupBody? "a(d?*))".toList = some ("a(d?*)".toList, []) ∧
          readBody 32 4 "a(d?*)".toList = .error (.strayMark '*' 8) ∧
            ((.strayMark '*' 8 : Fault) ≠ .escapeAtEnd ∧
              ∀ start, (.strayMark '*' 8 : Fault) ≠ .groupNotClosed start) := by
  have hread : read "/()(a(d?*))".toList = .error (.strayMark '*' 8) := by decide +kernel
  have hgroup : groupBody? "a(d?*))".toList = some ("a(d?*)".toList, []) := by decide
  have hbody : readBody 32 4 "a(d?*)".toList = .error (.strayMark '*' 8) := by decide +kernel
  obtain ⟨hexplains, hends⟩ := explains_of_read_error hread
  exact ⟨hread, hexplains, hgroup, hbody, hends _ _ _ 32 4 _ hgroup hbody⟩

end Pattern

end InputMask

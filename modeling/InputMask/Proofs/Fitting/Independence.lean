import InputMask.Proofs.HooklessMask
import InputMask.Proofs.Fitting.Replay

/-!
# What a fitting does not look at

The captures that a draft has already, its text and its selection have no say in what a fitting
makes of a value. The captures stay in front of those that are made (`Draft.fit_withEarlier`). Two
drafts that agree in all but text and selection (`Draft.AsFar`) are fitted by the same events, so
they end as far along as each other, and the same is added to both texts. The selection is asked for
only in comparison with the length of the text (`Sheet.Offset.precedes`): if both stand further on
by a number of characters, they do so at the end as well.
-/

set_option autoImplicit false

namespace InputMask

/-! ## Sheets with an offset -/

namespace Sheet

variable {s s' : Sheet} {k : Int} {value : List Char}

/-- A sheet on which the text is longer than on another by a number of characters, and the selection
stands as many characters further on. -/
structure Offset (k : Int) (s s' : Sheet) : Prop where
  length : (s'.length : Int) = s.length + k
  selection : s'.selection = s.selection.shift k

/-- The selection starts as far on as the sheets are apart. -/
theorem Offset.start (h : Offset k s s') : s'.selection.start = s.selection.start + k :=
  congrArg Selection.start h.selection

/-- The selection stops as far on as the sheets are apart. -/
theorem Offset.stop (h : Offset k s s') : s'.selection.stop = s.selection.stop + k :=
  congrArg Selection.stop h.selection

/-- An offset does not change whether the text ends before the selection. -/
theorem Offset.precedes (h : Offset k s s') (inputLeft : Bool) :
    s'.precedes inputLeft = s.precedes inputLeft := by
  have hlt : (s'.length : Int) < s'.selection.start ↔ (s.length : Int) < s.selection.start := by
    rw [h.length, h.start]
    omega
  have heq : (s'.length : Int) = s'.selection.start ↔ (s.length : Int) = s.selection.start := by
    rw [h.length, h.start]
    omega
  simp only [Sheet.precedes, hlt, Bool.beq_eq_decide_eq, heq]

/-- The sheets stay as far apart when a character is written on both. -/
theorem Offset.write (h : Offset k s s') (c : Char) : Offset k (s.write c) (s'.write c) := by
  have hlength := h.length
  refine ⟨?_, h.selection⟩
  simp only [Sheet.write]
  omega

/-- The sheets stay as far apart when both selections are moved. -/
theorem Offset.shift (h : Offset k s s') (δ : Int) : Offset k (s.shift δ) (s'.shift δ) := by
  refine ⟨h.length, ?_⟩
  simp only [Sheet.shift, h.selection, Selection.shift, Selection.mk.injEq]
  omega

/-- The sheets stay as far apart after an event on both. -/
theorem Offset.after (h : Offset k s s') (e : Event) :
    Offset k (s.after value e) (s'.after value e) := by
  cases e with
  | take i =>
    cases hi : value[i]? with
    | none => simpa [Sheet.after, hi] using h
    | some c => simpa [Sheet.after, hi] using h.write c
  | drop i =>
    simp only [Sheet.after, h.precedes]
    split
    · exact h.shift (-1)
    · exact h
  | fill c i =>
    simp only [Sheet.after, h.precedes]
    split
    · exact (h.write c).shift 1
    · exact h.write c

/-- Replaying events keeps an offset. -/
theorem Offset.replay (h : Offset k s s') (es : List Event) :
    Offset k (replay value es s) (replay value es s') := by
  induction es generalizing s s' with
  | nil => exact h
  | cons e es ih => exact ih (h.after e)

end Sheet

/-! ## Captures that are there already -/

/-- The draft with captures before those that it has. -/
def Draft.withEarlier (d : Draft) (earlier : List Capture) : Draft :=
  { d with captures := earlier ++ d.captures }

/-- The end of a step, with captures before those that are there. -/
def Step.withEarlier : Step → List Capture → Step
  | goOn d, earlier => .goOn (d.withEarlier earlier)
  | stop d, earlier => .stop (d.withEarlier earlier)

namespace Draft

variable {d : Draft} {o : Options} {value : List Char} {tokens : List Token}
  {earlier : List Capture}
  {q : Quantifier}

/-- A capture ends in the same way after earlier ones. -/
theorem endCapture_withEarlier :
    (d.withEarlier earlier).endCapture = d.endCapture.withEarlier earlier := by
  cases hpending : d.pending with
  | nil => simp [endCapture, withEarlier, hpending]
  | cons c cs =>
    by_cases hdepth : 1 < d.depth <;> simp [endCapture, withEarlier, hpending, hdepth]

/-- Whether to stay at a token after a match does not depend on earlier captures. -/
theorem afterMatch_withEarlier :
    (d.withEarlier earlier).afterMatch q = (d.afterMatch q).withEarlier earlier := by
  unfold afterMatch
  split <;> rfl

/-- Whether a token may be left does not depend on earlier captures. -/
theorem moveOn_withEarlier :
    (d.withEarlier earlier).moveOn q = (d.moveOn q).withEarlier earlier := by
  by_cases h : q.MayEnd d.repeats
  · rw [moveOn_of_mayEnd h]
    exact moveOn_of_mayEnd h
  · rw [moveOn_of_not_mayEnd h]
    exact moveOn_of_not_mayEnd h

/-- A character is left out in the same way after earlier captures. -/
theorem dropChar_withEarlier (before : Bool) :
    (d.withEarlier earlier).dropChar before = (d.dropChar before).withEarlier earlier := by
  cases before <;> rfl

/-- A character that does not match is met in the same way after earlier captures. -/
theorem onMismatch_withEarlier (c : Char) (before : Bool) :
    (d.withEarlier earlier).onMismatch o tokens c before =
      (d.onMismatch o tokens c before).withEarlier earlier := by
  have htoken : (d.withEarlier earlier).tokenIndex = d.tokenIndex := rfl
  unfold onMismatch
  rw [htoken]
  split
  · rfl
  · split
    · exact congrArg Step.goOn (dropChar_withEarlier before)
    · rfl

/-- A class is fitted in the same way after earlier captures. -/
theorem fitClass_withEarlier (k : CharClass) (next : Option Char) (before : Bool) :
    (d.withEarlier earlier).fitClass o tokens k q next before =
      (d.fitClass o tokens k q next before).withEarlier earlier := by
  unfold fitClass
  split
  · exact moveOn_withEarlier
  · next c =>
    split
    · exact congrArg Step.goOn (afterMatch_withEarlier (d := (d.capture c).passChar))
    · split
      · exact onMismatch_withEarlier c before
      · exact moveOn_withEarlier

/-- A literal is fitted in the same way after earlier captures. -/
theorem fitLiteral_withEarlier (c : Char) (next : Option Char) (before : Bool) :
    (d.withEarlier earlier).fitLiteral o c q next before =
      (d.fitLiteral o c q next before).withEarlier earlier := by
  unfold fitLiteral
  rw [endCapture_withEarlier]
  split
  · exact congrArg Step.goOn (afterMatch_withEarlier (d := (d.endCapture.write c).passChar))
  · split
    · cases before <;> rfl
    · split
      · rfl
      · exact moveOn_withEarlier

/-- The scope of a group holds no earlier captures. -/
theorem fitGroup_withEarlier (fitBody : Draft → Draft) :
    (d.withEarlier earlier).fitGroup value fitBody q =
      (d.fitGroup value fitBody q).withEarlier earlier := by
  have hopens : (d.withEarlier earlier).endCapture.openScope = d.endCapture.openScope := by
    rw [endCapture_withEarlier]
    rfl
  have hcloses : ∀ (e : Draft) (captured : Option (List Capture)),
      e.closeScope (d.withEarlier earlier).endCapture captured =
        (e.closeScope d.endCapture captured).withEarlier earlier := by
    intro e captured
    rw [endCapture_withEarlier]
    simp [closeScope, withEarlier]
  rw [fitGroup_eq, fitGroup_eq, hopens]
  dsimp only
  rw [hcloses]
  split <;> rfl

/-- A step goes in the same way after earlier captures, which stay in front of those that it
makes. -/
theorem step_withEarlier (fitBody : Draft → Draft) (t : Token) :
    (d.withEarlier earlier).step o value tokens fitBody t =
      (d.step o value tokens fitBody t).withEarlier earlier := by
  have hsame : (d.withEarlier earlier).rejects o tokens value[d.valueIndex]? =
      d.rejects o tokens value[d.valueIndex]? := rfl
  cases hrejects : d.rejects o tokens value[d.valueIndex]? with
  | true =>
    rw [step_rejected hrejects, step_rejected (hsame.trans hrejects)]
    split
    · exact congrArg Step.goOn (dropChar_withEarlier _)
    · rfl
  | false =>
    cases t with
    | leaf l q s =>
      cases l with
      | ofClass k =>
        rw [step_class hrejects, step_class (hsame.trans hrejects)]
        exact fitClass_withEarlier k _ _
      | literal c =>
        rw [step_literal hrejects, step_literal (hsame.trans hrejects)]
        exact fitLiteral_withEarlier c _ _
    | group body q s =>
      rw [step_group hrejects, step_group (hsame.trans hrejects)]
      exact fitGroup_withEarlier fitBody

/-- So does stepping through tokens. -/
theorem walk_withEarlier (o : Options) (value : List Char) (tokens : List Token) (d : Draft) :
    walk o value tokens (fitBodies o value tokens) (d.withEarlier earlier) =
      (walk o value tokens (fitBodies o value tokens) d).withEarlier earlier := by
  induction d using stepInduction o value tokens with
  | hend d ht =>
    rw [walk_none ht]
    exact walk_none ht
  | hstop d t d' ht hstop =>
    rw [walk_stop ht hstop]
    refine walk_stop (d := d.withEarlier earlier) ht ?_
    rw [step_withEarlier, hstop]
    rfl
  | hgo d t d' ht hgo ih =>
    rw [walk_goOn ht hgo, ← ih]
    refine walk_goOn (d := d.withEarlier earlier) ht ?_
    rw [step_withEarlier, hgo]
    rfl

/-- Captures that are there already stay in front of those that a fitting makes, and change nothing
else. -/
theorem fit_withEarlier (o : Options) (value : List Char) (tokens : List Token) (d : Draft)
    (earlier : List Capture) :
    fit o value tokens (d.withEarlier earlier) = (fit o value tokens d).withEarlier earlier := by
  have hwalked : (d.withEarlier earlier).walked o value tokens =
      (d.walked o value tokens).withEarlier earlier := walk_withEarlier o value tokens d.enter
  rw [fit_eq_settled, fit_eq_settled, hwalked]
  cases d.walked o value tokens <;>
  · simp only [settled, Step.withEarlier, Step.draft, endCapture_withEarlier]
    rfl

end Draft

/-! ## Drafts that are as far along -/

namespace Draft

variable {d d' : Draft}

/-- Two drafts agree in everything but the text and the selection. -/
structure AsFar (d d' : Draft) : Prop where
  complete : d'.complete = d.complete
  captures : d'.captures = d.captures
  tokenIndex : d'.tokenIndex = d.tokenIndex
  valueIndex : d'.valueIndex = d.valueIndex
  skipped : d'.skipped = d.skipped
  repeats : d'.repeats = d.repeats
  pending : d'.pending = d.pending
  depth : d'.depth = d.depth

/-- Two sheets make no difference to how far a draft has come. -/
theorem asFar_on (d : Draft) (s s' : Sheet) : AsFar (d.on s) (d.on s') :=
  ⟨rfl, rfl, rfl, rfl, rfl, rfl, rfl, rfl⟩

/-- Drafts that are as far along differ only in their sheets. -/
theorem AsFar.eq_on (h : AsFar d d') : d' = d.on d'.sheet := by
  obtain ⟨hcomplete, hcaptures, htoken, hvalue, hskipped, hrepeats, hpending, hdepth⟩ := h
  cases d
  cases d'
  cases hcomplete
  cases hcaptures
  cases htoken
  cases hvalue
  cases hskipped
  cases hrepeats
  cases hpending
  cases hdepth
  rfl

/-- Two drafts that agree in everything but the text and the selection do so after a fitting, which
adds the same to both texts; and if one text is longer by a number of characters, with the selection
as many characters further on, then it ends as far further on. -/
theorem fit_of_asFar (o : Options) (value : List Char) (tokens : List Token) (h : AsFar d d') :
    AsFar (fit o value tokens d) (fit o value tokens d') ∧
      (∃ w, (fit o value tokens d).text = d.text ++ w ∧
        (fit o value tokens d').text = d'.text ++ w) ∧
        ∀ k : Int, Sheet.Offset k d.sheet d'.sheet →
          (fit o value tokens d').selection = (fit o value tokens d).selection.shift k := by
  obtain ⟨es, -, hreplay⟩ := fit_retraces o value tokens d
  have hfit : fit o value tokens d = (fit o value tokens d).on (replay value es d.sheet) :=
    hreplay d.sheet
  have hfit' : fit o value tokens d' = (fit o value tokens d).on (replay value es d'.sheet) := by
    have hsame := hreplay d'.sheet
    rwa [← h.eq_on] at hsame
  rw [hfit', hfit]
  refine ⟨asFar_on _ _ _, ⟨es.filterMap (Event.output value), ?_, ?_⟩, fun k hk => ?_⟩
  · exact replay_text value es d.sheet
  · exact replay_text value es d'.sheet
  · exact (hk.replay es).selection

/-- The second draft has two characters more, and its selection stands two further on. In this value
a character is left out, a literal is filled in, and the last repetition of the group is taken
back. -/
theorem fit_of_asFar_repeated :
    ∃ m, Mask.ofSource "<(d-!)*d>x!".toList = .ok m ∧
      AsFar (.ofSelection 2 3) ((Draft.ofSelection 4 5).withText "ab".toList) ∧
        Sheet.Offset 2 (Draft.ofSelection 2 3).sheet
          ((Draft.ofSelection 4 5).withText "ab".toList).sheet ∧
          (fit {} "5-?6-7>y".toList m.tokens ((Draft.ofSelection 4 5).withText "ab".toList)).text =
            "ab<5-6-7>".toList ∧
            (fit {} "5-?6-7>y".toList m.tokens
                ((Draft.ofSelection 4 5).withText "ab".toList)).selection =
              (fit {} "5-?6-7>y".toList m.tokens (.ofSelection 2 3)).selection.shift 2 := by
  obtain ⟨m, hm, htext⟩ := Mask.exists_of_ofSource
    (show (Mask.ofSource "<(d-!)*d>x!".toList).toOption.any
      (fun m => decide ((fit {} "5-?6-7>y".toList m.tokens
        ((Draft.ofSelection 4 5).withText "ab".toList)).text = "ab<5-6-7>".toList)) = true by
          decide +kernel)
  have hfar : AsFar (.ofSelection 2 3) ((Draft.ofSelection 4 5).withText "ab".toList) :=
    ⟨rfl, rfl, rfl, rfl, rfl, rfl, rfl, rfl⟩
  have hoffset : Sheet.Offset 2 (Draft.ofSelection 2 3).sheet
      ((Draft.ofSelection 4 5).withText "ab".toList).sheet := ⟨by decide, by decide⟩
  obtain ⟨-, -, hselection⟩ := fit_of_asFar {} "5-?6-7>y".toList m.tokens hfar
  exact ⟨m, hm, hfar, hoffset, of_decide_eq_true htext, hselection 2 hoffset⟩

end Draft

end InputMask

import InputMask.Draft.Fitting
import InputMask.Proofs.Pattern.Occurrences

/-!
# The turns of a fitting

A step has few ways to go. `Turn` lists them, each with what it relies on and the draft that it
leaves, and `step_turn` says that there are no others. What every turn keeps, a fitting keeps:
`walk_induction` is the rule for stepping through tokens, and `tryRepeatedly_induction` the one for
repeated trials of a group's body.
-/

set_option autoImplicit false

namespace InputMask

namespace Draft

variable {d d' : Draft} {o : Options} {value : List Char} {tokens : List Token}

/-! ## What a turn does -/

/-- Writes a character that a leaf took: one that a class took belongs to the current capture, and
one that a literal took ends it. -/
def take (d : Draft) (c : Char) : Leaf → Draft
  | .ofClass _ => d.capture c
  | .literal _ => d.endCapture.write c

/-- Fills in a literal; before the selection, it moves the selection along. -/
def fill (d : Draft) (c : Char) (before : Bool) : Draft :=
  let filled := (d.endCapture.write c).passToken
  if before then filled.shift 1 else filled

/-- Leaves a token, with the matches that it has made. -/
def leave (d : Draft) (q : Quantifier) : Draft :=
  { d with repeats := if q.repeats then 0 else d.repeats }.passToken

/-! ## What a turn leaves alone -/

section Frames

variable (c : Char) (before : Bool) (l : Leaf) (q : Quantifier)

/-- Ending a capture keeps the text. -/
@[simp] theorem endCapture_text : d.endCapture.text = d.text := by
  unfold endCapture
  split <;> rfl

/-- Ending a capture keeps the selection. -/
@[simp] theorem endCapture_selection : d.endCapture.selection = d.selection := by
  unfold endCapture
  split <;> rfl

/-- Ending a capture keeps what is known of skips. -/
@[simp] theorem endCapture_skipped : d.endCapture.skipped = d.skipped := by
  unfold endCapture
  split <;> rfl

/-- Ending a capture keeps the count. -/
@[simp] theorem endCapture_repeats : d.endCapture.repeats = d.repeats := by
  unfold endCapture
  split <;> rfl

/-- Ending a capture keeps the level. -/
@[simp] theorem endCapture_depth : d.endCapture.depth = d.depth := by
  unfold endCapture
  split <;> rfl

/-- Leaving a character out keeps the text. -/
@[simp] theorem dropChar_text : (d.dropChar before).text = d.text := by
  unfold dropChar
  split <;> rfl

/-- Leaving a character out keeps the place in the pattern. -/
@[simp] theorem dropChar_tokenIndex : (d.dropChar before).tokenIndex = d.tokenIndex := by
  unfold dropChar
  split <;> rfl

/-- Leaving a character out passes it in the value. -/
@[simp] theorem dropChar_valueIndex : (d.dropChar before).valueIndex = d.valueIndex + 1 := by
  unfold dropChar
  split <;> rfl

/-- Leaving a character out keeps what is known of skips. -/
@[simp] theorem dropChar_skipped : (d.dropChar before).skipped = d.skipped := by
  unfold dropChar
  split <;> rfl

/-- Leaving a character out keeps the count. -/
@[simp] theorem dropChar_repeats : (d.dropChar before).repeats = d.repeats := by
  unfold dropChar
  split <;> rfl

/-- Leaving a character out keeps the level. -/
@[simp] theorem dropChar_depth : (d.dropChar before).depth = d.depth := by
  unfold dropChar
  split <;> rfl

/-- Taking a character writes it. -/
@[simp] theorem take_text : (d.take c l).text = d.text ++ [c] := by
  cases l with
  | ofClass k => rfl
  | literal b => simp [take, write]

/-- Taking a character keeps the place in the pattern. -/
@[simp] theorem take_tokenIndex : (d.take c l).tokenIndex = d.tokenIndex := by
  cases l with
  | ofClass k => rfl
  | literal b => simp [take, write]

/-- Taking a character does not yet pass it in the value. -/
@[simp] theorem take_valueIndex : (d.take c l).valueIndex = d.valueIndex := by
  cases l with
  | ofClass k => rfl
  | literal b => simp [take, write]

/-- Taking a character keeps what is known of skips. -/
@[simp] theorem take_skipped : (d.take c l).skipped = d.skipped := by
  cases l with
  | ofClass k => rfl
  | literal b => simp [take, write]

/-- Taking a character keeps the count. -/
@[simp] theorem take_repeats : (d.take c l).repeats = d.repeats := by
  cases l with
  | ofClass k => rfl
  | literal b => simp [take, write]

/-- Taking a character keeps the selection. -/
@[simp] theorem take_selection : (d.take c l).selection = d.selection := by
  cases l with
  | ofClass k => rfl
  | literal b => simp [take, write]

/-- Taking a character keeps the level. -/
@[simp] theorem take_depth : (d.take c l).depth = d.depth := by
  cases l with
  | ofClass k => rfl
  | literal b => simp [take, write]

/-- What follows a match keeps the text. -/
@[simp] theorem afterMatch_text : (d.afterMatch q).text = d.text := by
  unfold afterMatch
  split <;> rfl

/-- What follows a match keeps the place in the value. -/
@[simp] theorem afterMatch_valueIndex : (d.afterMatch q).valueIndex = d.valueIndex := by
  unfold afterMatch
  split <;> rfl

/-- What follows a match keeps what is known of skips. -/
@[simp] theorem afterMatch_skipped : (d.afterMatch q).skipped = d.skipped := by
  unfold afterMatch
  split <;> rfl

/-- What follows a match keeps the selection. -/
@[simp] theorem afterMatch_selection : (d.afterMatch q).selection = d.selection := by
  unfold afterMatch
  split <;> rfl

/-- What follows a match keeps the level. -/
@[simp] theorem afterMatch_depth : (d.afterMatch q).depth = d.depth := by
  unfold afterMatch
  split <;> rfl

/-- Filling in a literal writes it. -/
@[simp] theorem fill_text : (d.fill c before).text = d.text ++ [c] := by
  unfold fill
  split <;> simp [shift, passToken, write]

/-- Filling in a literal passes its token. -/
@[simp] theorem fill_tokenIndex : (d.fill c before).tokenIndex = d.tokenIndex + 1 := by
  unfold fill
  split <;> simp [shift, passToken, write]

/-- Filling in a literal keeps the place in the value. -/
@[simp] theorem fill_valueIndex : (d.fill c before).valueIndex = d.valueIndex := by
  unfold fill
  split <;> simp [shift, passToken, write]

/-- Filling in a literal keeps what is known of skips. -/
@[simp] theorem fill_skipped : (d.fill c before).skipped = d.skipped := by
  unfold fill
  split <;> simp [shift, passToken, write]

/-- Filling in a literal keeps the level. -/
@[simp] theorem fill_depth : (d.fill c before).depth = d.depth := by
  unfold fill
  split <;> simp [shift, passToken, write]

/-- Filling in a literal keeps the count. -/
@[simp] theorem fill_repeats : (d.fill c before).repeats = d.repeats := by
  unfold fill
  split <;> simp [shift, passToken, write]

end Frames

/-! ## The turns -/

/-- A way that a step can go at a token, and what it comes to. -/
inductive Turn (o : Options) (value : List Char) (tokens : List Token) (fitBody : Draft → Draft)
    (d : Draft) : Token → Step → Prop
  | discard {t : Token} {c : Char} (hnext : value[d.valueIndex]? = some c)
      (ho : o.discard = true) :
      Turn o value tokens fitBody d t (.goOn (d.dropChar (d.precedesSelection true)))
  | take {l : Leaf} {q : Quantifier} {s : Span} {c : Char}
      (hnext : value[d.valueIndex]? = some c) (hl : l.accepts c = true) :
      Turn o value tokens fitBody d (.leaf l q s) (.goOn ((d.take c l).passChar.afterMatch q))
  | fill {c : Char} {s : Span}
      (h : value[d.valueIndex]?.isSome = true ∨ o.appendLiterals = true) :
      Turn o value tokens fitBody d (.leaf (.literal c) .once s)
        (.goOn (d.fill c (d.precedesSelection value[d.valueIndex]?.isSome)))
  | skip {k : CharClass} {q : Quantifier} {s : Span} {c : Char} {index : Nat}
      (ho : o.lookahead = true) (hnext : value[d.valueIndex]? = some c)
      (hindex : landing? tokens (d.tokenIndex + 1) c = some index) (hq : q.repeats = false) :
      Turn o value tokens fitBody d (.leaf (.ofClass k) q s) (.goOn (d.skipTo index))
  | leave {l : Leaf} {q : Quantifier} {s : Span} (h : q.MayEnd d.repeats) :
      Turn o value tokens fitBody d (.leaf l q s) (.goOn (d.leave q))
  | stop {t : Token} : Turn o value tokens fitBody d t (.stop d)
  | trial {body : List Token} {q : Quantifier} {s : Span} :
      Turn o value tokens fitBody d (.group body q s) (d.fitGroup value fitBody q)

/-! ## A step at a character that is rejected, or not -/

/-- A character that is rejected is discarded, or else stops the fitting, whatever the token. -/
theorem step_rejected {fitBody : Draft → Draft} {t : Token}
    (hrejects : d.rejects o tokens value[d.valueIndex]? = true) :
    d.step o value tokens fitBody t =
      if o.discard then .goOn (d.dropChar (d.precedesSelection value[d.valueIndex]?.isSome))
      else .stop d := if_pos hrejects

section Admitted

variable {fitBody : Draft → Draft} {q : Quantifier} {s : Span}

/-- Where no character is rejected, a step at a class fits the class. -/
theorem step_class (hfree : d.rejects o tokens value[d.valueIndex]? = false) (k : CharClass) :
    d.step o value tokens fitBody (.leaf (.ofClass k) q s) =
      d.fitClass o tokens k q value[d.valueIndex]?
        (d.precedesSelection value[d.valueIndex]?.isSome) := if_neg (Bool.eq_false_iff.1 hfree)

/-- Where no character is rejected, a step at a literal fits the literal. -/
theorem step_literal (hfree : d.rejects o tokens value[d.valueIndex]? = false) (c : Char) :
    d.step o value tokens fitBody (.leaf (.literal c) q s) =
      d.fitLiteral o c q value[d.valueIndex]?
        (d.precedesSelection value[d.valueIndex]?.isSome) := if_neg (Bool.eq_false_iff.1 hfree)

/-- Where no character is rejected, a step at a group fits the group. -/
theorem step_group (hfree : d.rejects o tokens value[d.valueIndex]? = false)
    (body : List Token) :
    d.step o value tokens fitBody (.group body q s) = d.fitGroup value fitBody q :=
  if_neg (Bool.eq_false_iff.1 hfree)

end Admitted

/-! ## A step takes one of the turns -/

/-- A leaf that may end is left. -/
theorem moveOn_of_mayEnd {q : Quantifier} (h : q.MayEnd d.repeats) :
    d.moveOn q = .goOn (d.leave q) := by
  cases q with
  | once => simp [Quantifier.MayEnd, Quantifier.canBeAbsent] at h
  | optional => rfl
  | zeroOrMore => rfl
  | oneOrMore =>
    have hpos : 0 < d.repeats := by simpa [Quantifier.MayEnd, Quantifier.canBeAbsent] using h
    simp only [moveOn, if_pos hpos]
    rfl
  | required => simp [Quantifier.MayEnd, Quantifier.canBeAbsent] at h

/-- A leaf that may not end stops the fitting. -/
theorem moveOn_of_not_mayEnd {q : Quantifier} (h : ¬q.MayEnd d.repeats) :
    d.moveOn q = .stop d := by
  cases q with
  | once => rfl
  | optional => exact absurd (.inl rfl) h
  | zeroOrMore => exact absurd (.inl rfl) h
  | oneOrMore =>
    have hzero : ¬0 < d.repeats := fun hpos => h (.inr ⟨rfl, hpos⟩)
    simp only [moveOn, if_neg hzero]
  | required => rfl

section Turning

variable {fitBody : Draft → Draft} {q : Quantifier} {s : Span}

/-- To move on from a leaf is to leave it or to stop. -/
theorem moveOn_turn {l : Leaf} :
    Turn o value tokens fitBody d (.leaf l q s) (d.moveOn q) := by
  by_cases h : q.MayEnd d.repeats
  · rw [moveOn_of_mayEnd h]
    exact .leave h
  · rw [moveOn_of_not_mayEnd h]
    exact .stop

/-- A mismatch at a class skips tokens, discards the character or stops. -/
theorem onMismatch_turn {k : CharClass} {c : Char} (hnext : value[d.valueIndex]? = some c)
    (hq : q.repeats = false) :
    Turn o value tokens fitBody d (.leaf (.ofClass k) q s)
      (d.onMismatch o tokens c (d.precedesSelection true)) := by
  unfold onMismatch
  split
  · next index hindex =>
    split at hindex
    · next ho => exact .skip ho hnext hindex hq
    · cases hindex
  · split
    · next ho => exact .discard hnext ho
    · exact .stop

/-- A step at a class takes one of the turns. -/
theorem fitClass_turn {k : CharClass} :
    Turn o value tokens fitBody d (.leaf (.ofClass k) q s)
      (d.fitClass o tokens k q value[d.valueIndex]?
        (d.precedesSelection value[d.valueIndex]?.isSome)) := by
  unfold fitClass
  split
  · exact moveOn_turn
  · next c hnext =>
    split
    · next haccepts => exact .take (l := .ofClass k) hnext haccepts
    · split
      · next hq =>
        rw [hnext]
        refine onMismatch_turn hnext ?_
        obtain rfl | rfl := hq <;> rfl
      · exact moveOn_turn

/-- A step at a literal takes one of the turns. -/
theorem fitLiteral_turn {c : Char} :
    Turn o value tokens fitBody d (.leaf (.literal c) q s)
      (d.fitLiteral o c q value[d.valueIndex]?
        (d.precedesSelection value[d.valueIndex]?.isSome)) := by
  unfold fitLiteral
  split
  · next hnext => exact .take (l := .literal c) hnext (beq_self_eq_true c)
  · split
    · next h =>
      obtain ⟨rfl, hfill⟩ := h
      exact .fill hfill
    · split
      · exact .stop
      · exact moveOn_turn

/-- Whatever a step comes to, it has taken one of the turns. -/
theorem step_turn (t : Token) :
    Turn o value tokens fitBody d t (d.step o value tokens fitBody t) := by
  unfold step
  dsimp only
  split
  · next hrejects =>
    obtain ⟨c, hnext, -⟩ := (Option.any_eq_true _ _).1 (Bool.and_eq_true_iff.1 hrejects).2
    split
    · next ho =>
      rw [hnext]
      exact .discard hnext ho
    · exact .stop
  · split
    · exact fitClass_turn
    · exact fitLiteral_turn
    · exact .trial

end Turning

/-! ## Stepping through tokens -/

/-- Where the tokens have run out, there is nothing to step through. -/
theorem walk_none (ht : tokens[d.tokenIndex]? = none) :
    walk o value tokens (fitBodies o value tokens) d = .goOn d := by
  rw [walk_fitBodies, next?, ht]
  rfl

/-- A step that stops is the last. -/
theorem walk_stop {t : Token} (ht : tokens[d.tokenIndex]? = some t)
    (hstep : d.step o value tokens (Token.fitBody o value t) t = .stop d') :
    walk o value tokens (fitBodies o value tokens) d = .stop d' := by
  rw [walk_fitBodies, (next?_eq_some_iff ht).2 hstep]

/-- After a step that goes on, the rest is stepped through from the draft that it leaves. -/
theorem walk_goOn {t : Token} (ht : tokens[d.tokenIndex]? = some t)
    (hstep : d.step o value tokens (Token.fitBody o value t) t = .goOn d') :
    walk o value tokens (fitBodies o value tokens) d =
      walk o value tokens (fitBodies o value tokens) d' := by
  rw [walk_fitBodies, (next?_eq_some_iff ht).2 hstep]

/-- Induction along the steps that are taken from a draft. -/
theorem stepInduction (o : Options) (value : List Char) (tokens : List Token)
    {motive : Draft → Prop} (hend : ∀ d : Draft, tokens[d.tokenIndex]? = none → motive d)
    (hstop : ∀ (d : Draft) (t : Token) (d' : Draft), tokens[d.tokenIndex]? = some t →
      d.step o value tokens (Token.fitBody o value t) t = .stop d' → motive d)
    (hgo : ∀ (d : Draft) (t : Token) (d' : Draft), tokens[d.tokenIndex]? = some t →
      d.step o value tokens (Token.fitBody o value t) t = .goOn d' → motive d' → motive d)
    (d : Draft) : motive d := by
  induction d using walk.induct o value tokens (fitBodies o value tokens) with
  | case1 d ht => exact hend d ht
  | case2 d t ht d' hstep => exact hstop d t d' ht (getD_fitBodies ht ▸ hstep)
  | case3 d t ht d' hstep ih => exact hgo d t d' ht (getD_fitBodies ht ▸ hstep) ih

/-- The rule for stepping through tokens: what every step that goes on keeps is there at the end,
and a step that stops may turn it into something else. -/
theorem walk_induction {I : Draft → Prop} {J : Step → Prop}
    (hgo : ∀ d t d', I d → tokens[d.tokenIndex]? = some t →
      d.step o value tokens (Token.fitBody o value t) t = .goOn d' → I d')
    (hstop : ∀ d t d', I d → tokens[d.tokenIndex]? = some t →
      d.step o value tokens (Token.fitBody o value t) t = .stop d' → J (.stop d'))
    (hend : ∀ d, I d → tokens[d.tokenIndex]? = none → J (.goOn d)) (h : I d) :
    J (walk o value tokens (fitBodies o value tokens) d) := by
  induction d using stepInduction o value tokens with
  | hend d ht =>
    rw [walk_none ht]
    exact hend d h ht
  | hstop d t d' ht hstep =>
    rw [walk_stop ht hstep]
    exact hstop d t d' h ht hstep
  | hgo d t d' ht hstep ih =>
    rw [walk_goOn ht hstep]
    exact ih (hgo d t d' h ht hstep)

/-! ## Trials of a body -/

section Trials

variable {fitBody : Draft → Draft} {matched : Bool}

/-- Goes back to the first token. -/
def rewind (d : Draft) : Draft := { d with tokenIndex := 0 }

/-- The draft that a trial of a body ends with. -/
def trial (d : Draft) (fitBody : Draft → Draft) : Draft := fitBody d.rewind

/-- A single trial that succeeds hands over what it has captured. -/
theorem tryOnce_pass (h : (d.trial fitBody).complete = true) :
    d.tryOnce fitBody =
      (some (d.trial fitBody).captures, { d.trial fitBody with captures := [] }) := if_pos h

/-- A single trial that fails is taken back. -/
theorem tryOnce_fail (h : (d.trial fitBody).complete = false) :
    d.tryOnce fitBody = (none, (d.trial fitBody).revertTo d) :=
  if_neg (Bool.eq_false_iff.1 h)

/-- A single trial of a body goes by no more than the draft that it ends with. -/
theorem tryOnce_congr {fitBody' : Draft → Draft} (h : d.trial fitBody' = d.trial fitBody) :
    d.tryOnce fitBody' = d.tryOnce fitBody := by
  cases hcomplete : (d.trial fitBody).complete with
  | true => rw [tryOnce_pass hcomplete, tryOnce_pass (h ▸ hcomplete), h]
  | false => rw [tryOnce_fail hcomplete, tryOnce_fail (h ▸ hcomplete), h]

/-- A repeated trial that fails is taken back, and the successes before it count. -/
theorem tryRepeatedly_fail (h : (d.trial fitBody).complete = false) :
    tryRepeatedly value fitBody matched d =
      (if matched then some d.captures else none, (d.trial fitBody).revertTo d) := by
  rw [tryRepeatedly]
  exact if_pos (by rw [Bool.not_eq_true']; exact h)

/-- A success that does not advance in the value is the last trial. -/
theorem tryRepeatedly_last (h : (d.trial fitBody).complete = true)
    (hlast : ¬(d.valueIndex < (d.trial fitBody).valueIndex ∧
      (d.trial fitBody).valueIndex ≤ value.length)) :
    tryRepeatedly value fitBody matched d =
      (some (d.trial fitBody).captures, (d.trial fitBody).revertTo (d.trial fitBody)) := by
  rw [tryRepeatedly]
  exact (if_neg (by rw [Bool.not_eq_true']; exact ne_false_of_eq_true h)).trans
    (dif_neg hlast)

/-- After a success that advances in the value, there is another trial. -/
theorem tryRepeatedly_more (h : (d.trial fitBody).complete = true)
    (hmore : d.valueIndex < (d.trial fitBody).valueIndex ∧
      (d.trial fitBody).valueIndex ≤ value.length) :
    tryRepeatedly value fitBody matched d = tryRepeatedly value fitBody true (d.trial fitBody) := by
  rw [tryRepeatedly]
  exact (if_neg (by rw [Bool.not_eq_true']; exact ne_false_of_eq_true h)).trans
    (dif_pos hmore)

/-- The trials of a body that a quantifier asks for. -/
def trials (d : Draft) (value : List Char) (fitBody : Draft → Draft) (q : Quantifier) :
    Option (List Capture) × Draft :=
  if q.repeats then tryRepeatedly value fitBody false d else d.tryOnce fitBody

/-- Where the first trial fails, there is no other, and it is taken back. -/
theorem trials_fail (h : (d.trial fitBody).complete = false) (q : Quantifier) :
    d.trials value fitBody q = (none, (d.trial fitBody).revertTo d) := by
  unfold trials
  split
  · exact tryRepeatedly_fail h
  · exact tryOnce_fail h

/-- A step at a group makes the trials in a scope of their own, and goes on after a success or where
the group may be left out. -/
theorem fitGroup_eq (q : Quantifier) :
    d.fitGroup value fitBody q =
      let r := d.endCapture.openScope.trials value fitBody q
      if r.1.isSome ∨ q.canBeAbsent then .goOn (r.2.closeScope d.endCapture r.1)
      else .stop (r.2.closeScope d.endCapture r.1) := rfl

/-- Whether it goes on or stops, a step at a group closes the scope of the trials. -/
theorem fitGroup_draft (q : Quantifier) :
    (d.fitGroup value fitBody q).draft =
      (d.endCapture.openScope.trials value fitBody q).2.closeScope d.endCapture
        (d.endCapture.openScope.trials value fitBody q).1 := by
  rw [fitGroup_eq]
  dsimp only
  split <;> rfl

/-- A group goes on after a success or where it may be left out, with the scope closed. -/
theorem fitGroup_goOn {q : Quantifier} (h : d.fitGroup value fitBody q = .goOn d') :
    ((d.endCapture.openScope.trials value fitBody q).1.isSome = true ∨ q.canBeAbsent = true) ∧
      d' = (d.endCapture.openScope.trials value fitBody q).2.closeScope d.endCapture
        (d.endCapture.openScope.trials value fitBody q).1 := by
  rw [fitGroup_eq] at h
  dsimp only at h
  split at h
  · next hgoes => exact ⟨hgoes, (Step.goOn.inj h).symm⟩
  · cases h

/-- A group stops the fitting only where it may not be left out and no trial has succeeded. -/
theorem fitGroup_stop {q : Quantifier} (h : d.fitGroup value fitBody q = .stop d') :
    (d.endCapture.openScope.trials value fitBody q).1 = none ∧ q.canBeAbsent = false ∧
      d' = (d.endCapture.openScope.trials value fitBody q).2.closeScope d.endCapture none := by
  rw [fitGroup_eq] at h
  dsimp only at h
  split at h
  · cases h
  · next hfails =>
    obtain ⟨hsome, hneeded⟩ := not_or.1 hfails
    have hnone : (d.endCapture.openScope.trials value fitBody q).1 = none :=
      Option.not_isSome_iff_eq_none.1 hsome
    exact ⟨hnone, Bool.eq_false_iff.2 hneeded, hnone ▸ (Step.stop.inj h).symm⟩

/-- A step that stops leaves the draft as it was, or else it stops at a group. -/
theorem step_stop {t : Token} (h : d.step o value tokens fitBody t = .stop d') :
    d' = d ∨ ∃ body q s, t = .group body q s ∧ d.fitGroup value fitBody q = .stop d' := by
  have hturn : Turn o value tokens fitBody d t _ := step_turn t
  rw [h] at hturn
  generalize hr : Step.stop d' = r at hturn
  cases hturn with
  | discard => cases hr
  | take => cases hr
  | fill => cases hr
  | skip => cases hr
  | leave => cases hr
  | stop => exact .inl (Step.stop.inj hr)
  | @trial body q s => exact .inr ⟨body, q, s, rfl, rfl⟩

/-- Induction along the trials that are made from a draft. -/
theorem trialInduction (value : List Char) (fitBody : Draft → Draft) {motive : Bool → Draft → Prop}
    (hfail : ∀ (matched : Bool) (d : Draft), (d.trial fitBody).complete = false →
      motive matched d)
    (hmore : ∀ (matched : Bool) (d : Draft), (d.trial fitBody).complete = true →
      d.valueIndex < (d.trial fitBody).valueIndex ∧
        (d.trial fitBody).valueIndex ≤ value.length →
      motive true (d.trial fitBody) → motive matched d)
    (hlast : ∀ (matched : Bool) (d : Draft), (d.trial fitBody).complete = true →
      ¬(d.valueIndex < (d.trial fitBody).valueIndex ∧
        (d.trial fitBody).valueIndex ≤ value.length) →
      motive matched d)
    (matched : Bool) (d : Draft) : motive matched d := by
  induction matched, d using tryRepeatedly.induct value fitBody with
  | case1 matched d after hfails =>
    have hcomplete : (!(d.trial fitBody).complete) = true := hfails
    exact hfail matched d (by simpa using hcomplete)
  | case2 matched d after hpasses hadvances ih =>
    have hcomplete : ¬(!(d.trial fitBody).complete) = true := hpasses
    exact hmore matched d (by simpa using hcomplete) hadvances ih
  | case3 matched d after hpasses hstays =>
    have hcomplete : ¬(!(d.trial fitBody).complete) = true := hpasses
    exact hlast matched d (by simpa using hcomplete) hstays

/-- The rule for repeated trials of a body: what every success keeps is there when a trial fails,
and after a success that was the last. -/
theorem tryRepeatedly_induction {I : Bool → Draft → Prop}
    {J : Option (List Capture) × Draft → Prop}
    (hpass : ∀ matched d, I matched d → (d.trial fitBody).complete = true →
      I true (d.trial fitBody))
    (hfail : ∀ matched d, I matched d → (d.trial fitBody).complete = false →
      J (if matched then some d.captures else none, (d.trial fitBody).revertTo d))
    (hlast : ∀ d, I true d → J (some d.captures, d.revertTo d)) (h : I matched d) :
    J (tryRepeatedly value fitBody matched d) := by
  induction matched, d using trialInduction value fitBody with
  | hfail matched d hcomplete =>
    rw [tryRepeatedly_fail hcomplete]
    exact hfail matched d h hcomplete
  | hmore matched d hcomplete hadvances ih =>
    rw [tryRepeatedly_more hcomplete hadvances]
    exact ih (hpass matched d h hcomplete)
  | hlast matched d hcomplete hstays =>
    rw [tryRepeatedly_last hcomplete hstays]
    exact hlast _ (hpass matched d h hcomplete)

end Trials

/-- Where the first trial fails, a group that may not be left out stops the fitting. -/
theorem fitGroup_fails {fitBody : Draft → Draft} {q : Quantifier} (hneeded : q.canBeAbsent = false)
    (hfails : (d.endCapture.openScope.trial fitBody).complete = false) :
    d.fitGroup value fitBody q ≠ .goOn d' := by
  have hnone : (d.endCapture.openScope.trials value fitBody q).1 = none := by
    rw [trials_fail hfails]
  intro hstep
  obtain ⟨hgoes, -⟩ := fitGroup_goOn hstep
  rw [hnone, hneeded] at hgoes
  simp at hgoes

/-! ## Skipped tokens -/

/-- A step that goes on skips no token, unless it does so by lookahead. -/
theorem step_skipped_eq {t : Token}
    (hstep : d.step o value tokens (Token.fitBody o value t) t = .goOn d') :
    d'.skipped = d.skipped ∨ o.lookahead = true ∧ d'.skipped = true := by
  have hturn : Turn o value tokens (Token.fitBody o value t) d t _ := step_turn t
  rw [hstep] at hturn
  generalize hr : Step.goOn d' = r at hturn
  cases hturn with
  | discard => cases hr; exact .inl (dropChar_skipped _)
  | take => cases hr; exact .inl (by simp [passChar])
  | fill => cases hr; exact .inl (fill_skipped _ _)
  | skip ho => cases hr; exact .inr ⟨ho, rfl⟩
  | leave => cases hr; exact .inl rfl
  | stop => cases hr
  | trial =>
    obtain ⟨-, rfl⟩ := fitGroup_goOn hr.symm
    exact .inl endCapture_skipped

/-- What was skipped stays skipped. -/
theorem step_skipped {t : Token} (hskipped : d.skipped = true)
    (hstep : d.step o value tokens (Token.fitBody o value t) t = .goOn d') : d'.skipped = true := by
  obtain hsame | ⟨-, hskips⟩ := step_skipped_eq hstep
  · exact hsame.trans hskipped
  · exact hskips

/-! ## Stepping to the end -/

/-- Stepping through some tokens goes on until they run out, with none of them skipped. -/
structure Succeeds (o : Options) (value : List Char) (tokens : List Token) (d : Draft) : Prop where
  goesOn : (walk o value tokens (fitBodies o value tokens) d).goesOn = true
  skipped : (walk o value tokens (fitBodies o value tokens) d).draft.skipped = false

/-- Stepping on after a skip does not succeed. -/
theorem not_succeeds_of_skipped (hskipped : d.skipped = true) : ¬Succeeds o value tokens d := by
  have hwalk : ¬((walk o value tokens (fitBodies o value tokens) d).goesOn = true ∧
      (walk o value tokens (fitBodies o value tokens) d).draft.skipped = false) := by
    refine walk_induction (I := fun e => e.skipped = true)
      (J := fun r => ¬(r.goesOn = true ∧ r.draft.skipped = false)) ?_ ?_ ?_ hskipped
    · intro e t e' he ht hgo
      exact step_skipped he hgo
    · rintro e t e' he ht hstop ⟨hgoes, -⟩
      cases hgoes
    · rintro e he ht ⟨-, hclean⟩
      exact Bool.noConfusion (he.symm.trans hclean)
  exact fun h => hwalk ⟨h.goesOn, h.skipped⟩

/-- Stepping that succeeds starts with nothing skipped. -/
theorem Succeeds.not_skipped (h : Succeeds o value tokens d) : d.skipped = false := by
  rw [← Bool.not_eq_true]
  exact fun hskipped => not_succeeds_of_skipped hskipped h

/-- Stepping that succeeds does so from the next draft, too. -/
theorem Succeeds.goOn {t : Token} (h : Succeeds o value tokens d)
    (ht : tokens[d.tokenIndex]? = some t)
    (hstep : d.step o value tokens (Token.fitBody o value t) t = .goOn d') :
    Succeeds o value tokens d' := by
  have hwalk := walk_goOn ht hstep
  exact ⟨hwalk ▸ h.goesOn, hwalk ▸ h.skipped⟩

/-- Induction along the steps of a walk that succeeds: each of them goes on. -/
theorem Succeeds.induction {motive : (d : Draft) → Succeeds o value tokens d → Prop}
    (hend : ∀ (d : Draft) (h : Succeeds o value tokens d), tokens[d.tokenIndex]? = none →
      motive d h)
    (hgo : ∀ (d : Draft) (t : Token) (d' : Draft) (h : Succeeds o value tokens d)
      (h' : Succeeds o value tokens d'), tokens[d.tokenIndex]? = some t →
        d.step o value tokens (Token.fitBody o value t) t = .goOn d' → motive d' h' → motive d h)
    (h : Succeeds o value tokens d) : motive d h := by
  induction d using stepInduction o value tokens with
  | hend d ht => exact hend d h ht
  | hstop d t d' ht hstop =>
    have hgoes := h.goesOn
    rw [walk_stop ht hstop] at hgoes
    cases hgoes
  | hgo d t d' ht hstep ih => exact hgo d t d' h (h.goOn ht hstep) ht hstep (ih _)

/-! ## Whole fittings -/

/-- Goes down one level. -/
def enter (d : Draft) : Draft := { d with depth := d.depth + 1 }

/-- A draft that comes to a pattern, or to a repetition of one, as at the outset. -/
structure Clean (d : Draft) : Prop where
  skipped : d.skipped = false
  repeats : d.repeats = 0

/-- To go back to the first token keeps a draft clean. -/
theorem Clean.rewind (h : d.Clean) : d.rewind.Clean := ⟨h.skipped, h.repeats⟩

/-- How stepping through some tokens ends. -/
def walked (o : Options) (value : List Char) (tokens : List Token) (d : Draft) : Step :=
  walk o value tokens (fitBodies o value tokens) { d with depth := d.depth + 1 }

/-- The draft that a fitting of some tokens leaves when stepping through them has ended. -/
def settled (tokens : List Token) (ended : Step) : Draft :=
  let after := ended.draft.endCapture
  { after with
    complete := ended.goesOn && !after.skipped && decide (tokens.length ≤ after.tokenIndex)
    depth := after.depth - 1 }

/-- A fitting settles what stepping through the tokens ends with. -/
theorem fit_eq_settled (o : Options) (value : List Char) (tokens : List Token) (d : Draft) :
    fit o value tokens d = settled tokens (d.walked o value tokens) := rfl

/-- The text of a fitting is what stepping through the tokens has written. -/
@[simp] theorem fit_text : (fit o value tokens d).text = (d.walked o value tokens).draft.text :=
  endCapture_text

/-- A fitting ends where stepping through the tokens has come to in the value. -/
@[simp] theorem fit_valueIndex :
    (fit o value tokens d).valueIndex = (d.walked o value tokens).draft.valueIndex :=
  endCapture_valueIndex _

/-- A fitting has skipped what stepping through the tokens has. -/
@[simp] theorem fit_skipped :
    (fit o value tokens d).skipped = (d.walked o value tokens).draft.skipped :=
  endCapture_skipped

/-- A fitting leaves the count of stepping through the tokens. -/
@[simp] theorem fit_repeats :
    (fit o value tokens d).repeats = (d.walked o value tokens).draft.repeats :=
  endCapture_repeats

/-- A fitting leaves the selection of stepping through the tokens. -/
@[simp] theorem fit_selection :
    (fit o value tokens d).selection = (d.walked o value tokens).draft.selection :=
  endCapture_selection

/-- A fitting goes back up by one level. -/
@[simp] theorem fit_depth :
    (fit o value tokens d).depth = (d.walked o value tokens).draft.depth - 1 :=
  congrArg (· - 1) endCapture_depth

/-- A fitting succeeds exactly if the tokens ran out and none was skipped. -/
theorem fit_complete_iff :
    (fit o value tokens d).complete = true ↔
      (d.walked o value tokens).goesOn = true ∧
        (d.walked o value tokens).draft.skipped = false ∧
          tokens.length ≤ (d.walked o value tokens).draft.tokenIndex := by
  simp [fit, fitWith, walked, and_assoc]

/-- A fitting succeeds exactly if stepping through the tokens, one level down, does. -/
theorem fit_complete_iff_succeeds :
    (fit o value tokens d).complete = true ↔
      Succeeds o value tokens d.enter := by
  have hend : (d.walked o value tokens).goesOn = true →
      tokens.length ≤ (d.walked o value tokens).draft.tokenIndex := by
    refine walk_induction (I := fun _ => True)
      (J := fun r => r.goesOn = true → tokens.length ≤ r.draft.tokenIndex) ?_ ?_ ?_ trivial
    · intro e t e' he ht hgo
      trivial
    · intro e t e' he ht hstop hgoes
      cases hgoes
    · intro e he ht hgoes
      exact List.getElem?_eq_none_iff.1 ht
  rw [fit_complete_iff]
  constructor
  · rintro ⟨hgoes, hskipped, -⟩
    exact ⟨hgoes, hskipped⟩
  · rintro ⟨hgoes, hskipped⟩
    exact ⟨hgoes, hskipped, hend hgoes⟩

end Draft

end InputMask

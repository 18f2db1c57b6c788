import InputMask.Proofs.Fitting.Events
import InputMask.Proofs.Fitting.Turns

/-!
# A fitting is a replay of events

The sheet of a draft has no say in how a fitting goes. `fit_retraces` gives, for every draft, the
events of the fitting from there, and these are the same whatever the sheet: on each one, the
fitting does what replaying the events does. Trials that fail are taken back together with what they
wrote, so only events that are kept are among them.

The lemmas before it follow the definitions, from single moves of a draft to steps, trials and whole
walks.
-/

set_option autoImplicit false

namespace InputMask

/-- The end of a step, with another sheet. -/
def Step.on : Step → Sheet → Step
  | goOn d, s => .goOn (d.on s)
  | stop d, s => .stop (d.on s)

namespace Draft

variable {d : Draft} {o : Options} {value : List Char} {tokens : List Token}
  {leaves : List (Leaf × Quantifier)}

/-! ## Moves -/

/-- A capture ends in the same way on another sheet. -/
theorem endCapture_on (s : Sheet) : (d.on s).endCapture = d.endCapture.on s := by
  by_cases h : d.pending.isEmpty = true
  · simp [endCapture, on, h]
  · simp only [endCapture, on, h]
    rfl

/-- Whether to stay at a token after a match does not depend on the sheet. -/
theorem afterMatch_on (q : Quantifier) (s : Sheet) :
    (d.on s).afterMatch q = (d.afterMatch q).on s := by
  unfold afterMatch
  split <;> rfl

/-- Whether a token may be left does not depend on the sheet. -/
theorem moveOn_on (q : Quantifier) (s : Sheet) : (d.on s).moveOn q = (d.moveOn q).on s := by
  by_cases h : q.MayEnd d.repeats
  · rw [moveOn_of_mayEnd h]
    exact moveOn_of_mayEnd h
  · rw [moveOn_of_not_mayEnd h]
    exact moveOn_of_not_mayEnd h

/-- A character that is left out changes the sheet alone, by moving the selection or not. -/
theorem dropChar_on (before before' : Bool) (s : Sheet) :
    (d.on s).dropChar before =
      (d.dropChar before').on (if before then s.shift (-1) else s) := by
  cases before <;> cases before' <;> rfl

/-- A character is written on whatever sheet there is. -/
theorem write_on (c : Char) (s : Sheet) :
    (d.on s).endCapture.write c = (d.endCapture.write c).on (s.write c) := by
  rw [endCapture_on]
  rfl

/-- A character that a leaf takes is written on whatever sheet there is. -/
theorem take_on (c : Char) (l : Leaf) (s : Sheet) :
    (d.on s).take c l = (d.take c l).on (s.write c) := by
  cases l with
  | ofClass k => rfl
  | literal b => exact write_on c s

/-- A literal that is filled in is written on whatever sheet there is, and may move its
selection. -/
theorem fill_on (c : Char) (before before' : Bool) (s : Sheet) :
    (d.on s).fill c before =
      (d.fill c before').on (if before then (s.write c).shift 1 else s.write c) := by
  unfold fill
  rw [write_on]
  cases before <;> cases before' <;> rfl

/-! ## Steps at leaves -/

/-- A step that is taken from a draft with any sheet replays the same events on each. -/
def StepRetraced (o : Options) (value : List Char) (leaves : List (Leaf × Quantifier)) (d : Draft)
    (step : Sheet → Step) : Prop :=
  ∃ (es : List Event) (r : Step), Course o value leaves d.valueIndex es r.draft.valueIndex ∧
    ∀ s, step s = r.on (replay value es s)

/-- Stopping needs no event. -/
theorem stop_retraced : StepRetraced o value leaves d fun s => .stop (d.on s) :=
  ⟨[], .stop d, .nil _, fun _ => rfl⟩

/-- Leaving a token needs no event, and neither does stopping at it. -/
theorem moveOn_retraced (q : Quantifier) :
    StepRetraced o value leaves d fun s => (d.on s).moveOn q := by
  refine ⟨[], d.moveOn q, ?_, moveOn_on q⟩
  by_cases h : q.MayEnd d.repeats
  · rw [moveOn_of_mayEnd h]
    exact .nil _
  · rw [moveOn_of_not_mayEnd h]
    exact .nil _

/-- Leaving out a character is one event. -/
theorem dropChar_retraced {c : Char} (hnext : value[d.valueIndex]? = some c)
    (ho : o.discard = true) :
    StepRetraced o value leaves d fun s => .goOn ((d.on s).dropChar (s.precedes true)) :=
  ⟨[.drop d.valueIndex], .goOn d.passChar, .drop hnext ho (.nil _),
    fun s => congrArg Step.goOn (dropChar_on _ false s)⟩

/-- Taking a character is one event. -/
theorem take_retraced {c : Char} {l : Leaf} {q : Quantifier}
    (hnext : value[d.valueIndex]? = some c) (hl : (l, q) ∈ leaves) (hc : l.accepts c = true) :
    StepRetraced o value leaves d fun s =>
      .goOn (((d.on s).take c l).passChar.afterMatch q) := by
  refine ⟨[.take d.valueIndex], .goOn ((d.take c l).passChar.afterMatch q),
    .take hnext hl hc ?_, fun s => ?_⟩
  · have hindex : ((d.take c l).passChar.afterMatch q).valueIndex = d.valueIndex + 1 := by
      simp [passChar]
    exact hindex ▸ .nil _
  · have hafter : replay value [.take d.valueIndex] s = s.write c := by
      simp [replay, Sheet.after, hnext]
    dsimp only
    rw [take_on, hafter]
    exact congrArg Step.goOn (afterMatch_on (d := (d.take c l).passChar) q (s.write c))

/-- Filling in a literal is one event. -/
theorem fill_retraced {c : Char} (hl : (.literal c, .once) ∈ leaves)
    (h : value[d.valueIndex]?.isSome = true ∨ o.appendLiterals = true) :
    StepRetraced o value leaves d fun s =>
      .goOn ((d.on s).fill c (s.precedes value[d.valueIndex]?.isSome)) := by
  refine ⟨[.fill c d.valueIndex], .goOn (d.fill c false), .fill hl h ?_, fun s => ?_⟩
  · exact (fill_valueIndex (d := d) c false).symm ▸ .nil _
  · exact congrArg Step.goOn (fill_on c _ false s)

/-- A mismatch replays the same events on each sheet. -/
theorem onMismatch_retraced {c : Char} (hnext : value[d.valueIndex]? = some c) :
    StepRetraced o value leaves d fun s =>
      (d.on s).onMismatch o tokens c (s.precedes true) := by
  cases hindex : (if o.lookahead then landing? tokens (d.tokenIndex + 1) c else none) with
  | some index =>
    refine ⟨[], .goOn (d.skipTo index), .nil _, fun s => ?_⟩
    have hindex' : (if o.lookahead then landing? tokens ((d.on s).tokenIndex + 1) c else none) =
        some index := hindex
    dsimp only
    rw [onMismatch, hindex']
    rfl
  | none =>
    have hstep : ∀ s, (d.on s).onMismatch o tokens c (s.precedes true) =
        if o.discard then .goOn ((d.on s).dropChar (s.precedes true)) else .stop (d.on s) := by
      intro s
      have hindex' : (if o.lookahead then landing? tokens ((d.on s).tokenIndex + 1) c else none) =
          none := hindex
      rw [onMismatch, hindex']
    simp only [hstep]
    by_cases ho : o.discard = true
    · simp only [if_pos ho]
      exact dropChar_retraced hnext ho
    · simp only [if_neg ho]
      exact stop_retraced

/-- A step at a class replays the same events on each sheet. -/
theorem fitClass_retraced {k : CharClass} {q : Quantifier} (hl : (.ofClass k, q) ∈ leaves) :
    StepRetraced o value leaves d fun s =>
      (d.on s).fitClass o tokens k q value[d.valueIndex]?
        (s.precedes value[d.valueIndex]?.isSome) := by
  simp only [fitClass]
  cases hnext : value[d.valueIndex]? with
  | none => exact moveOn_retraced q
  | some c =>
    dsimp only
    by_cases hc : k.accepts c = true
    · simp only [if_pos hc]
      exact take_retraced (l := .ofClass k) hnext hl hc
    · simp only [if_neg hc]
      split
      · exact onMismatch_retraced hnext
      · exact moveOn_retraced q

/-- A step at a literal replays the same events on each sheet. -/
theorem fitLiteral_retraced {c : Char} {q : Quantifier} (hl : (.literal c, q) ∈ leaves) :
    StepRetraced o value leaves d fun s =>
      (d.on s).fitLiteral o c q value[d.valueIndex]?
        (s.precedes value[d.valueIndex]?.isSome) := by
  simp only [fitLiteral]
  split
  · next hnext => exact take_retraced (l := .literal c) hnext hl (beq_self_eq_true c)
  · split
    · next h =>
      obtain ⟨rfl, hfill⟩ := h
      exact fill_retraced hl hfill
    · split
      · exact stop_retraced
      · exact moveOn_retraced q

/-! ## Trials and groups -/

/-- A way to fit that, from any draft, replays the same events on each sheet. -/
def Retraces (o : Options) (value : List Char) (leaves : List (Leaf × Quantifier))
    (fitBody : Draft → Draft) : Prop :=
  ∀ d : Draft, ∃ es : List Event, Course o value leaves d.valueIndex es (fitBody d).valueIndex ∧
    ∀ s, fitBody (d.on s) = (fitBody d).on (replay value es s)

/-- Trials that are made from a draft with any sheet replay the same events on each. -/
def TrialsRetraced (o : Options) (value : List Char) (leaves : List (Leaf × Quantifier))
    (d : Draft) (trials : Sheet → Option (List Capture) × Draft) : Prop :=
  ∃ (es : List Event) (captured : Option (List Capture)) (e : Draft),
    Course o value leaves d.valueIndex es e.valueIndex ∧
      ∀ s, trials s = (captured, e.on (replay value es s))

section Trials

variable {fitBody : Draft → Draft}

/-- A single trial replays the same events on each sheet if the fitting of the body does. -/
theorem trial_retraced (hbody : Retraces o value leaves fitBody) (d : Draft) :
    ∃ es : List Event, Course o value leaves d.valueIndex es (d.trial fitBody).valueIndex ∧
      ∀ s, (d.on s).trial fitBody = (d.trial fitBody).on (replay value es s) :=
  hbody d.rewind

/-- A trial that may be taken back replays those of its events that stay. -/
theorem tryOnce_retraced (hbody : Retraces o value leaves fitBody) :
    TrialsRetraced o value leaves d fun s => (d.on s).tryOnce fitBody := by
  obtain ⟨es, hcourse, htrial⟩ := trial_retraced hbody d
  cases hcomplete : (d.trial fitBody).complete with
  | true =>
    refine ⟨es, some (d.trial fitBody).captures, { d.trial fitBody with captures := [] }, hcourse,
      fun s => ?_⟩
    refine (tryOnce_pass ?_).trans ?_
    · rw [htrial s]
      exact hcomplete
    · rw [htrial s]
      rfl
  | false =>
    refine ⟨[], none, (d.trial fitBody).revertTo d, .nil _, fun s => ?_⟩
    refine (tryOnce_fail ?_).trans ?_
    · rw [htrial s]
      exact hcomplete
    · rw [htrial s]
      rfl

/-- Repeated trials replay the events of those that succeed. -/
theorem tryRepeatedly_retraced (hbody : Retraces o value leaves fitBody) (matched : Bool)
    (d : Draft) :
    TrialsRetraced o value leaves d fun s => tryRepeatedly value fitBody matched (d.on s) := by
  induction matched, d using trialInduction value fitBody with
  | hfail matched d hcomplete =>
    -- the events of the trial are taken back with it
    obtain ⟨es, hcourse, htrial⟩ := trial_retraced hbody d
    refine ⟨[], if matched then some d.captures else none, (d.trial fitBody).revertTo d, .nil _,
      fun s => ?_⟩
    refine (tryRepeatedly_fail ?_).trans ?_
    · rw [htrial s]
      exact hcomplete
    · rw [htrial s]
      rfl
  | hmore matched d hcomplete hadvances ih =>
    obtain ⟨es, hcourse, htrial⟩ := trial_retraced hbody d
    obtain ⟨fs, captured, e, hcourse', hreplay⟩ := ih
    refine ⟨es ++ fs, captured, e, hcourse.append hcourse', fun s => ?_⟩
    refine (tryRepeatedly_more ?_ ?_).trans ?_
    · rw [htrial s]
      exact hcomplete
    · rw [htrial s]
      exact hadvances
    · rw [htrial s, replay_append]
      exact hreplay (replay value es s)
  | hlast matched d hcomplete hstays =>
    obtain ⟨es, hcourse, htrial⟩ := trial_retraced hbody d
    refine ⟨es, some (d.trial fitBody).captures,
      (d.trial fitBody).revertTo (d.trial fitBody), hcourse, fun s => ?_⟩
    refine (tryRepeatedly_last ?_ ?_).trans ?_
    · rw [htrial s]
      exact hcomplete
    · rw [htrial s]
      exact hstays
    · rw [htrial s]
      rfl

/-- A step at a group replays the events of its trials. -/
theorem fitGroup_retraced (hbody : Retraces o value leaves fitBody) (q : Quantifier) :
    StepRetraced o value leaves d fun s => (d.on s).fitGroup value fitBody q := by
  have htrials : TrialsRetraced o value leaves d.endCapture.openScope fun s =>
      (d.endCapture.openScope.on s).trials value fitBody q := by
    unfold trials
    by_cases hq : q.repeats = true
    · simp only [if_pos hq]
      exact tryRepeatedly_retraced hbody false _
    · simp only [if_neg hq]
      exact tryOnce_retraced hbody
  obtain ⟨es, captured, e, hcourse, htrials⟩ := htrials
  have hindex : d.endCapture.openScope.valueIndex = d.valueIndex := endCapture_valueIndex d
  rw [hindex] at hcourse
  have hstep : ∀ s, (d.on s).fitGroup value fitBody q =
      if captured.isSome ∨ q.canBeAbsent then
        .goOn ((e.closeScope d.endCapture captured).on (replay value es s))
      else .stop ((e.closeScope d.endCapture captured).on (replay value es s)) := by
    intro s
    have hr : (d.on s).endCapture.openScope.trials value fitBody q =
        (captured, e.on (replay value es s)) := by
      rw [endCapture_on]
      exact htrials s
    rw [fitGroup_eq, hr, endCapture_on]
    rfl
  by_cases hgoes : captured.isSome ∨ q.canBeAbsent
  · refine ⟨es, .goOn (e.closeScope d.endCapture captured), hcourse, fun s => ?_⟩
    exact (hstep s).trans (if_pos hgoes)
  · refine ⟨es, .stop (e.closeScope d.endCapture captured), hcourse, fun s => ?_⟩
    exact (hstep s).trans (if_neg hgoes)

end Trials

/-! ## Whole fittings -/

/-- A step replays events, if it does so at a group that the token may be. -/
theorem step_retraced {t : Token} {fitBody : Draft → Draft} (hl : t.leaves ⊆ leaves)
    (hbody : t.isGroup = true → Retraces o value leaves fitBody) :
    StepRetraced o value leaves d fun s => (d.on s).step o value tokens fitBody t := by
  by_cases hrejects : d.rejects o tokens value[d.valueIndex]? = true
  · obtain ⟨c, hnext, -⟩ := (Option.any_eq_true _ _).1 (Bool.and_eq_true_iff.1 hrejects).2
    have hstep : ∀ s, (d.on s).step o value tokens fitBody t =
        if o.discard then .goOn ((d.on s).dropChar (s.precedes value[d.valueIndex]?.isSome))
        else .stop (d.on s) := fun s => if_pos hrejects
    simp only [hstep]
    split
    · next ho =>
      simp only [hnext, Option.isSome_some]
      exact dropChar_retraced hnext ho
    · exact stop_retraced
  · cases t with
    | leaf l q span =>
      have hl' : (l, q) ∈ leaves := hl (by simp [Token.leaves])
      cases l with
      | ofClass k =>
        have hstep : ∀ s, (d.on s).step o value tokens fitBody (.leaf (.ofClass k) q span) =
            (d.on s).fitClass o tokens k q value[d.valueIndex]?
              (s.precedes value[d.valueIndex]?.isSome) := fun s => if_neg hrejects
        simp only [hstep]
        exact fitClass_retraced hl'
      | literal c =>
        have hstep : ∀ s, (d.on s).step o value tokens fitBody (.leaf (.literal c) q span) =
            (d.on s).fitLiteral o c q value[d.valueIndex]?
              (s.precedes value[d.valueIndex]?.isSome) := fun s => if_neg hrejects
        simp only [hstep]
        exact fitLiteral_retraced hl'
    | group body q span =>
      have hstep : ∀ s, (d.on s).step o value tokens fitBody (.group body q span) =
          (d.on s).fitGroup value fitBody q := fun s => if_neg hrejects
      simp only [hstep]
      exact fitGroup_retraced (hbody rfl) q

/-- Stepping through tokens replays the same events on each sheet if the steps do. -/
theorem walk_retraced
    (hstep : ∀ (d : Draft) (t : Token), t ∈ tokens → StepRetraced o value leaves d fun s =>
      (d.on s).step o value tokens (Token.fitBody o value t) t) (d : Draft) :
    StepRetraced o value leaves d fun s =>
      walk o value tokens (fitBodies o value tokens) (d.on s) := by
  induction d using stepInduction o value tokens with
  | hend d ht => exact ⟨[], .goOn d, .nil _, fun s => walk_none ht⟩
  | hstop d t d' ht hd' =>
    obtain ⟨es, r, hcourse, hreplay⟩ := hstep d t (List.mem_of_getElem? ht)
    cases r with
    | goOn e =>
      have hstops := hd'.symm.trans (hreplay d.sheet)
      cases hstops
    | stop e => exact ⟨es, .stop e, hcourse, fun s => walk_stop ht (hreplay s)⟩
  | hgo d t d' ht hd' ih =>
    obtain ⟨es, r, hcourse, hreplay⟩ := hstep d t (List.mem_of_getElem? ht)
    obtain ⟨fs, r', hcourse', hreplay'⟩ := ih
    cases r with
    | goOn e =>
      obtain rfl : d' = e.on (replay value es d.sheet) :=
        Step.goOn.inj (hd'.symm.trans (hreplay d.sheet))
      refine ⟨es ++ fs, r', hcourse.append hcourse', fun s => ?_⟩
      refine (walk_goOn (d := d.on s) ht (hreplay s)).trans ?_
      rw [replay_append]
      exact hreplay' (replay value es s)
    | stop e =>
      have hgoes := hd'.symm.trans (hreplay d.sheet)
      cases hgoes

/-- What is done when stepping has ended does not depend on the sheet. -/
theorem settled_on (r : Step) (s : Sheet) : settled tokens (r.on s) = (settled tokens r).on s := by
  cases r <;>
  · simp only [settled, Step.on, Step.draft, endCapture_on]
    rfl

/-- Events for some leaves are events for more of them. -/
theorem Retraces.mono {leaves' : List (Leaf × Quantifier)} {fitBody : Draft → Draft}
    (h : Retraces o value leaves fitBody) (hsub : leaves ⊆ leaves') :
    Retraces o value leaves' fitBody := by
  intro d
  obtain ⟨es, hcourse, hreplay⟩ := h d
  exact ⟨es, hcourse.mono hsub, hreplay⟩

/-- From any draft, a fitting replays the same events on each sheet, and these follow one another
from the draft's place in the value to where the fitting ends. -/
theorem fit_retraces (o : Options) (value : List Char) (tokens : List Token) :
    Retraces o value (Token.leavesOf tokens) (fit o value tokens) := by
  induction tokens using Token.groupInduction with
  | h tokens ih =>
    have hstep : ∀ (d : Draft) (t : Token), t ∈ tokens →
        StepRetraced o value (Token.leavesOf tokens) d fun s =>
          (d.on s).step o value tokens (Token.fitBody o value t) t := by
      intro d t ht
      refine step_retraced (Token.leaves_subset ht) fun hgroup => ?_
      cases t with
      | leaf l q s => cases hgroup
      | group body q s => exact (ih body q s ht).mono (Token.leaves_subset ht)
    intro d
    obtain ⟨es, r, hcourse, hreplay⟩ := walk_retraced hstep { d with depth := d.depth + 1 }
    have hfit : ∀ s, fit o value tokens (d.on s) = (settled tokens r).on (replay value es s) := by
      intro s
      rw [fit_eq_settled, ← settled_on]
      exact congrArg (settled tokens) (hreplay s)
    have hself : fit o value tokens d = (settled tokens r).on (replay value es d.sheet) :=
      hfit d.sheet
    refine ⟨es, ?_, fun s => ?_⟩
    · rw [hself]
      exact (endCapture_valueIndex r.draft).symm ▸ hcourse
    · rw [hself]
      exact hfit s

/-- A fitting keeps the length of the text in step with the text. -/
theorem fit_length (o : Options) (value : List Char) (tokens : List Token)
    (h : d.length = d.text.length) :
    (fit o value tokens d).length = (fit o value tokens d).text.length := by
  obtain ⟨es, -, hreplay⟩ := fit_retraces o value tokens d
  have hfit := hreplay d.sheet
  rw [on_sheet] at hfit
  rw [hfit]
  exact replay_length h

end Draft

end InputMask

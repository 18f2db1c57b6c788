import InputMask.CommandLine.Program
import InputMask.Proofs.HooklessMask
import InputMask.Proofs.Fitting.Heads

/-!
# How far a selection can move

Leaving out a character before the selection moves it back, but never before the start of the text.
Filling in a literal before the selection moves it on, so it moves on at most as often as literals
are filled in. A fitting that reads nothing fills in each unmarked literal once (`Token.fillsOf`);
in a group that repeats, more are filled in only after a trial that read something
(`Token.refillsOf`). `Draft.reach` is where that could take the start of a selection. A step never
raises it (`Draft.step_spends`), so no selection that is reached lies beyond it
(`Draft.bounded_fit`), and a fitting stays in range if its selection starts that far from the
greatest offset (`Mask.staysInRange_of_le`).
-/

set_option autoImplicit false

namespace InputMask

/-! ## What can be filled in -/

namespace Token

mutual

/-- How many literals can be filled in for a token without reading anything: those without a
mark. -/
def fills : Token → Nat
  | .leaf (.literal _) .once _ => 1
  | .leaf .. => 0
  | .group body _ _ => fillsOf body

/-- How many literals can be filled in for some tokens without reading anything. -/
def fillsOf : List Token → Nat
  | [] => 0
  | t :: ts => fills t + fillsOf ts

end

mutual

/-- How many more literals can be filled in for a token with each character read: those in groups
that repeat, once for each such group. -/
def refills : Token → Nat
  | .leaf .. => 0
  | .group body q _ => refillsOf body + if q.repeats then fillsOf body else 0

/-- How many more literals can be filled in for some tokens with each character read. -/
def refillsOf : List Token → Nat
  | [] => 0
  | t :: ts => refills t + refillsOf ts

end

variable {tokens : List Token} {t : Token} {i j : Nat}

/-- From a token on, there is what the token fills in, and what those after it do. -/
theorem fillsOf_drop (ht : tokens[i]? = some t) :
    fillsOf (tokens.drop i) = fills t + fillsOf (tokens.drop (i + 1)) := by
  obtain ⟨hlt, rfl⟩ := List.getElem?_eq_some_iff.1 ht
  rw [List.drop_eq_getElem_cons hlt, fillsOf]

/-- Further on in a pattern there is no more to fill in. -/
theorem fillsOf_drop_le (tokens : List Token) (h : i ≤ j) :
    fillsOf (tokens.drop j) ≤ fillsOf (tokens.drop i) := by
  induction h with
  | refl => exact le_rfl
  | @step j h ih =>
    refine le_trans ?_ ih
    cases ht : tokens[j]? with
    | none =>
      have hend : tokens.length ≤ j := List.getElem?_eq_none_iff.1 ht
      rw [List.drop_eq_nil_of_le (Nat.le_succ_of_le hend)]
      exact Nat.zero_le _
    | some t =>
      rw [fillsOf_drop ht]
      exact Nat.le_add_left _ _

/-- A token refills no more than all of them do. -/
theorem refills_le (h : t ∈ tokens) : refills t ≤ refillsOf tokens := by
  induction tokens with
  | nil => cases h
  | cons u us ih =>
    rw [refillsOf]
    cases h with
    | head => exact Nat.le_add_right _ _
    | tail _ hmem => exact (ih hmem).trans (Nat.le_add_left _ _)

end Token

open Token (fillsOf refillsOf)

/-! ## Where a selection can get -/

/-- A selection is another one moved, with its start between the start of the text and a ceiling. -/
structure Selection.Within (ceiling : Int) (s s' : Selection) : Prop where
  nonneg : 0 ≤ s'.start
  le : s'.start ≤ ceiling
  extent : s'.stop - s'.start = s.stop - s.start

/-- The selection after the step at a head is within a ceiling. -/
def Head.StaysWithin (o : Options) (value : List Char) (ceiling : Int) (s : Selection) (h : Head) :
    Prop :=
  ∀ r, h.draft.next? o value h.tokens = some r → s.Within ceiling r.draft.selection

namespace Draft

variable {d d' d'' : Draft} {o : Options} {value : List Char} {tokens body : List Token} {t : Token}
  {refills fills fills' fills'' more : Nat}

/-- The number of characters of the value that were not read. -/
def unread (value : List Char) (d : Draft) : Nat := value.length - d.valueIndex

/-- The offset that the start of the selection can get to at most, with some literals still to fill
in, and some more with each character read. -/
def reach (value : List Char) (refills fills : Nat) (d : Draft) : Int :=
  d.selection.start + (fills + refills * d.unread value : Nat)

/-- From one draft to another, the selection has moved no further than literals were filled in and
characters read that no longer count for it. -/
structure Spends (value : List Char) (refills fills fills' : Nat) (d d' : Draft) : Prop where
  nonneg : 0 ≤ d'.selection.start
  extent : d'.selection.stop - d'.selection.start = d.selection.stop - d.selection.start
  unread : d'.unread value ≤ d.unread value
  reach : d'.reach value refills fills' ≤ d.reach value refills fills

namespace Spends

/-- What is spent on one part of the way and on the next is spent on both. -/
theorem trans (h : Spends value refills fills fills' d d')
    (h' : Spends value refills fills' fills'' d' d'') :
    Spends value refills fills fills'' d d'' where
  nonneg := h'.nonneg
  extent := h'.extent.trans h.extent
  unread := h'.unread.trans h.unread
  reach := h'.reach.trans h.reach

/-- Where more could be filled in anyway, it still can be afterwards. -/
theorem add (h : Spends value refills fills fills' d d') (more ahead : Nat) :
    Spends value (refills + more) (fills + ahead) (fills' + ahead) d d' where
  nonneg := h.nonneg
  extent := h.extent
  unread := h.unread
  reach := by
    have hreach := h.reach
    have hmore : more * d'.unread value ≤ more * d.unread value :=
      Nat.mul_le_mul_left more h.unread
    simp only [Draft.reach, Nat.add_mul] at hreach ⊢
    omega

/-- It does no harm to count less as left over. -/
theorem mono (h : Spends value refills fills fills' d d') (hle : fills'' ≤ fills') :
    Spends value refills fills fills'' d d' where
  nonneg := h.nonneg
  extent := h.extent
  unread := h.unread
  reach := by
    have hreach := h.reach
    simp only [Draft.reach] at hreach ⊢
    omega

/-- What has been filled in can be filled in again once something was read. -/
theorem again (h : Spends value refills fills 0 d d') (hlt : d'.unread value < d.unread value) :
    Spends value (refills + fills) fills fills d d' where
  nonneg := h.nonneg
  extent := h.extent
  unread := h.unread
  reach := by
    have hreach := h.reach
    have hmore : fills * d'.unread value + fills ≤ fills * d.unread value :=
      Nat.mul_le_mul_left fills hlt
    simp only [Draft.reach, Nat.add_mul] at hreach ⊢
    omega

/-- The selection itself is within the reach of the draft before. -/
theorem within (h : Spends value refills fills fills' d d') :
    d.selection.Within (d.reach value refills fills) d'.selection where
  nonneg := h.nonneg
  le := by
    have hreach := h.reach
    rw [Draft.reach] at hreach
    omega
  extent := h.extent

/-- What is within the reach of the draft afterwards was within that of the draft before. -/
theorem staysWithin {h : Head} (hspends : Spends value refills fills fills' d d')
    (hh : h.StaysWithin o value (d'.reach value refills fills') d'.selection) :
    h.StaysWithin o value (d.reach value refills fills) d.selection := by
  intro r hr
  obtain ⟨hnonneg, hle, hextent⟩ := hh r hr
  exact ⟨hnonneg, hle.trans hspends.reach, hextent.trans hspends.extent⟩

end Spends

/-- With more to fill in, the selection reaches further. -/
theorem reach_mono {refills' : Nat} (hrefills : refills ≤ refills') (hfills : fills ≤ fills') :
    d.reach value refills fills ≤ d.reach value refills' fills' := by
  have hmore : refills * d.unread value ≤ refills' * d.unread value :=
    Nat.mul_le_mul_right _ hrefills
  simp only [reach]
  omega

/-- A draft with the selection where it was has spent nothing. -/
theorem spends_still (hstart : 0 ≤ d.selection.start) (hselection : d'.selection = d.selection)
    (hvalue : d.valueIndex ≤ d'.valueIndex) (hfills : fills' ≤ fills) :
    Spends value refills fills fills' d d' where
  nonneg := by rwa [hselection]
  extent := by rw [hselection]
  unread := Nat.sub_le_sub_left hvalue _
  reach := by
    have hmore : refills * d'.unread value ≤ refills * d.unread value :=
      Nat.mul_le_mul_left refills (Nat.sub_le_sub_left hvalue _)
    simp only [reach, hselection]
    omega

/-- The scope of a group is opened with the selection where it was. -/
theorem openScope_spends (hstart : 0 ≤ d.selection.start) (hfills : fills' ≤ fills) :
    Spends value refills fills fills' d d.endCapture.openScope :=
  spends_still hstart endCapture_selection (endCapture_valueIndex d).ge hfills

/-! ## Leaves -/

/-- Leaving out a character moves the selection back only if it starts after the text. -/
theorem dropChar_spends (hstart : 0 ≤ d.selection.start) :
    Spends value refills fills fills d (d.dropChar (d.precedesSelection true)) := by
  unfold dropChar
  split
  · next hbefore =>
    have hafter : (d.length : Int) < d.selection.start := by simpa [precedesSelection] using hbefore
    have hunread : (d.passChar.shift (-1)).unread value ≤ d.unread value :=
      Nat.sub_le_sub_left (Nat.le_succ _) _
    have hmore := Nat.mul_le_mul_left refills hunread
    refine ⟨?_, ?_, hunread, ?_⟩
    · simp only [passChar, shift, Selection.shift]
      omega
    · simp only [passChar, shift, Selection.shift]
      omega
    · simp only [reach]
      simp only [passChar, shift, Selection.shift] at hmore ⊢
      omega
  · exact spends_still hstart rfl (Nat.le_succ _) le_rfl

/-- Filling in a literal moves the selection by one at most. -/
theorem fill_spends (hstart : 0 ≤ d.selection.start) (c : Char) (before : Bool) :
    Spends value refills (1 + fills) fills d (d.fill c before) := by
  have hunread : (d.fill c before).unread value = d.unread value :=
    congrArg (value.length - ·) (fill_valueIndex c before)
  have hmoves : (d.fill c before).selection = d.selection.shift (if before then 1 else 0) := by
    unfold fill
    cases before with
    | true => simp [shift, passToken, write]
    | false => simp [passToken, write, Selection.shift]
  refine ⟨?_, ?_, hunread.le, ?_⟩
  · rw [hmoves, Selection.shift]
    dsimp only
    split <;> omega
  · rw [hmoves, Selection.shift]
    dsimp only
    omega
  · rw [reach, reach, hunread, hmoves, Selection.shift]
    dsimp only
    split <;> omega

/-- A match leaves the selection where it was. -/
theorem match_spends (hstart : 0 ≤ d.selection.start) (c : Char) (l : Leaf) (q : Quantifier) :
    Spends value refills (fillsOf (tokens.drop d.tokenIndex))
      (fillsOf (tokens.drop ((d.take c l).passChar.afterMatch q).tokenIndex)) d
      ((d.take c l).passChar.afterMatch q) := by
  have hselection : ((d.take c l).passChar.afterMatch q).selection = d.selection :=
    (afterMatch_selection q).trans (take_selection c l)
  have hvalue : ((d.take c l).passChar.afterMatch q).valueIndex = d.valueIndex + 1 :=
    (afterMatch_valueIndex q).trans (congrArg (· + 1) (take_valueIndex c l))
  have htoken : d.tokenIndex ≤ ((d.take c l).passChar.afterMatch q).tokenIndex := by
    unfold afterMatch
    split <;> simp [passChar, passToken]
  refine spends_still hstart hselection ?_ (Token.fillsOf_drop_le tokens htoken)
  exact hvalue ▸ Nat.le_succ _

/-! ## Trials -/

/-- Fitting some tokens spends what can be filled in for them, and all selections on the way are
within that. -/
structure Bounded (o : Options) (value : List Char) (tokens : List Token) : Prop where
  spends : ∀ d : Draft, 0 ≤ d.selection.start →
    Spends value (refillsOf tokens) (fillsOf (tokens.drop d.tokenIndex)) 0 d (fit o value tokens d)
  within : ∀ d : Draft, 0 ≤ d.selection.start → ∀ h ∈ heads o value tokens d,
    h.StaysWithin o value
      (d.reach value (refillsOf tokens) (fillsOf (tokens.drop d.tokenIndex))) d.selection

/-- A single trial of a body spends no more than the body has. -/
theorem Bounded.trial (hbody : Bounded o value body) (hstart : 0 ≤ d.selection.start) :
    Spends value (refillsOf body) (fillsOf body) 0 d (d.trial (fit o value body)) := by
  have hrewinds : Spends value (refillsOf body) (fillsOf body) (fillsOf body) d d.rewind :=
    spends_still hstart rfl le_rfl le_rfl
  exact hrewinds.trans (hbody.spends d.rewind hstart)

/-- A trial that takes something leaves less of the value. -/
theorem unread_lt (h : d.valueIndex < d'.valueIndex ∧ d'.valueIndex ≤ value.length) :
    d'.unread value < d.unread value :=
  Nat.sub_lt_sub_left (Nat.lt_of_lt_of_le h.1 h.2) h.1

/-- Repeated trials spend the literals of the body once, and again with each character read. -/
theorem tryRepeatedly_spends (hbody : Bounded o value body) (matched : Bool)
    (hstart : 0 ≤ d.selection.start) :
    Spends value (refillsOf body + fillsOf body) (fillsOf body) 0 d
      (tryRepeatedly value (fit o value body) matched d).2 := by
  induction matched, d using trialInduction value (fit o value body) with
  | hfail matched d hcomplete =>
    rw [tryRepeatedly_fail hcomplete]
    exact spends_still hstart rfl le_rfl (Nat.zero_le _)
  | hmore matched d hcomplete hadvances ih =>
    have hfirst := hbody.trial hstart
    rw [tryRepeatedly_more hcomplete hadvances]
    -- what the trial read makes up for the literals that the next one fills in
    exact (hfirst.again (unread_lt hadvances)).trans (ih hfirst.nonneg)
  | hlast matched d hcomplete hstays =>
    have hfirst := hbody.trial hstart
    rw [tryRepeatedly_last hcomplete hstays]
    refine (hfirst.add (fillsOf body) 0).trans ?_
    exact spends_still hfirst.nonneg rfl le_rfl le_rfl

/-- A trial that is made once spends no more than the body has, and nothing if it is taken back. -/
theorem tryOnce_spends (hbody : Bounded o value body) (hstart : 0 ≤ d.selection.start) :
    Spends value (refillsOf body) (fillsOf body) 0 d (d.tryOnce (fit o value body)).2 := by
  have hfirst := hbody.trial hstart
  cases hcomplete : (d.trial (fit o value body)).complete with
  | true =>
    rw [tryOnce_pass hcomplete]
    exact hfirst.trans (spends_still hfirst.nonneg rfl le_rfl le_rfl)
  | false =>
    rw [tryOnce_fail hcomplete]
    exact spends_still hstart rfl le_rfl (Nat.zero_le _)

/-- The trials of a group spend no more than the group has. -/
theorem trials_spends {q : Quantifier} {s : Span} (hbody : Bounded o value body)
    (hstart : 0 ≤ d.selection.start) :
    Spends value (Token.group body q s).refills (Token.group body q s).fills 0 d
      (d.trials value (fit o value body) q).2 := by
  rw [trials, Token.refills, Token.fills]
  split
  · exact tryRepeatedly_spends hbody false hstart
  · exact tryOnce_spends hbody hstart

/-- The selections on the way through trials are within what the trials can spend. -/
theorem trialHeads_within (hbody : Bounded o value body) (repeats : Bool)
    (hstart : 0 ≤ d.selection.start) :
    ∀ h ∈ trialHeads value (fit o value body) (heads o value body) repeats d,
      h.StaysWithin o value
        (d.reach value (refillsOf body + if repeats then fillsOf body else 0) (fillsOf body))
        d.selection := by
  refine forall_trialHeads_of_invariant
    (I := fun e => Spends value (refillsOf body + if repeats then fillsOf body else 0)
      (fillsOf body) (fillsOf body) d e) ?_ ?_ (spends_still hstart rfl le_rfl le_rfl)
  · intro e he h hh
    refine he.staysWithin fun r hr => ?_
    obtain ⟨hnonneg, hle, hextent⟩ := hbody.within e.rewind he.nonneg h hh r hr
    exact ⟨hnonneg, hle.trans (reach_mono (Nat.le_add_right _ _) le_rfl), hextent⟩
  · -- a trial that read something lets its literals be filled in again
    intro e he hrepeats _ hadvances
    have hspends := (hbody.trial he.nonneg).again (unread_lt hadvances)
    rw [if_pos hrepeats] at he ⊢
    exact he.trans hspends

/-! ## Steps -/

/-- A step at a group spends what can be filled in for it. -/
theorem fitGroup_spends {q : Quantifier} {s : Span} (hbody : Bounded o value body)
    (ht : tokens[d.tokenIndex]? = some (.group body q s)) (hstart : 0 ≤ d.selection.start) :
    Spends value (refillsOf tokens) (fillsOf (tokens.drop d.tokenIndex))
      (fillsOf (tokens.drop (d.fitGroup value (fit o value body) q).draft.tokenIndex)) d
      (d.fitGroup value (fit o value body) q).draft := by
  have htoken : (d.fitGroup value (fit o value body) q).draft.tokenIndex = d.tokenIndex + 1 := by
    rw [fitGroup_draft]
    exact congrArg (· + 1) (endCapture_tokenIndex d)
  have hopens : Spends value (refillsOf tokens) (fillsOf (tokens.drop d.tokenIndex))
      (fillsOf (tokens.drop d.tokenIndex)) d d.endCapture.openScope :=
    openScope_spends hstart le_rfl
  have htrials := trials_spends (q := q) (s := s) hbody hopens.nonneg
  -- the other tokens' share stays untouched
  obtain ⟨more, hmore⟩ := Nat.exists_eq_add_of_le (Token.refills_le (List.mem_of_getElem? ht))
  have hspends := htrials.add more (fillsOf (tokens.drop (d.tokenIndex + 1)))
  rw [Nat.zero_add, ← hmore, ← Token.fillsOf_drop ht] at hspends
  rw [htoken, fitGroup_draft]
  exact hopens.trans (hspends.trans (spends_still hspends.nonneg rfl le_rfl le_rfl))

/-- A step spends what can be filled in for the tokens that it gets past, and for the characters
that it reads. -/
theorem step_spends (ht : tokens[d.tokenIndex]? = some t)
    (hbody : ∀ body q s, t = .group body q s → Bounded o value body)
    (hstart : 0 ≤ d.selection.start) :
    Spends value (refillsOf tokens) (fillsOf (tokens.drop d.tokenIndex))
      (fillsOf (tokens.drop (d.step o value tokens (Token.fitBody o value t) t).draft.tokenIndex)) d
      (d.step o value tokens (Token.fitBody o value t) t).draft := by
  have hturn : Turn o value tokens (Token.fitBody o value t) d t _ := step_turn t
  generalize d.step o value tokens (Token.fitBody o value t) t = r at hturn
  cases hturn with
  | @discard t c hnext ho =>
    rw [Step.draft, dropChar_tokenIndex]
    exact dropChar_spends hstart
  | @take l q s c hnext hl => exact match_spends hstart c l q
  | @fill c s h =>
    rw [Step.draft, fill_tokenIndex, Token.fillsOf_drop ht, Token.fills]
    exact fill_spends hstart c _
  | @skip k q s c index ho hnext hindex =>
    have hlt : d.tokenIndex ≤ index := (Nat.le_succ _).trans (landing?_ge hindex)
    exact spends_still hstart rfl le_rfl (Token.fillsOf_drop_le tokens hlt)
  | leave h => exact spends_still hstart rfl le_rfl (Token.fillsOf_drop_le tokens (Nat.le_succ _))
  | stop => exact spends_still hstart rfl le_rfl le_rfl
  | @trial body q s => exact fitGroup_spends (hbody body q s rfl) ht hstart

/-- The selections on the way through a step are within what the step can spend. -/
theorem stepHeads_within (ht : tokens[d.tokenIndex]? = some t)
    (hbody : ∀ body q s, t = .group body q s → Bounded o value body)
    (hstart : 0 ≤ d.selection.start) :
    ∀ h ∈ d.stepHeads o value tokens (Token.bodyHeads o value t) t,
      h.StaysWithin o value
        (d.reach value (refillsOf tokens) (fillsOf (tokens.drop d.tokenIndex))) d.selection := by
  refine forall_stepHeads ?_
  rintro body q s rfl h hh
  have hopens : Spends value (refillsOf tokens) (fillsOf (tokens.drop d.tokenIndex))
      (Token.group body q s).fills d d.endCapture.openScope := by
    refine openScope_spends hstart ?_
    rw [Token.fillsOf_drop ht]
    exact Nat.le_add_right _ _
  have hrefills := Token.refills_le (List.mem_of_getElem? ht)
  refine hopens.staysWithin fun r hr => ?_
  obtain ⟨hnonneg, hle, hextent⟩ :=
    trialHeads_within (hbody body q s rfl) q.repeats hopens.nonneg h hh r hr
  exact ⟨hnonneg, hle.trans (reach_mono hrefills le_rfl), hextent⟩

/-! ## Whole fittings -/

section Walking

variable {e : Draft} (hbody : ∀ body q s, .group body q s ∈ tokens → Bounded o value body)

include hbody

/-- What has been spent before a step and in it is no more than the tokens up to there have. -/
theorem Spends.step (h : Spends value (refillsOf tokens) fills (fillsOf (tokens.drop e.tokenIndex))
      d e) (ht : tokens[e.tokenIndex]? = some t) :
    Spends value (refillsOf tokens) fills
      (fillsOf (tokens.drop (e.step o value tokens (Token.fitBody o value t) t).draft.tokenIndex)) d
      (e.step o value tokens (Token.fitBody o value t) t).draft := by
  refine h.trans (step_spends ht (fun body q s hgroup => ?_) h.nonneg)
  exact hbody body q s (List.mem_of_getElem? (hgroup ▸ ht))

/-- Stepping through tokens spends no more than they have. -/
theorem walk_spends (hstart : 0 ≤ d.selection.start) :
    Spends value (refillsOf tokens) (fillsOf (tokens.drop d.tokenIndex)) 0 d
      (walk o value tokens (fitBodies o value tokens) d).draft := by
  refine walk_induction
    (I := fun e => Spends value (refillsOf tokens) (fillsOf (tokens.drop d.tokenIndex))
      (fillsOf (tokens.drop e.tokenIndex)) d e)
    (J := fun r => Spends value (refillsOf tokens) (fillsOf (tokens.drop d.tokenIndex)) 0 d r.draft)
    ?_ ?_ ?_ (spends_still hstart rfl le_rfl le_rfl)
  · intro e t e' he ht hgo
    have hspends := he.step hbody ht
    rwa [hgo] at hspends
  · intro e t e' he ht hstop
    have hspends := he.step hbody ht
    rw [hstop] at hspends
    exact hspends.mono (Nat.zero_le _)
  · intro e he ht
    exact he.mono (Nat.zero_le _)

/-- The selection stays within reach at each head along a level. -/
theorem levelHeads_within (hstart : 0 ≤ d.selection.start) :
    ∀ h ∈ levelHeads o value tokens d, h.StaysWithin o value
      (d.reach value (refillsOf tokens) (fillsOf (tokens.drop d.tokenIndex))) d.selection := by
  refine forall_levelHeads_of_invariant
    (I := fun e => Spends value (refillsOf tokens) (fillsOf (tokens.drop d.tokenIndex))
      (fillsOf (tokens.drop e.tokenIndex)) d e) ?_ ?_ (spends_still hstart rfl le_rfl le_rfl)
  · intro e t ht he
    have hgroup : ∀ body q s, t = .group body q s → Bounded o value body :=
      fun body q s hgroup => hbody body q s (List.mem_of_getElem? (hgroup ▸ ht))
    refine ⟨fun r hr => ?_, fun h hh => ?_⟩
    · obtain rfl := (next?_eq_some_iff ht).1 hr
      exact (he.step hbody ht).within
    · exact he.staysWithin (stepHeads_within ht hgroup he.nonneg h hh)
  · intro e t e' ht hgo he
    have hspends := he.step hbody ht
    rwa [hgo] at hspends

end Walking

/-- Every fitting is bounded: the induction is on the pattern, from the bodies of its groups to the
whole. -/
theorem bounded_fit (o : Options) (value : List Char) (tokens : List Token) :
    Bounded o value tokens := by
  induction tokens using Token.groupInduction with
  | h tokens ih =>
    refine ⟨fun d hstart => ?_, fun d hstart => levelHeads_within (d := d.enter) ih hstart⟩
    have henters : Spends value (refillsOf tokens) (fillsOf (tokens.drop d.tokenIndex))
        (fillsOf (tokens.drop d.tokenIndex)) d d.enter := spends_still hstart rfl le_rfl le_rfl
    have hwalk : Spends value (refillsOf tokens) (fillsOf (tokens.drop d.tokenIndex)) 0 d.enter
        (d.walked o value tokens).draft := walk_spends (d := d.enter) ih hstart
    refine henters.trans (hwalk.trans ?_)
    exact spends_still hwalk.nonneg fit_selection fit_valueIndex.ge le_rfl

/-- The selection that a fitting ends with is one that it reaches. -/
theorem selection_mem_reached (o : Options) (value : List Char) (tokens : List Token) (d : Draft) :
    (fit o value tokens d).selection ∈ reached o value tokens d := by
  have hwalk : ∀ e : Draft, (walk o value tokens (fitBodies o value tokens) e).draft.selection ∈
      e.selection :: (levelHeads o value tokens e).filterMap fun h =>
        (h.draft.next? o value h.tokens).map fun r => r.draft.selection := by
    intro e
    induction e using stepInduction o value tokens with
    | hend e ht =>
      rw [walk_none ht]
      exact List.mem_cons_self
    | hstop e t e' ht hstop =>
      rw [walk_stop ht hstop, levelHeads_some ht]
      simp [next?, ht, hstop]
    | hgo e t e' ht hgo ih =>
      rw [walk_goOn ht hgo, levelHeads_some ht, hgo]
      rw [List.mem_cons] at ih
      simp only [List.filterMap_cons, List.filterMap_append, next?, ht, hgo, Option.map_some,
        Step.draft, List.mem_cons, List.mem_append]
      exact .inr (ih.imp id .inr)
  rw [fit_selection]
  exact hwalk d.enter

end Draft

/-! ## Staying in range -/

/-- How many literals can be filled in at most for a value in a mask. -/
def Mask.fills (m : Mask) (value : List Char) : Nat :=
  fillsOf m.tokens + refillsOf m.tokens * value.length

/-- All selections that are reached are the first one moved, and after it by no more than can be
filled in. -/
theorem Mask.reached_within (m : Mask) (value : List Char) (start stop : Nat) :
    ∀ s ∈ m.reached value start stop, (Selection.between start stop).Within
      ((Selection.between start stop).start + m.fills value) s := by
  have hstart : 0 ≤ (Draft.ofSelection start stop).selection.start :=
    le_min (Int.natCast_nonneg start) (Int.natCast_nonneg _)
  intro s hs
  rcases List.mem_cons.1 hs with rfl | hmem
  · exact ⟨hstart, Int.le_add_of_nonneg_right (Int.natCast_nonneg _), rfl⟩
  · obtain ⟨h, hh, hs⟩ := List.mem_filterMap.1 hmem
    obtain ⟨r, hr, rfl⟩ := Option.map_eq_some_iff.1 hs
    exact (Draft.bounded_fit m.options value m.tokens).within _ hstart h hh r hr

/-- No end of a selection that is reached is below the range, and each has moved on by no more than
can be filled in. -/
theorem Mask.reached_bounds (m : Mask) (value : List Char) (start stop : Nat) :
    ∀ s ∈ m.reached value start stop,
      0 ≤ s.start ∧ s.start ≤ min start Selection.greatest + m.fills value ∧
        -Selection.greatest ≤ s.stop ∧ s.stop ≤ min stop Selection.greatest + m.fills value := by
  intro s hs
  obtain ⟨hnonneg, hle, hextent⟩ := m.reached_within value start stop s hs
  simp only [Selection.between] at hle hextent
  refine ⟨hnonneg, ?_, ?_, ?_⟩ <;> omega

/-- A fitting stays in range if both ends are as far from the greatest offset as literals can be
filled in. -/
theorem Mask.staysInRange_of_le {m : Mask} {value : List Char} {start stop : Nat}
    (h : max start stop + m.fills value ≤ Selection.greatest) :
    m.staysInRange value start stop = true := by
  refine List.all_eq_true.2 fun s hs => ?_
  obtain ⟨hnonneg, hstart, hge, hstop⟩ := m.reached_bounds value start stop s hs
  rw [Selection.inRange, Bool.and_eq_true, decide_eq_true_eq, decide_eq_true_eq]
  omega

/-- Fitting a value never takes an end of the selection below the range, and takes none above it if
both ends are as far from the greatest offset as literals can be filled in. -/
theorem Mask.staysInRange_of_headroom {source : List Char} {o : Options} {m : Mask}
    (hm : Mask.ofSource source o = .ok m) (value : List Char) (start stop : Nat) :
    (m.passage value start stop).closing.selection ∈ m.reached value start stop ∧
      (∀ s ∈ m.reached value start stop,
        0 ≤ s.start ∧ s.start ≤ min start Selection.greatest + m.fills value ∧
          -Selection.greatest ≤ s.stop ∧ s.stop ≤ min stop Selection.greatest + m.fills value) ∧
        (max start stop + m.fills value ≤ Selection.greatest →
          m.staysInRange value start stop = true) := by
  obtain ⟨-, hoptions, -, -⟩ := Mask.eq_of_ofSource hm
  obtain ⟨-, hfitted, hclosing⟩ := Mask.passage_of_ofSource hm value start stop
  refine ⟨?_, m.reached_bounds value start stop, Mask.staysInRange_of_le⟩
  rw [hclosing, hfitted, ← hoptions]
  exact Draft.selection_mem_reached m.options value m.tokens _

/-- At most three literals can be filled in, so a cursor that far from the greatest offset stays in
range; two are, and move the cursor along. -/
theorem Mask.staysInRange_of_headroom_repeated :
    ∃ m, Mask.ofSource "(-d)*".toList = .ok m ∧
      (m.apply "56".toList 2 2).start = 4 ∧ m.staysInRange "56".toList 2 2 = true := by
  obtain ⟨m, hm, hfills⟩ := Mask.exists_of_ofSource
    (show (Mask.ofSource "(-d)*".toList).toOption.any (fun m =>
      decide ((m.apply "56".toList 2 2).start = 4 ∧ m.fills "56".toList = 3)) = true by
        decide +kernel)
  obtain ⟨hstart, hfills⟩ := of_decide_eq_true hfills
  obtain ⟨-, -, hstays⟩ := Mask.staysInRange_of_headroom hm "56".toList 2 2
  exact ⟨m, hm, hstart, hstays (hfills ▸ by decide)⟩

/-- A literal that is filled in before the greatest offset moves the selection out of range. -/
theorem Mask.not_staysInRange_at_greatest :
    ∃ m, Mask.ofSource "xd".toList = .ok m ∧
      m.reached "5".toList Selection.greatest Selection.greatest =
        [⟨Selection.greatest, Selection.greatest⟩,
          ⟨Selection.greatest + 1, Selection.greatest + 1⟩,
          ⟨Selection.greatest + 1, Selection.greatest + 1⟩] ∧
      m.staysInRange "5".toList Selection.greatest Selection.greatest = false := by
  obtain ⟨m, hm, hleaves⟩ := Mask.exists_of_ofSource
    (show (Mask.ofSource "xd".toList).toOption.any (fun m =>
      decide (m.reached "5".toList Selection.greatest Selection.greatest =
        [⟨Selection.greatest, Selection.greatest⟩,
          ⟨Selection.greatest + 1, Selection.greatest + 1⟩,
          ⟨Selection.greatest + 1, Selection.greatest + 1⟩] ∧
      m.staysInRange "5".toList Selection.greatest Selection.greatest = false)) = true by
        decide +kernel)
  exact ⟨m, hm, of_decide_eq_true hleaves⟩

end InputMask

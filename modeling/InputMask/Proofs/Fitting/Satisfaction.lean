import InputMask.Proofs.HooklessMask
import InputMask.Proofs.Fitting.Turns

/-!
# A satisfied pattern has a text of its language

While no token was skipped, the text that a fitting has written keeps pace with the pattern: what
was written since the start is a text of the tokens that were passed, followed by the matches that
the current token has made so far. `Draft.Aligned` says this of a draft, `Draft.Aligned.goOn` keeps
it from step to step, and at the end of the tokens it is what `satisfies_fit` says of a whole
fitting. The bodies of groups are fitted alike, and a trial that fails leaves nothing written.
-/

set_option autoImplicit false

namespace InputMask

namespace Draft

variable {d d' : Draft} {o : Options} {value : List Char} {tokens : List Token}

/-- A way to fit that writes a text of a language wherever a trial succeeds, and leaves a clean
draft. -/
def Satisfies (L : Language Char) (fitBody : Draft → Draft) : Prop :=
  ∀ d : Draft, d.Clean → (d.trial fitBody).complete = true →
    (d.trial fitBody).Clean ∧ ∃ w ∈ L, (d.trial fitBody).text = d.text ++ w

/-! ## What the current token has matched -/

/-- What the current token has matched so far: nothing, or, if it is a leaf that repeats, as many
characters as the draft counts. -/
def HasMatched (tokens : List Token) (d : Draft) (w : List Char) : Prop :=
  d.repeats = 0 ∧ w = [] ∨
    ∃ l q s, tokens[d.tokenIndex]? = some (.leaf l q s) ∧ q.repeats = true ∧
      w ∈ l.language ^ d.repeats

variable {l : Leaf} {q : Quantifier} {s : Span} {w : List Char}

/-- A token that has not been counted has matched nothing. -/
theorem HasMatched.none (h : d.repeats = 0) : HasMatched tokens d [] := .inl ⟨h, rfl⟩

/-- Where the current token is not a leaf that repeats, it has matched nothing so far. -/
theorem HasMatched.eq_nil (h : HasMatched tokens d w)
    (ht : ∀ l q s, tokens[d.tokenIndex]? = some (.leaf l q s) → q.repeats = false) :
    d.repeats = 0 ∧ w = [] := by
  obtain h | ⟨l, q, s, ht', hq, -⟩ := h
  · exact h
  · rw [ht l q s ht'] at hq
    cases hq

/-- A leaf that does not repeat has matched nothing while it is the current token. -/
theorem HasMatched.eq_nil_of_leaf (h : HasMatched tokens d w)
    (ht : tokens[d.tokenIndex]? = some (.leaf l q s)) (hq : q.repeats = false) :
    d.repeats = 0 ∧ w = [] := by
  refine h.eq_nil fun l' q' s' ht' => ?_
  rw [ht] at ht'
  cases ht'
  exact hq

/-- What the current leaf has matched is as many of its characters as are counted. -/
theorem HasMatched.mem_pow (h : HasMatched tokens d w)
    (ht : tokens[d.tokenIndex]? = some (.leaf l q s)) : w ∈ l.language ^ d.repeats := by
  obtain ⟨hrepeats, rfl⟩ | ⟨l', q', s', ht', -, hw⟩ := h
  · rw [hrepeats, pow_zero]
    exact Language.nil_mem_one
  · rw [ht] at ht'
    cases ht'
    exact hw

/-- What a token has matched when it is left is a text of that token. -/
theorem HasMatched.mem_language (h : HasMatched tokens d w)
    (ht : tokens[d.tokenIndex]? = some (.leaf l q s)) (hend : q.MayEnd d.repeats) :
    w ∈ (Token.leaf l q s).language := by
  rw [Token.language]
  by_cases hq : q.repeats = true
  · exact (Quantifier.mem_language_iff_pow hq).2 ⟨d.repeats, hend, h.mem_pow ht⟩
  · obtain ⟨hrepeats, rfl⟩ := h.eq_nil_of_leaf ht (Bool.eq_false_iff.2 hq)
    obtain habsent | ⟨rfl, -⟩ := hend
    · exact Quantifier.nil_mem_language_iff.2 (.inl habsent)
    · exact absurd rfl hq

/-! ## Text and pattern keep pace -/

/-- Unless tokens were skipped, what was written after a text is a text of the tokens that were
passed and what the current token has matched. -/
def Aligned (tokens : List Token) (before : List Char) (d : Draft) : Prop :=
  d.skipped = false →
    ∃ u ∈ Token.languageOf (tokens.take d.tokenIndex), ∃ v,
      HasMatched tokens d v ∧ d.text = before ++ (u ++ v)

variable {before : List Char}

/-- Alignment goes by the text, the place in the pattern, the skips and the count alone. -/
theorem Aligned.congr (h : Aligned tokens before d) (htext : d'.text = d.text)
    (hindex : d'.tokenIndex = d.tokenIndex) (hskipped : d'.skipped = d.skipped)
    (hrepeats : d'.repeats = d.repeats) : Aligned tokens before d' := by
  unfold Aligned HasMatched
  rw [htext, hindex, hskipped, hrepeats]
  exact h

/-- A draft is aligned once it has passed a token and written a text of it. -/
theorem Aligned.pass {t : Token} (h : Aligned tokens before d)
    (ht : tokens[d.tokenIndex]? = some t) (hskipped : d'.skipped = d.skipped)
    (hindex : d'.tokenIndex = d.tokenIndex + 1)
    (hpass : ∀ v, HasMatched tokens d v →
      d'.repeats = 0 ∧ ∃ w, v ++ w ∈ t.language ∧ d'.text = d.text ++ w) :
    Aligned tokens before d' := by
  intro hclean
  obtain ⟨u, hu, v, hv, htext⟩ := h (hskipped ▸ hclean)
  obtain ⟨hrepeats, w, hw, htext'⟩ := hpass v hv
  refine ⟨u ++ (v ++ w), ?_, [], .none hrepeats, ?_⟩
  · rw [hindex, Token.languageOf_take_succ ht]
    exact Language.append_mem_mul hu hw
  · rw [htext', htext, List.append_nil, List.append_assoc, List.append_assoc]

/-- Taking a character that the current leaf accepts keeps the text aligned. -/
theorem Aligned.take {c : Char} (h : Aligned tokens before d)
    (ht : tokens[d.tokenIndex]? = some (.leaf l q s)) (hl : l.accepts c = true) :
    Aligned tokens before ((d.take c l).passChar.afterMatch q) := by
  by_cases hq : q.repeats = true
  · -- a token that repeats is not left: the match adds to those that it has made
    rw [afterMatch, if_pos hq]
    intro hskipped
    obtain ⟨u, hu, v, hv, htext⟩ := h ((take_skipped c l).symm.trans hskipped)
    refine ⟨u, ?_, v ++ [c], .inr ⟨l, q, s, ?_, hq, ?_⟩, ?_⟩
    · simpa [passChar] using hu
    · simpa [passChar] using ht
    · simp only [passChar, take_repeats, pow_succ]
      exact Language.append_mem_mul (hv.mem_pow ht) (Leaf.mem_language.2 ⟨c, hl, rfl⟩)
    · simp [passChar, htext]
  · rw [afterMatch, if_neg hq]
    refine h.pass ht (take_skipped c l) (congrArg (· + 1) (take_tokenIndex c l)) fun v hv => ?_
    obtain ⟨hrepeats, rfl⟩ := hv.eq_nil_of_leaf ht (Bool.eq_false_iff.2 hq)
    exact ⟨(take_repeats c l).trans hrepeats, [c], Token.singleton_mem_language hl, take_text c l⟩

/-- Filling in the current literal keeps the text aligned. -/
theorem Aligned.fill {c : Char} {filled : Bool} (h : Aligned tokens before d)
    (ht : tokens[d.tokenIndex]? = some (.leaf (.literal c) .once s)) :
    Aligned tokens before (d.fill c filled) := by
  refine h.pass ht (fill_skipped c filled) (fill_tokenIndex c filled) fun v hv => ?_
  obtain ⟨hrepeats, rfl⟩ := hv.eq_nil_of_leaf ht rfl
  exact ⟨(fill_repeats c filled).trans hrepeats, [c],
    Token.singleton_mem_language (beq_self_eq_true c), fill_text c filled⟩

/-- Leaving a leaf that may end keeps the text aligned. -/
theorem Aligned.leave (h : Aligned tokens before d)
    (ht : tokens[d.tokenIndex]? = some (.leaf l q s)) (hend : q.MayEnd d.repeats) :
    Aligned tokens before (d.leave q) := by
  refine h.pass ht rfl rfl fun v hv => ⟨?_, [], ?_, (List.append_nil _).symm⟩
  · unfold Draft.leave
    split
    · rfl
    · next hq => exact (hv.eq_nil_of_leaf ht (Bool.eq_false_iff.2 hq)).1
  · rw [List.append_nil]
    exact hv.mem_language ht hend

/-! ## Groups -/

section Groups

variable {L : Language Char} {fitBody : Draft → Draft}

/-- What trials have written after a text: a text of a language if one of them succeeded, and
nothing otherwise. -/
def Written (L : Language Char) (before : List Char) (matched : Bool) (d : Draft) : Prop :=
  ∃ w, d.text = before ++ w ∧ if matched then w ∈ L else w = []

/-- What repeated trials have written after a text: as many texts of a language as succeeded. -/
def WrittenOften (L : Language Char) (before : List Char) (matched : Bool) (d : Draft) : Prop :=
  ∃ n w, d.text = before ++ w ∧ w ∈ L ^ n ∧ (matched = true ↔ 0 < n)

/-- What repeated trials have written is a text of the quantified language, if one of them
succeeded. -/
theorem WrittenOften.written {matched : Bool} (h : WrittenOften L before matched d)
    (hq : q.repeats = true) : Written (q.language L) before matched d := by
  obtain ⟨n, w, htext, hw, hn⟩ := h
  refine ⟨w, htext, ?_⟩
  split
  · next hmatched => exact Quantifier.mem_language_of_mem_pow hq (hn.1 hmatched) hw
  · next hmatched =>
    obtain rfl : n = 0 := Nat.eq_zero_of_not_pos fun hpos => hmatched (hn.2 hpos)
    rwa [pow_zero, Language.mem_one] at hw

/-- A single trial writes a text of the quantified body, and nothing if it fails. -/
theorem tryOnce_written (hbody : Satisfies L fitBody) (h : d.Clean) (q : Quantifier) :
    Written (q.language L) d.text (d.tryOnce fitBody).1.isSome (d.tryOnce fitBody).2 := by
  cases hcomplete : (d.trial fitBody).complete with
  | true =>
    rw [tryOnce_pass hcomplete]
    obtain ⟨-, w, hw, htext⟩ := hbody d h hcomplete
    exact ⟨w, htext, Quantifier.mem_language_of_mem hw⟩
  | false =>
    rw [tryOnce_fail hcomplete]
    exact ⟨[], (List.append_nil _).symm, rfl⟩

/-- Repeated trials write one text of the body for each success, and nothing for the failure. -/
theorem tryRepeatedly_written (hbody : Satisfies L fitBody) (h : d.Clean) :
    WrittenOften L d.text (tryRepeatedly value fitBody false d).1.isSome
      (tryRepeatedly value fitBody false d).2 := by
  refine tryRepeatedly_induction
    (I := fun matched e => e.Clean ∧ WrittenOften L d.text matched e)
    (J := fun r => WrittenOften L d.text r.1.isSome r.2)
    ?_ ?_ ?_ ⟨h, 0, [], (List.append_nil _).symm, Language.nil_mem_one, by simp⟩
  · rintro matched e ⟨hclean, n, u, htext, hu, -⟩ hcomplete
    obtain ⟨hclean', v, hv, htext'⟩ := hbody e hclean hcomplete
    refine ⟨hclean', n + 1, u ++ v, by rw [htext', htext, List.append_assoc], ?_, by simp⟩
    rw [pow_succ]
    exact Language.append_mem_mul hu hv
  · rintro matched e ⟨-, hwritten⟩ -
    cases matched <;> exact hwritten
  · rintro e ⟨-, hwritten⟩
    exact hwritten

/-- The trials that a quantifier asks for write a text of the quantified body, and nothing if none
succeeds. -/
theorem trials_written (hbody : Satisfies L fitBody) (h : d.Clean) (q : Quantifier) :
    Written (q.language L) d.text (d.trials value fitBody q).1.isSome
      (d.trials value fitBody q).2 := by
  unfold trials
  by_cases hq : q.repeats = true
  · simp only [if_pos hq]
    exact (tryRepeatedly_written hbody h).written hq
  · simp only [if_neg hq]
    exact tryOnce_written hbody h q

/-- A step at a group that goes on writes a text of the group. -/
theorem Aligned.group {body : List Token} (hbody : Satisfies (Token.languageOf body) fitBody)
    (h : Aligned tokens before d) (ht : tokens[d.tokenIndex]? = some (.group body q s))
    (hstep : d.fitGroup value fitBody q = .goOn d') : Aligned tokens before d' := by
  have hclean : d.endCapture.openScope.Clean := ⟨rfl, rfl⟩
  obtain ⟨w, htext, hw⟩ : Written _ _ _ (d.endCapture.openScope.trials value fitBody q).2 :=
    trials_written hbody hclean q
  rw [fitGroup_eq] at hstep
  dsimp only at hstep
  split at hstep
  · next hgoes =>
    cases hstep
    refine h.pass ht endCapture_skipped ?_ fun v hv => ?_
    · exact congrArg (· + 1) d.endCapture_tokenIndex
    · obtain ⟨hrepeats, rfl⟩ := hv.eq_nil (by simp [ht])
      refine ⟨endCapture_repeats.trans hrepeats, w, ?_, ?_⟩
      · rw [Token.language, List.nil_append]
        split at hw
        · exact hw
        · next hnone =>
          rw [hw]
          exact Quantifier.nil_mem_language_iff.2 (.inl (hgoes.resolve_left hnone))
      · exact htext.trans (congrArg (· ++ w) endCapture_text)
  · cases hstep

end Groups

/-! ## Whole fittings -/

/-- A step that goes on keeps text and pattern in pace, if the bodies of groups are fitted so. -/
theorem Aligned.goOn {t : Token} (h : Aligned tokens before d)
    (ht : tokens[d.tokenIndex]? = some t)
    (hbody : ∀ body q s, t = .group body q s →
      Satisfies (Token.languageOf body) (fit o value body))
    (hstep : d.step o value tokens (Token.fitBody o value t) t = .goOn d') :
    Aligned tokens before d' := by
  have hturn : Turn o value tokens (Token.fitBody o value t) d t _ := step_turn t
  rw [hstep] at hturn
  generalize hr : Step.goOn d' = r at hturn
  cases hturn with
  | discard hnext ho =>
    cases hr
    exact h.congr (dropChar_text _) (dropChar_tokenIndex _) (dropChar_skipped _)
      (dropChar_repeats _)
  | take hnext hl => cases hr; exact h.take ht hl
  | fill _ => cases hr; exact h.fill ht
  | skip =>
    cases hr
    intro hskipped
    cases hskipped
  | leave hend => cases hr; exact h.leave ht hend
  | stop => cases hr
  | trial => exact h.group (hbody _ _ _ rfl) ht hr.symm

/-- Where the tokens ran out, text and pattern have kept pace since the first token. -/
theorem aligned_walked (hclean : d.Clean)
    (hbody : ∀ body q s, Token.group body q s ∈ tokens →
      Satisfies (Token.languageOf body) (fit o value body))
    (hgoes : (d.rewind.walked o value tokens).goesOn = true) :
    Aligned tokens d.text (d.rewind.walked o value tokens).draft := by
  revert hgoes
  refine walk_induction (I := Aligned tokens d.text)
    (J := fun r => r.goesOn = true → Aligned tokens d.text r.draft) ?_ ?_ ?_ ?_
  · intro e t e' he ht hstep
    refine he.goOn ht (fun body q s hgroup => hbody body q s ?_) hstep
    exact List.mem_of_getElem? (hgroup ▸ ht)
  · intro e t e' he ht hstep hgoes
    cases hgoes
  · intro e he ht hgoes
    exact he
  · intro hskipped
    exact ⟨[], Language.nil_mem_one, [], .none hclean.repeats, (List.append_nil _).symm⟩

/-- A fitting that succeeds has written a text of the pattern's language, and leaves a clean
draft. -/
theorem satisfies_fit (o : Options) (value : List Char) (tokens : List Token) :
    Satisfies (Token.languageOf tokens) (fit o value tokens) := by
  induction tokens using Token.groupInduction with
  | h tokens ih =>
    intro d hclean hcomplete
    obtain ⟨hgoes, hskipped, hlen⟩ := fit_complete_iff.1 hcomplete
    obtain ⟨u, hu, v, hv, htext⟩ := aligned_walked hclean ih hgoes hskipped
    obtain ⟨hrepeats, rfl⟩ := hv.eq_nil (by simp [List.getElem?_eq_none hlen])
    refine ⟨⟨fit_skipped.trans hskipped, fit_repeats.trans hrepeats⟩, u, ?_, ?_⟩
    · rwa [List.take_of_length_le hlen] at hu
    · rw [List.append_nil] at htext
      exact fit_text.trans htext

end Draft

/-- Where the outcome of applying a mask is complete, its text is one of the mask's language. -/
theorem Mask.text_mem_language_of_complete {source : List Char} {o : Options} {m : Mask}
    (hm : Mask.ofSource source o = .ok m) (value : List Char) (start stop : Nat)
    (hcomplete : (m.apply value start stop).complete = true) :
    (m.apply value start stop).text ∈ Token.languageOf m.tokens := by
  rw [Mask.apply_of_ofSource hm] at hcomplete ⊢
  have hclean : (Draft.ofSelection start stop).Clean := ⟨rfl, rfl⟩
  obtain ⟨-, w, hw, htext⟩ := Draft.satisfies_fit o value m.tokens _ hclean hcomplete
  have htext' : ((fit o value m.tokens (.ofSelection start stop)).outcome value).text = w := htext
  rwa [htext']

/-- A rejected character is left out before the group, the group repeats, and its last repetition
fails: what is complete is the text without it. -/
theorem Mask.text_mem_language_of_complete_repeated :
    ∃ m, Mask.ofSource "a+(d-)+x?".toList = .ok m ∧
      (m.apply "aa%5-6-7".toList 2 4).complete = true ∧
        (m.apply "aa%5-6-7".toList 2 4).text ∈ Token.languageOf m.tokens := by
  obtain ⟨m, hm, hcomplete⟩ := Mask.exists_of_ofSource
    (show (Mask.ofSource "a+(d-)+x?".toList).toOption.any
      (fun m => (m.apply "aa%5-6-7".toList 2 4).complete) = true by decide +kernel)
  exact ⟨m, hm, hcomplete, Mask.text_mem_language_of_complete hm _ _ _ hcomplete⟩

end InputMask

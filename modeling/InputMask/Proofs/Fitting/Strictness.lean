import InputMask.Proofs.Pattern.Openings
import InputMask.Proofs.Fitting.Heads

/-!
# Fitting without discarding

Discarding is asked for in two places only: where a character is rejected, and where one has nowhere
to go. So a fitting that discards nothing is the same with the option off (`Draft.fit_strict_eq`),
unless a character is rejected now that was not before: without discarding, a class that repeats is
held against a character even after it has matched, and a deferral in a group's body against the
whole group. Patterns without such tokens are steady (`Token.SteadyOf`), and with them no such
character is met in a fitting that succeeds (`Draft.not_rejects_of_steady`).
-/

set_option autoImplicit false

namespace InputMask

/-- The options, but with characters that fit nowhere stopping the fitting. -/
def Options.strict (o : Options) : Options := { o with discard := false }

namespace Head

/-- Whether the step that is taken at a head leaves a character out. -/
def Discards (o : Options) (value : List Char) (h : Head) : Prop :=
  h.draft.next? o value h.tokens =
    some (.goOn (h.draft.dropChar (h.draft.precedesSelection true)))

/-- Whether the next character is rejected at a head. -/
def Rejects (o : Options) (value : List Char) (h : Head) : Prop :=
  h.draft.rejects o h.tokens value[h.draft.valueIndex]? = true

/-- Whether a head discards a character can be decided by taking the step. -/
instance (o : Options) (value : List Char) : DecidablePred (Discards o value) := fun h =>
  inferInstanceAs (Decidable (h.draft.next? o value h.tokens = some _))

/-- Whether a head rejects a character can be decided. -/
instance (o : Options) (value : List Char) : DecidablePred (Rejects o value) := fun h =>
  inferInstanceAs (Decidable (h.draft.rejects o h.tokens value[h.draft.valueIndex]? = true))

/-- Whether a step at a head neither leaves a character out nor would be kept from one without
discarding. -/
def Lenient (o : Options) (value : List Char) (h : Head) : Prop :=
  ¬h.Discards o value ∧ ¬h.Rejects o.strict value

end Head

namespace Draft

variable {d d' : Draft} {o : Options} {value : List Char} {tokens : List Token} {t : Token}

/-! ## A step that discards nothing -/

/-- With discarding, a step that leaves no character out has rejected none. -/
theorem not_rejects_of_not_discards (ho : o.discard = true) (ht : tokens[d.tokenIndex]? = some t)
    (hkept : ¬Head.Discards o value ⟨tokens, d⟩) :
    d.rejects o tokens value[d.valueIndex]? = false := by
  rw [← Bool.not_eq_true]
  intro hrejects
  refine hkept ?_
  obtain ⟨c, hnext, -⟩ := (Option.any_eq_true _ _).1 (Bool.and_eq_true_iff.1 hrejects).2
  rw [Head.Discards, next?, ht, Option.map_some, step_rejected hrejects, if_pos ho, hnext]
  rfl

/-- A mismatch that leaves no character out is met in the same way without discarding. -/
theorem onMismatch_strict {c : Char} {before : Bool} (ho : o.discard = true)
    (hkept : d.onMismatch o tokens c before ≠ .goOn (d.dropChar before)) :
    d.onMismatch o.strict tokens c before = d.onMismatch o tokens c before := by
  unfold onMismatch at hkept ⊢
  rw [show o.strict.lookahead = o.lookahead from rfl]
  generalize (if o.lookahead then landing? tokens (d.tokenIndex + 1) c else none) = place at hkept ⊢
  cases place with
  | some index => rfl
  | none => exact absurd (if_pos ho) hkept

/-- A step at a class that leaves no character out is the same without discarding. -/
theorem fitClass_strict {k : CharClass} {q : Quantifier} {next : Option Char} {before : Bool}
    (ho : o.discard = true)
    (hkept : d.fitClass o tokens k q next before ≠ .goOn (d.dropChar before)) :
    d.fitClass o.strict tokens k q next before = d.fitClass o tokens k q next before := by
  cases next with
  | none => rfl
  | some c =>
    simp only [fitClass] at hkept ⊢
    split
    · rfl
    · next hk =>
      rw [if_neg hk] at hkept
      split
      · next hq =>
        rw [if_pos hq] at hkept
        exact onMismatch_strict ho hkept
      · rfl

/-- A step at a leaf that discards nothing is the same without discarding. -/
theorem step_leaf_strict {l : Leaf} {q : Quantifier} {s : Span} {fitBody fitBody' : Draft → Draft}
    (ho : o.discard = true) (ht : tokens[d.tokenIndex]? = some (.leaf l q s))
    (hlenient : Head.Lenient o value ⟨tokens, d⟩) :
    d.step o.strict value tokens fitBody (.leaf l q s) =
      d.step o value tokens fitBody' (.leaf l q s) := by
  have hfree : d.rejects o tokens value[d.valueIndex]? = false :=
    not_rejects_of_not_discards ho ht hlenient.1
  have hfree' : d.rejects o.strict tokens value[d.valueIndex]? = false :=
    Bool.eq_false_iff.2 hlenient.2
  cases l with
  | literal c =>
    rw [step_literal hfree, step_literal hfree']
    rfl
  | ofClass k =>
    rw [step_class hfree, step_class hfree']
    cases hnext : value[d.valueIndex]? with
    | none => rfl
    | some c =>
      refine fitClass_strict ho fun hdrops => hlenient.1 ?_
      rw [Head.Discards, next?, ht, Option.map_some, step_class hfree, hnext]
      exact congrArg some hdrops

/-! ## A fitting that discards nothing -/

section Groups

variable {P : Head → Prop} {fitBody fitBody' : Draft → Draft} {bodyHeads : Draft → List Head}

/-- Trials are the same with another way to fit a body that agrees wherever all heads in the body
have a property. -/
theorem tryRepeatedly_congr
    (hbody : ∀ e, (∀ h ∈ bodyHeads e, P h) → fitBody' e = fitBody e) (matched : Bool) (d : Draft)
    (hheads : ∀ h ∈ trialHeads value fitBody bodyHeads true d, P h) :
    tryRepeatedly value fitBody' matched d = tryRepeatedly value fitBody matched d := by
  induction matched, d using trialInduction value fitBody with
  | hfail matched d hcomplete =>
    have htrial : d.trial fitBody' = d.trial fitBody := hbody _ (forall_trialHeads.1 hheads).1
    rw [tryRepeatedly_fail hcomplete, tryRepeatedly_fail (htrial ▸ hcomplete), htrial]
  | hmore matched d hcomplete hadvances ih =>
    obtain ⟨hfirst, hmore⟩ := forall_trialHeads.1 hheads
    have htrial : d.trial fitBody' = d.trial fitBody := hbody _ hfirst
    rw [tryRepeatedly_more hcomplete hadvances,
      tryRepeatedly_more (htrial ▸ hcomplete) (htrial ▸ hadvances), htrial]
    exact ih (hmore rfl hcomplete hadvances)
  | hlast matched d hcomplete hstays =>
    have htrial : d.trial fitBody' = d.trial fitBody := hbody _ (forall_trialHeads.1 hheads).1
    rw [tryRepeatedly_last hcomplete hstays,
      tryRepeatedly_last (htrial ▸ hcomplete) (htrial ▸ hstays), htrial]

/-- A step at a group goes by the fittings of its body that its trials make. -/
theorem fitGroup_congr {q : Quantifier}
    (hbody : ∀ e, (∀ h ∈ bodyHeads e, P h) → fitBody' e = fitBody e)
    (hheads : ∀ h ∈ trialHeads value fitBody bodyHeads q.repeats d.endCapture.openScope, P h) :
    d.fitGroup value fitBody' q = d.fitGroup value fitBody q := by
  have htrials : d.endCapture.openScope.trials value fitBody' q =
      d.endCapture.openScope.trials value fitBody q := by
    unfold trials
    split
    · next hq =>
      rw [hq] at hheads
      exact tryRepeatedly_congr hbody false _ hheads
    · exact tryOnce_congr (hbody _ (forall_trialHeads.1 hheads).1)
  rw [fitGroup_eq, fitGroup_eq, htrials]

end Groups

/-- A step is the same without discarding, if it discards nothing and no character is rejected. -/
theorem step_strict (ho : o.discard = true) (ht : tokens[d.tokenIndex]? = some t)
    (hlenient : Head.Lenient o value ⟨tokens, d⟩)
    (hheads : ∀ h ∈ d.stepHeads o value tokens (Token.bodyHeads o value t) t,
      Head.Lenient o value h)
    (hbody : ∀ body q s, t = .group body q s → ∀ e,
      (∀ h ∈ heads o value body e, Head.Lenient o value h) →
        fit o.strict value body e = fit o value body e) :
    d.step o.strict value tokens (Token.fitBody o.strict value t) t =
      d.step o value tokens (Token.fitBody o value t) t := by
  cases t with
  | leaf l q s => exact step_leaf_strict ho ht hlenient
  | group body q s =>
    have hfree : d.rejects o tokens value[d.valueIndex]? = false :=
      not_rejects_of_not_discards ho ht hlenient.1
    have hfree' : d.rejects o.strict tokens value[d.valueIndex]? = false :=
      Bool.eq_false_iff.2 hlenient.2
    rw [stepHeads, if_neg (Bool.eq_false_iff.1 hfree)] at hheads
    rw [step_group hfree, step_group hfree']
    exact fitGroup_congr (hbody body q s rfl) hheads

/-- A fitting is the same without discarding, if it discards nothing and no character is
rejected. -/
theorem fit_strict_eq (ho : o.discard = true) (tokens : List Token) (d : Draft)
    (hheads : ∀ h ∈ heads o value tokens d, Head.Lenient o value h) :
    fit o.strict value tokens d = fit o value tokens d := by
  induction tokens using Token.groupInduction generalizing d with
  | h tokens ih =>
    have hstep : ∀ (e : Draft) (t : Token), tokens[e.tokenIndex]? = some t →
        (∀ h ∈ levelHeads o value tokens e, Head.Lenient o value h) →
        e.step o.strict value tokens (Token.fitBody o.strict value t) t =
          e.step o value tokens (Token.fitBody o value t) t := by
      intro e t ht hlevel
      obtain ⟨hlenient, hinside, -⟩ := (forall_levelHeads ht).1 hlevel
      refine step_strict ho ht hlenient hinside fun body q s hgroup e => ih body q s ?_ e
      exact List.mem_of_getElem? (hgroup ▸ ht)
    have hwalk : ∀ e : Draft, (∀ h ∈ levelHeads o value tokens e, Head.Lenient o value h) →
        walk o.strict value tokens (fitBodies o.strict value tokens) e =
          walk o value tokens (fitBodies o value tokens) e := by
      intro e hlevel
      induction e using stepInduction o value tokens with
      | hend e ht => rw [walk_none ht, walk_none ht]
      | hstop e t e' ht hstop =>
        rw [walk_stop ht hstop, walk_stop ht ((hstep e t ht hlevel).trans hstop)]
      | hgo e t e' ht hgo ihwalk =>
        rw [walk_goOn ht hgo, walk_goOn ht ((hstep e t ht hlevel).trans hgo)]
        exact ihwalk (((forall_levelHeads ht).1 hlevel).2.2 e' hgo)
    exact congrArg (settled tokens) (hwalk _ hheads)

/-! ## A character that is rejected only without discarding -/

/-- Below the level of the whole pattern, no character is rejected. -/
theorem not_rejects_of_depth (h : Head) (hdepth : 1 < h.draft.depth) :
    ¬h.Rejects o value := by
  have hne : h.draft.depth ≠ 1 := Nat.ne_of_gt hdepth
  simp [Head.Rejects, rejects, hne]

/-- At the top level, no head within a step at a steady token rejects a character without
discarding. -/
theorem not_rejects_of_mem_stepHeads (hdepth : d.depth = 1) :
    ∀ h ∈ d.stepHeads o value tokens (Token.bodyHeads o value t) t, ¬h.Rejects o.strict value := by
  intro h hh
  refine not_rejects_of_depth h ?_
  have hlt := depth_lt_of_mem_stepHeads (fun body q s _ e =>
    depth_lt_of_mem_heads o value body e) h hh
  rwa [hdepth] at hlt

/-- What rules out that a character is rejected without discarding, and is kept from step to step,
rules that out at all heads from a draft on. -/
theorem forall_not_rejects {I : Draft → Prop}
    (hhead : ∀ (e : Draft) (t : Token), tokens[e.tokenIndex]? = some t → e.depth = 1 → I e →
      ¬Head.Rejects o.strict value ⟨tokens, e⟩)
    (hgo : ∀ (e : Draft) (t : Token) (e' : Draft), tokens[e.tokenIndex]? = some t → e.depth = 1 →
      e.step o value tokens (Token.fitBody o value t) t = .goOn e' → I e → I e')
    (hdepth : d.depth = 1) (h : I d) :
    ∀ h ∈ levelHeads o value tokens d, ¬h.Rejects o.strict value := by
  refine forall_levelHeads_of_invariant (I := fun e => e.depth = 1 ∧ I e) ?_ ?_ ⟨hdepth, h⟩
  · rintro e t ht ⟨hdepth, he⟩
    exact ⟨hhead e t ht hdepth he, not_rejects_of_mem_stepHeads hdepth⟩
  · rintro e t e' ht hstep ⟨hdepth, he⟩
    exact ⟨(step_goOn_depth hstep).trans hdepth, hgo e t e' ht hdepth hstep he⟩

/-- Where a fitting that discards nothing goes on to the end also without discarding, no character
was rejected on the way. -/
theorem not_rejects_of_goesOn (ho : o.discard = true) (hdepth : d.depth = 1)
    (hheads : ∀ h ∈ levelHeads o value tokens d, ¬h.Discards o value)
    (hgoes : (walk o.strict value tokens (fitBodies o.strict value tokens) d).goesOn = true) :
    ∀ h ∈ levelHeads o value tokens d, ¬h.Rejects o.strict value := by
  have hhead : ∀ (e : Draft) (t : Token), tokens[e.tokenIndex]? = some t →
      (walk o.strict value tokens (fitBodies o.strict value tokens) e).goesOn = true →
        ¬Head.Rejects o.strict value ⟨tokens, e⟩ := by
    intro e t ht hgoes hrejects
    have hstop : e.step o.strict value tokens (Token.fitBody o.strict value t) t = .stop e :=
      step_rejected hrejects
    rw [walk_stop ht hstop] at hgoes
    cases hgoes
  refine forall_not_rejects (I := fun e =>
    (∀ h ∈ levelHeads o value tokens e, ¬h.Discards o value) ∧
      (walk o.strict value tokens (fitBodies o.strict value tokens) e).goesOn = true) ?_ ?_ hdepth
    ⟨hheads, hgoes⟩
  · rintro e t ht - ⟨-, hgoes⟩
    exact hhead e t ht hgoes
  · rintro e t e' ht hdepth hgo ⟨hheads, hgoes⟩
    obtain ⟨hkept, hkeptInside, hkeptAfter⟩ := (forall_levelHeads ht).1 hheads
    -- with nothing rejected here, the step is the same, so that both walks go on from one draft
    have hsame : e.step o.strict value tokens (Token.fitBody o.strict value t) t =
        e.step o value tokens (Token.fitBody o value t) t :=
      step_strict ho ht ⟨hkept, hhead e t ht hgoes⟩
        (fun h hh => ⟨hkeptInside h hh, not_rejects_of_mem_stepHeads hdepth h hh⟩)
        (fun body q s _ e => fit_strict_eq ho body e)
    rw [walk_goOn ht (hsame.trans hgo)] at hgoes
    exact ⟨hkeptAfter e' hgo, hgoes⟩

end Draft

/-! ## Patterns whose rejections are final -/

namespace Token

mutual

/-- Whether a token that rejects a character without discarding cannot be got past with it: a class
does not repeat once it has matched, and no deferral in the body hides what a group can take. Groups
that may be left out reject nothing. -/
def Steady : Token → Prop
  | leaf (.ofClass _) q _ => q ≠ .oneOrMore
  | leaf (.literal _) _ _ => True
  | group body q _ => q.canBeAbsent = true ∨ Firm body ∧ SteadyOf body

/-- Whether all of some tokens are steady. -/
def SteadyOf : List Token → Prop
  | [] => True
  | t :: ts => Steady t ∧ SteadyOf ts

end

mutual

/-- Whether a token is steady can be decided. -/
def decidableSteady : (t : Token) → Decidable t.Steady
  | leaf (.ofClass _) q _ => inferInstanceAs (Decidable (q ≠ .oneOrMore))
  | leaf (.literal _) _ _ => isTrue trivial
  | group body q _ =>
    have := decidableSteadyOf body
    inferInstanceAs (Decidable (q.canBeAbsent = true ∨ Firm body ∧ SteadyOf body))

/-- Whether some tokens are steady can be decided. -/
def decidableSteadyOf : (tokens : List Token) → Decidable (SteadyOf tokens)
  | [] => isTrue trivial
  | t :: ts =>
    have := decidableSteady t
    have := decidableSteadyOf ts
    inferInstanceAs (Decidable (Steady t ∧ SteadyOf ts))

end

/-- Whether a pattern is steady can be decided. -/
instance : DecidablePred SteadyOf := decidableSteadyOf

/-- The tokens of a steady pattern are steady. -/
theorem SteadyOf.of_mem {t : Token} {tokens : List Token} (h : SteadyOf tokens) (ht : t ∈ tokens) :
    t.Steady := by
  induction tokens with
  | nil => cases ht
  | cons u us ih =>
    obtain rfl | ht := List.mem_cons.1 ht
    · exact h.1
    · exact ih h.2 ht

/-- In a firm pattern, a character that is accepted with discarding is not deferred without. -/
theorem Firm.admission_ne_deferred {tokens : List Token} {c : Char} (hfirm : Firm tokens)
    (haccepted : admission true c tokens = .accepted) : admission false c tokens ≠ .deferred := by
  induction tokens with
  | nil => cases haccepted
  | cons t ts ih =>
    cases t with
    | group body q s =>
      have hneeded : q.canBeAbsent = false := hfirm (group body q s) rfl
      rw [admission, admission?, hneeded]
      cases admission false c body <;> exact Verdict.noConfusion
    | leaf l q s =>
      cases l with
      | ofClass k =>
        have hneeded : q.canBeAbsent = false := hfirm (leaf (.ofClass k) q s) rfl
        rw [admission, admission?, hneeded]
        cases k.accepts c <;> exact Verdict.noConfusion
      | literal b =>
        by_cases hb : b = c
        · rw [admission, admission?, if_pos hb]
          exact Verdict.noConfusion
        · rw [admission_literal hb] at haccepted ⊢
          refine ih ?_ haccepted
          simpa [Firm, isLiteral, Leaf.isLiteral] using hfirm

/-- A class that rejects a character without discarding does not hold it and may not be left out. -/
theorem admission_class_rejected {c : Char} {k : CharClass} {q : Quantifier} {s : Span}
    {ts : List Token} (h : admission false c (leaf (.ofClass k) q s :: ts) = .rejected) :
    k.accepts c = false ∧ q.canBeAbsent = false := by
  rw [admission, admission?] at h
  cases hk : k.accepts c <;> cases hq : q.canBeAbsent <;> simp [hk, hq] at h ⊢

/-- A group that rejects a character only without discarding may not be left out, and its body
accepts the character only with discarding. -/
theorem admission_group_rejected {c : Char} {body : List Token} {q : Quantifier} {s : Span}
    {ts : List Token} (h : admission false c (group body q s :: ts) = .rejected)
    (hadmitted : admission true c (group body q s :: ts) ≠ .rejected) :
    q.canBeAbsent = false ∧ admission false c body ≠ .accepted ∧
      admission true c body = .accepted := by
  rw [admission, admission?] at h hadmitted
  have hbody : admission false c body ≠ .accepted := by
    intro haccepted
    rw [haccepted] at h
    cases h
  have hneeded : q.canBeAbsent = false := by
    cases hq : q.canBeAbsent with
    | false => rfl
    | true => cases hverdict : admission false c body <;> simp [hq, hverdict] at h
  refine ⟨hneeded, hbody, ?_⟩
  rw [hneeded] at hadmitted
  cases hverdict : admission true c body with
  | accepted => rfl
  | rejected => simp [hverdict] at hadmitted
  | deferred => simp [hverdict] at hadmitted

/-- Then, in a steady pattern, the body of the group rejects the character only without discarding,
too. -/
theorem Steady.body_rejected {c : Char} {body : List Token} {q : Quantifier} {s : Span}
    {ts : List Token} (hsteady : (group body q s).Steady)
    (h : admission false c (group body q s :: ts) = .rejected)
    (hadmitted : admission true c (group body q s :: ts) ≠ .rejected) :
    q.canBeAbsent = false ∧ SteadyOf body ∧ admission false c body = .rejected ∧
      admission true c body ≠ .rejected := by
  obtain ⟨hneeded, hnot, haccepted⟩ := admission_group_rejected h hadmitted
  obtain ⟨hfirm, hbody⟩ : Firm body ∧ SteadyOf body :=
    hsteady.resolve_left (Bool.eq_false_iff.1 hneeded)
  refine ⟨hneeded, hbody, ?_, ?_⟩
  · cases hverdict : admission false c body with
    | accepted => exact absurd hverdict hnot
    | rejected => rfl
    | deferred => exact absurd hverdict (hfirm.admission_ne_deferred haccepted)
  · rw [haccepted]
    exact Verdict.noConfusion

end Token

namespace Draft

variable {d d' : Draft} {o : Options} {value : List Char} {tokens : List Token} {t : Token}

/-- At a literal that is not the next character, a step that goes on without discarding moves on to
the next token. -/
theorem step_literal_passes {c b : Char} {q : Quantifier} {s : Span}
    (hnext : value[d.valueIndex]? = some c) (hb : b ≠ c)
    (hkept : d' ≠ d.dropChar (d.precedesSelection true))
    (hstep : d.step o value tokens (Token.fitBody o value (.leaf (.literal b) q s))
      (.leaf (.literal b) q s) = .goOn d') :
    d'.tokenIndex = d.tokenIndex + 1 ∧ d'.valueIndex = d.valueIndex := by
  have hturn : Turn o value tokens (Token.fitBody o value (.leaf (.literal b) q s)) d
    (.leaf (.literal b) q s) _ := step_turn _
  rw [hstep] at hturn
  generalize hr : Step.goOn d' = r at hturn
  cases hturn with
  | discard => exact absurd (Step.goOn.inj hr) hkept
  | take hnext' hl =>
    obtain rfl := Option.some.inj (hnext.symm.trans hnext')
    exact absurd (eq_of_beq hl) hb
  | fill =>
    cases hr
    exact ⟨fill_tokenIndex _ _, fill_valueIndex _ _⟩
  | leave =>
    cases hr
    exact ⟨rfl, rfl⟩
  | stop => cases hr

/-- At a class that occurs once and does not hold the next character, a step that goes on without
discarding skips the class. -/
theorem step_class_skips {c : Char} {k : CharClass} {q : Quantifier} {s : Span}
    (hnext : value[d.valueIndex]? = some c) (hk : k.accepts c = false)
    (hq : q.canBeAbsent = false ∧ q ≠ .oneOrMore)
    (hkept : d' ≠ d.dropChar (d.precedesSelection true))
    (hstep : d.step o value tokens (Token.fitBody o value (.leaf (.ofClass k) q s))
      (.leaf (.ofClass k) q s) = .goOn d') : d'.skipped = true := by
  have hturn : Turn o value tokens (Token.fitBody o value (.leaf (.ofClass k) q s)) d
    (.leaf (.ofClass k) q s) _ := step_turn _
  rw [hstep] at hturn
  generalize hr : Step.goOn d' = r at hturn
  cases hturn with
  | discard => exact absurd (Step.goOn.inj hr) hkept
  | take hnext' hl =>
    obtain rfl := Option.some.inj (hnext.symm.trans hnext')
    exact absurd hl (Bool.eq_false_iff.1 hk)
  | skip =>
    cases hr
    rfl
  | leave hend =>
    obtain habsent | ⟨hplus, -⟩ := hend
    · exact absurd habsent (Bool.eq_false_iff.1 hq.1)
    · exact absurd hplus hq.2
  | stop => cases hr

/-- With a character that is rejected only without discarding, a fitting to a steady pattern that
discards nothing does not succeed. -/
theorem walk_fails {c : Char} (ho : o.discard = true) (hsteady : Token.SteadyOf tokens)
    (hnext : value[d.valueIndex]? = some c)
    (hrejected : admission false c (tokens.drop d.tokenIndex) = .rejected)
    (hadmitted : admission true c (tokens.drop d.tokenIndex) ≠ .rejected)
    (hheads : ∀ h ∈ levelHeads o value tokens d, ¬h.Discards o value) :
    ¬Succeeds o value tokens d := by
  induction tokens using Token.groupInduction generalizing d with
  | h tokens ih =>
    intro hsucceeds
    induction hsucceeds using Succeeds.induction with
    | hend d hsucceeds ht =>
      rw [List.drop_of_length_le (List.getElem?_eq_none_iff.1 ht)] at hrejected
      cases hrejected
    | hgo d t d' hsucceeds hsucceeds' ht hgo ihwalk =>
      obtain ⟨hkept, hinside, hafter⟩ := (forall_levelHeads ht).1 hheads
      have hkept' : d' ≠ d.dropChar (d.precedesSelection true) := by
        rintro rfl
        refine hkept ?_
        rw [Head.Discards, next?, ht, Option.map_some, hgo]
      have hmem : t ∈ tokens := List.mem_of_getElem? ht
      rw [drop_eq_cons ht] at hrejected hadmitted
      cases t with
      | leaf l q s =>
        cases l with
        | literal b =>
          -- the literal is passed, and the character is rejected by the tokens after it
          have hb : b ≠ c := by
            rintro rfl
            rw [admission, Token.admission?, if_pos rfl] at hrejected
            cases hrejected
          obtain ⟨hindex, hvalue⟩ := step_literal_passes hnext hb hkept' hgo
          rw [Token.admission_literal hb, ← hindex] at hrejected hadmitted
          exact ihwalk (hvalue ▸ hnext) hrejected hadmitted (hafter d' hgo)
        | ofClass k =>
          obtain ⟨hk, hneeded⟩ := Token.admission_class_rejected hrejected
          have hq : q ≠ .oneOrMore := hsteady.of_mem hmem
          exact not_succeeds_of_skipped (step_class_skips hnext hk ⟨hneeded, hq⟩ hkept' hgo)
            hsucceeds'
      | group body q s =>
        -- the group is needed, and the first trial of its body fails for the same character
        obtain ⟨hneeded, hbody, hbodyRejected, hbodyAdmitted⟩ :=
          (hsteady.of_mem hmem).body_rejected hrejected hadmitted
        have hfree := not_rejects_of_not_discards ho ht hkept
        rw [stepHeads, if_neg (Bool.eq_false_iff.1 hfree)] at hinside
        rw [step_group hfree] at hgo
        refine absurd hgo (fitGroup_fails hneeded ?_)
        rw [← Bool.not_eq_true]
        intro hcomplete
        have hnext' : value[d.endCapture.openScope.rewind.enter.valueIndex]? = some c := by
          rwa [← endCapture_valueIndex d] at hnext
        exact ih body q s hmem hbody hnext' hbodyRejected hbodyAdmitted
          (forall_trialHeads.1 hinside).1 (fit_complete_iff_succeeds.1 hcomplete)

/-- Where a fitting to a steady pattern succeeds and discards nothing, no character would have been
rejected without discarding. -/
theorem not_rejects_of_steady (ho : o.discard = true) (hsteady : Token.SteadyOf tokens)
    (hdepth : d.depth = 1) (hheads : ∀ h ∈ levelHeads o value tokens d, ¬h.Discards o value)
    (hsucceeds : Succeeds o value tokens d) :
    ∀ h ∈ levelHeads o value tokens d, ¬h.Rejects o.strict value := by
  refine forall_not_rejects (I := fun e =>
    (∀ h ∈ levelHeads o value tokens e, ¬h.Discards o value) ∧ Succeeds o value tokens e) ?_ ?_
    hdepth ⟨hheads, hsucceeds⟩
  · rintro e t ht hdepth ⟨hheads, hsucceeds⟩ hrejects
    have hkept := ((forall_levelHeads ht).1 hheads).1
    have hfree := not_rejects_of_not_discards ho ht hkept
    obtain ⟨c, hnext, hverdict⟩ :=
      (Option.any_eq_true _ _).1 (Bool.and_eq_true_iff.1 hrejects).2
    have hadmitted : admission true c (tokens.drop e.tokenIndex) ≠ .rejected := by
      simpa [rejects, hdepth, hnext, ho] using hfree
    exact walk_fails ho hsteady hnext (eq_of_beq hverdict) hadmitted hheads hsucceeds
  · rintro e t e' ht hdepth hgo ⟨hheads, hsucceeds⟩
    exact ⟨((forall_levelHeads ht).1 hheads).2.2 e' hgo, hsucceeds.goOn ht hgo⟩

end Draft

/-- Where fitting a value succeeds and leaves out no character, in no trial either, the outcome is
the same without discarding exactly if no character is rejected then; in a steady pattern none
is. -/
theorem Mask.apply_strict_eq_iff {source : List Char} {o : Options} {m m' : Mask}
    (hm : Mask.ofSource source o = .ok m) (hm' : Mask.ofSource source o.strict = .ok m')
    (ho : o.discard = true) {value : List Char} {start stop : Nat}
    (hcomplete : (m.apply value start stop).complete = true)
    (hkept : ∀ h ∈ heads o value m.tokens (.ofSelection start stop), ¬h.Discards o value) :
    (m'.apply value start stop = m.apply value start stop ↔
        ∀ h ∈ heads o value m.tokens (.ofSelection start stop), ¬h.Rejects o.strict value) ∧
      (Token.SteadyOf m.tokens → m'.apply value start stop = m.apply value start stop) := by
  have htokens : m'.tokens = m.tokens := by
    have hread := (Mask.eq_of_ofSource hm).1
    rw [(Mask.eq_of_ofSource hm').1] at hread
    exact Except.ok.inj hread
  rw [Mask.apply_of_ofSource hm] at hcomplete ⊢
  rw [Mask.apply_of_ofSource hm', htokens]
  have hsame : (∀ h ∈ heads o value m.tokens (.ofSelection start stop),
      ¬h.Rejects o.strict value) →
      (fit o.strict value m.tokens (.ofSelection start stop)).outcome value =
        (fit o value m.tokens (.ofSelection start stop)).outcome value := by
    intro hfree
    rw [Draft.fit_strict_eq ho m.tokens _ fun h hh => ⟨hkept h hh, hfree h hh⟩]
  refine ⟨⟨fun heq => ?_, hsame⟩, fun hsteady => hsame ?_⟩
  · have hcomplete' : (fit o.strict value m.tokens (.ofSelection start stop)).complete = true :=
      (congrArg Outcome.complete heq).trans hcomplete
    exact Draft.not_rejects_of_goesOn ho rfl hkept (Draft.fit_complete_iff.1 hcomplete').1
  · exact Draft.not_rejects_of_steady ho hsteady rfl hkept
      (Draft.fit_complete_iff_succeeds.1 hcomplete)

/-- A literal repeats, another is filled in, and then a group repeats. -/
theorem Mask.apply_strict_eq_iff_repeated :
    ∃ m m', Mask.ofSource "-+a(d-)+x*".toList = .ok m ∧
      Mask.ofSource "-+a(d-)+x*".toList (Options.strict {}) = .ok m' ∧
        m'.apply "--1-2-".toList 3 5 = m.apply "--1-2-".toList 3 5 := by
  obtain ⟨m, hm, hrun⟩ := Mask.exists_of_ofSource
    (show (Mask.ofSource "-+a(d-)+x*".toList).toOption.any (fun (m : Mask) => decide (
      (m.apply "--1-2-".toList 3 5).complete = true ∧ Token.SteadyOf m.tokens ∧
        ∀ h ∈ heads {} "--1-2-".toList m.tokens (.ofSelection 3 5),
          ¬h.Discards {} "--1-2-".toList)) = true by decide +kernel)
  obtain ⟨m', hm', -⟩ := Mask.exists_of_ofSource
    (show (Mask.ofSource "-+a(d-)+x*".toList (Options.strict {})).toOption.any
      (fun _ => true) = true by decide +kernel)
  obtain ⟨hcomplete, hsteady, hkept⟩ := of_decide_eq_true hrun
  exact ⟨m, m', hm, hm', (Mask.apply_strict_eq_iff hm hm' rfl hcomplete hkept).2 hsteady⟩

/-- Without discarding, a class that repeats still has to take the next character after it has
matched. -/
theorem Mask.apply_strict_ne_repeated :
    ∃ m m', Mask.ofSource "d+x".toList = .ok m ∧
      Mask.ofSource "d+x".toList (Options.strict {}) = .ok m' ∧
        (m.apply "5x".toList 0 0).complete = true ∧
          (∀ h ∈ heads {} "5x".toList m.tokens (.ofSelection 0 0), ¬h.Discards {} "5x".toList) ∧
            m'.apply "5x".toList 0 0 ≠ m.apply "5x".toList 0 0 := by
  obtain ⟨m, hm, hrun⟩ := Mask.exists_of_ofSource
    (show (Mask.ofSource "d+x".toList).toOption.any (fun (m : Mask) => decide (
      (m.apply "5x".toList 0 0).complete = true ∧
        ∀ h ∈ heads {} "5x".toList m.tokens (.ofSelection 0 0),
          ¬h.Discards {} "5x".toList)) = true by decide +kernel)
  obtain ⟨m', hm', hrun'⟩ := Mask.exists_of_ofSource
    (show (Mask.ofSource "d+x".toList (Options.strict {})).toOption.any
      (fun m => !(m.apply "5x".toList 0 0).complete) = true by decide +kernel)
  obtain ⟨hcomplete, hkept⟩ := of_decide_eq_true hrun
  refine ⟨m, m', hm, hm', hcomplete, hkept, fun heq => ?_⟩
  rw [heq, hcomplete] at hrun'
  cases hrun'

end InputMask

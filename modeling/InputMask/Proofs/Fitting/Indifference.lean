import InputMask.Proofs.Pattern.Subtokens
import InputMask.Proofs.Fitting.Completion
import InputMask.Proofs.Fitting.Reuse

/-!
# Options that make no difference

Lookahead matters where a token is skipped, and filling in after the value's end where a literal has
no more input; a fitting that succeeds does neither, as long as every group occurs exactly once. For
then no trial that failed is left behind, and all steps of the fitting, within groups too, are ones
that both ways of setting the option agree on (`Options.Follows`, `Draft.fit_eq_of_complete`).

Where a fitting does not succeed, the step that stops it has written nothing, and filling in more
can only write more after that (`Draft.text_isPrefix_appending`).
-/

set_option autoImplicit false

namespace InputMask

namespace Options

/-- The options, but without skipping to later tokens. -/
def withoutLookahead (o : Options) : Options := { o with lookahead := false }

/-- The options, but with literals filled in after the value's end as well. -/
def appending (o : Options) : Options := { o with appendLiterals := true }

/-- Options that reject the same characters as others, and go on from a leaf as the others do
wherever these go on to a draft with a property. -/
structure Follows (P : Draft → Prop) (o' o : Options) : Prop where
  discard : o'.discard = o.discard
  ofClass : ∀ {tokens : List Token} {d d' : Draft} {k : CharClass} {q : Quantifier}
    {next : Option Char} {before : Bool}, d.fitClass o tokens k q next before = .goOn d' → P d' →
      d.fitClass o' tokens k q next before = .goOn d'
  literal : ∀ {d d' : Draft} {c : Char} {q : Quantifier} {next : Option Char} {before : Bool},
    d.fitLiteral o c q next before = .goOn d' → P d' →
      d.fitLiteral o' c q next before = .goOn d'

end Options

namespace Draft

variable {d d' : Draft} {o o' : Options} {value : List Char} {tokens : List Token} {t : Token}
  {P : Draft → Prop}

/-! ## Steps at leaves -/

/-- Where a mismatch skips nothing, it is met in the same way without lookahead. -/
theorem onMismatch_withoutLookahead {c : Char} {before : Bool}
    (hgo : d.onMismatch o tokens c before = .goOn d') (hskipped : d'.skipped = false) :
    d.onMismatch o.withoutLookahead tokens c before = .goOn d' := by
  unfold onMismatch at hgo
  split at hgo
  · next index hindex =>
    obtain rfl := Step.goOn.inj hgo
    cases hskipped
  · exact hgo

/-- Where a step at a class skips nothing, it is the same without lookahead. -/
theorem fitClass_withoutLookahead {k : CharClass} {q : Quantifier} {next : Option Char}
    {before : Bool} (hgo : d.fitClass o tokens k q next before = .goOn d')
    (hskipped : d'.skipped = false) :
    d.fitClass o.withoutLookahead tokens k q next before = .goOn d' := by
  cases next with
  | none => exact hgo
  | some c =>
    simp only [fitClass] at hgo ⊢
    split at hgo
    · next hk => rwa [if_pos hk]
    · next hk =>
      rw [if_neg hk]
      split at hgo
      · next hq =>
        rw [if_pos hq]
        exact onMismatch_withoutLookahead hgo hskipped
      · next hq => rwa [if_neg hq]

/-- Where a step at a literal goes on, it does so when literals are appended as well. -/
theorem fitLiteral_appending {c : Char} {q : Quantifier} {next : Option Char} {before : Bool}
    (hgo : d.fitLiteral o c q next before = .goOn d') :
    d.fitLiteral o.appending c q next before = .goOn d' := by
  unfold fitLiteral at hgo ⊢
  split at hgo
  · next htaken => rwa [if_pos htaken]
  · next htaken =>
    rw [if_neg htaken]
    split at hgo
    · next hfill => rwa [if_pos ⟨hfill.1, .inr rfl⟩]
    · next hfill =>
      -- a literal that could be filled in now would have stopped the fitting
      have honce : q ≠ .once := by
        rintro rfl
        split at hgo <;> cases hgo
      rwa [if_neg fun h => honce h.1]

/-- Without lookahead, every step at a leaf is the same that does not skip a token. -/
theorem follows_withoutLookahead (o : Options) :
    o.withoutLookahead.Follows (fun d => d.skipped = false) o where
  discard := rfl
  ofClass := fitClass_withoutLookahead
  literal hgo _ := hgo

/-- With literals filled in after the value's end too, every step at a leaf is the same that goes
on. -/
theorem follows_appending (o : Options) : o.appending.Follows (fun _ => True) o where
  discard := rfl
  ofClass hgo _ := hgo
  literal hgo _ := fitLiteral_appending hgo

/-! ## Steps at groups -/

/-- A group that has to occur exactly once goes on in the same way, if its body is fitted alike
wherever that succeeds. -/
theorem fitGroup_single {fitBody fitBody' : Draft → Draft} {q : Quantifier}
    (hsingle : q = .once ∨ q = .required)
    (hbody : ∀ e, (fitBody e).complete = true → fitBody' e = fitBody e)
    (hgo : d.fitGroup value fitBody q = .goOn d') : d.fitGroup value fitBody' q = .goOn d' := by
  have honce : q.canBeAbsent = false ∧ q.repeats = false := by
    obtain rfl | rfl := hsingle <;> exact ⟨rfl, rfl⟩
  cases hcomplete : (d.endCapture.openScope.trial fitBody).complete with
  | false => exact absurd hgo (fitGroup_fails honce.1 hcomplete)
  | true =>
    have htrials : d.endCapture.openScope.trials value fitBody' q =
        d.endCapture.openScope.trials value fitBody q := by
      have htrial : d.endCapture.openScope.trial fitBody' = d.endCapture.openScope.trial fitBody :=
        hbody _ hcomplete
      unfold trials
      rw [honce.2]
      exact tryOnce_congr htrial
    rw [fitGroup_eq, htrials, ← fitGroup_eq]
    exact hgo

/-! ## Fittings that succeed -/

/-- A step goes on in the same way with options that follow, if the bodies of groups are fitted
alike wherever that succeeds. -/
theorem step_follows (h : o'.Follows P o) (hsingle : Token.SingleGroups tokens) (ht : t ∈ tokens)
    (hbody : ∀ body q s, .group body q s ∈ tokens → ∀ e,
      (fit o value body e).complete = true → fit o' value body e = fit o value body e)
    (hgo : d.step o value tokens (Token.fitBody o value t) t = .goOn d') (hP : P d') :
    d.step o' value tokens (Token.fitBody o' value t) t = .goOn d' := by
  have hsame : d.rejects o' tokens value[d.valueIndex]? =
      d.rejects o tokens value[d.valueIndex]? := by
    rw [rejects, h.discard, rejects]
  by_cases hrejects : d.rejects o tokens value[d.valueIndex]? = true
  · rw [step_rejected hrejects] at hgo
    rwa [step_rejected (hsame.trans hrejects), h.discard]
  · have hfree := Bool.eq_false_iff.2 hrejects
    have hfree' := hsame.trans hfree
    cases t with
    | leaf l q s =>
      cases l with
      | ofClass k =>
        rw [step_class hfree] at hgo
        rw [step_class hfree']
        exact h.ofClass hgo hP
      | literal c =>
        rw [step_literal hfree] at hgo
        rw [step_literal hfree']
        exact h.literal hgo hP
    | group body q s =>
      rw [step_group hfree] at hgo
      rw [step_group hfree']
      exact fitGroup_single (hsingle.quantifier ht) (hbody body q s ht) hgo

/-- Where groups occur exactly once, a fitting that succeeds is the same with options that follow at
least as long as no token is skipped. The induction is on the pattern, from the bodies of its groups
to the whole. -/
theorem fit_eq_of_complete (h : o'.Follows P o) (hP : ∀ e : Draft, e.skipped = false → P e)
    (hsingle : Token.SingleGroups tokens) (d : Draft)
    (hcomplete : (fit o value tokens d).complete = true) :
    fit o' value tokens d = fit o value tokens d := by
  induction tokens using Token.groupInduction generalizing d with
  | h tokens ih =>
    have hwalk : ∀ e : Draft, Succeeds o value tokens e →
        walk o' value tokens (fitBodies o' value tokens) e =
          walk o value tokens (fitBodies o value tokens) e := by
      intro e hsucceeds
      induction hsucceeds using Succeeds.induction with
      | hend e hsucceeds ht => rw [walk_none ht, walk_none ht]
      | hgo e t e' hsucceeds hsucceeds' ht hgo ihwalk =>
        have hgo' := step_follows h hsingle (List.mem_of_getElem? ht)
          (fun body q s hmem => ih body q s hmem (hsingle.of_group hmem))
          hgo (hP e' hsucceeds'.not_skipped)
        rw [walk_goOn ht hgo, walk_goOn ht hgo', ihwalk]
    exact congrArg (settled tokens) (hwalk _ (fit_complete_iff_succeeds.1 hcomplete))

/-! ## Fittings that stop -/

/-- Where groups occur exactly once, stepping with literals filled in after the value's end too
begins with what is written without. -/
theorem text_isPrefix_appending (hsingle : Token.SingleGroups tokens) (hdepth : d.depth ≤ 1) :
    (walk o value tokens (fitBodies o value tokens) d).draft.text <+:
      (walk o.appending value tokens (fitBodies o.appending value tokens) d).draft.text := by
  induction d using stepInduction o value tokens with
  | hend d ht =>
    rw [walk_none ht, walk_none ht]
  | hstop d t d' ht hstop =>
    -- nothing was written in this step, and whatever the other one writes comes after what is there
    rw [walk_stop ht hstop, Step.draft, step_stop_text hstop]
    exact (walk_extends o.appending value tokens hdepth).text
  | hgo d t d' ht hgo ih =>
    have hgo' := step_follows (follows_appending o) hsingle (List.mem_of_getElem? ht)
      (fun body q s hmem => fit_eq_of_complete (follows_appending o) (fun _ _ => trivial)
        (hsingle.of_group hmem)) hgo trivial
    rw [walk_goOn ht hgo, walk_goOn ht hgo']
    exact ih ((step_goOn_depth hgo).trans_le hdepth)

end Draft

/-- Where every group of a mask occurs exactly once, an outcome that is complete is the same without
lookahead, and the same with literals filled in after the value's end as well; and any outcome,
complete or not, has a text that the text with those literals begins with. The other options may be
set in any way. -/
theorem Mask.apply_of_singleGroups {source : List Char} {o : Options} {m direct appending : Mask}
    (hm : Mask.ofSource source o = .ok m)
    (hdirect : Mask.ofSource source o.withoutLookahead = .ok direct)
    (happending : Mask.ofSource source o.appending = .ok appending)
    (hsingle : Token.SingleGroups m.tokens) (value : List Char) (start stop : Nat) :
    ((m.apply value start stop).complete = true →
      direct.apply value start stop = m.apply value start stop ∧
        appending.apply value start stop = m.apply value start stop) ∧
      (m.apply value start stop).text <+: (appending.apply value start stop).text := by
  rw [Mask.apply_of_ofSource hm, Mask.apply_of_ofSource hdirect, Mask.apply_of_ofSource happending,
    Mask.tokens_eq_of_ofSource hm hdirect, Mask.tokens_eq_of_ofSource hm happending]
  refine ⟨fun hcomplete => ⟨?_, ?_⟩, ?_⟩
  · rw [Draft.fit_eq_of_complete (Draft.follows_withoutLookahead o) (fun _ h => h) hsingle _
      hcomplete]
  · rw [Draft.fit_eq_of_complete (Draft.follows_appending o) (fun _ _ => trivial) hsingle _
      hcomplete]
  · change (fit o value m.tokens _).text <+: (fit o.appending value m.tokens _).text
    rw [Draft.fit_text, Draft.fit_text]
    exact Draft.text_isPrefix_appending hsingle le_rfl

/-- In the first value the last literal is typed. In the second it is missing, so the group is given
back, and only what stands before it is left; filled in, the literals complete the mask. -/
theorem Mask.apply_of_singleGroups_nested :
    ∃ m direct appending, Mask.ofSource "<((d)/.?-)!>".toList = .ok m ∧
      Mask.ofSource "<((d)/.?-)!>".toList (Options.withoutLookahead {}) = .ok direct ∧
        Mask.ofSource "<((d)/.?-)!>".toList (Options.appending {}) = .ok appending ∧
          Token.SingleGroups m.tokens ∧ (m.apply "x5->".toList 1 3).complete = true ∧
            direct.apply "x5->".toList 1 3 = m.apply "x5->".toList 1 3 ∧
              appending.apply "x5->".toList 1 3 = m.apply "x5->".toList 1 3 ∧
                (m.apply "5.".toList 1 2).text = "<".toList ∧
                  (m.apply "5.".toList 1 2).text <+: (appending.apply "5.".toList 1 2).text := by
  obtain ⟨m, hm, hrun⟩ := Mask.exists_of_ofSource
    (show (Mask.ofSource "<((d)/.?-)!>".toList).toOption.any (fun m => decide (
      Token.SingleGroups m.tokens ∧ (m.apply "x5->".toList 1 3).complete = true ∧
        (m.apply "5.".toList 1 2).text = "<".toList)) = true by decide +kernel)
  obtain ⟨direct, hdirect, -⟩ := Mask.exists_of_ofSource
    (show (Mask.ofSource "<((d)/.?-)!>".toList (Options.withoutLookahead {})).toOption.any
      (fun _ => true) = true by decide +kernel)
  obtain ⟨appending, happending, -⟩ := Mask.exists_of_ofSource
    (show (Mask.ofSource "<((d)/.?-)!>".toList (Options.appending {})).toOption.any
      (fun _ => true) = true by decide +kernel)
  obtain ⟨hsingle, hcomplete, htext⟩ := of_decide_eq_true hrun
  obtain ⟨hsame, -⟩ :=
    Mask.apply_of_singleGroups hm hdirect happending hsingle "x5->".toList 1 3
  obtain ⟨-, hprefix⟩ :=
    Mask.apply_of_singleGroups hm hdirect happending hsingle "5.".toList 1 2
  obtain ⟨hlookahead, hfilled⟩ := hsame hcomplete
  exact ⟨m, direct, appending, hm, hdirect, happending, hsingle, hcomplete, hlookahead, hfilled,
    htext, hprefix⟩

end InputMask

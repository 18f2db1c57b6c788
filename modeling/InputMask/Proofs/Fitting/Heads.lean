import InputMask.Draft.Reached
import InputMask.Proofs.Fitting.Turns

/-!
# The heads of a fitting

`forall_levelHeads` and `forall_trialHeads` read the list of a fitting's `heads` along the steps and
the trials. What holds of all heads is mostly shown by an invariant, of the drafts along a level
(`forall_levelHeads_of_invariant`) and of those that trials start from
(`forall_trialHeads_of_invariant`). A step keeps to its level (`step_depth`), so the heads in a
trial are deeper than the draft that the trial starts from (`depth_lt_of_mem_heads`).
-/

set_option autoImplicit false

namespace InputMask

/-- The heads in the body of a group are those of fitting it as a pattern. -/
@[simp] theorem Token.bodyHeads_group (o : Options) (value : List Char) (body : List Token)
    (q : Quantifier) (s : Span) :
    Token.bodyHeads o value (.group body q s) = heads o value body := rfl

/-- The heads in the bodies of some tokens are given token by token. -/
theorem bodiesHeads_eq_map (o : Options) (value : List Char) (tokens : List Token) :
    bodiesHeads o value tokens = tokens.map (Token.bodyHeads o value) := by
  induction tokens with
  | nil => rfl
  | cons t ts ih => rw [bodiesHeads, ih, List.map_cons]

namespace Draft

variable {d d' : Draft} {o : Options} {value : List Char} {tokens : List Token} {t : Token}

/-! ## Reading the list -/

/-- The heads in stepping through tokens, with the bodies of groups fitted by their own tokens. -/
def levelHeads (o : Options) (value : List Char) (tokens : List Token) (d : Draft) : List Head :=
  walkHeads o value tokens (bodiesHeads o value tokens) d

/-- Where the tokens have run out, there are no more heads. -/
theorem levelHeads_none (ht : tokens[d.tokenIndex]? = none) :
    levelHeads o value tokens d = [] := by
  rw [levelHeads, walkHeads]
  split
  · rfl
  · next t ht' =>
    rw [ht] at ht'
    cases ht'

/-- The heads from a draft on are the draft itself, those in its step, and those from where the step
goes on. -/
theorem levelHeads_some (ht : tokens[d.tokenIndex]? = some t) :
    levelHeads o value tokens d =
      ⟨tokens, d⟩ :: (d.stepHeads o value tokens (Token.bodyHeads o value t) t ++
        match d.step o value tokens (Token.fitBody o value t) t with
        | .stop _ => []
        | .goOn d' => levelHeads o value tokens d') := by
  have hbody : ((bodiesHeads o value tokens)[d.tokenIndex]?.getD fun _ => []) =
      Token.bodyHeads o value t := by
    rw [bodiesHeads_eq_map, List.getElem?_map, ht, Option.map_some, Option.getD_some]
  rw [levelHeads, walkHeads]
  split
  · next ht' =>
    rw [ht] at ht'
    cases ht'
  · next t' ht' =>
    obtain rfl : t = t' := Option.some.inj (ht.symm.trans ht')
    rw [hbody]
    congr 2
    split <;> rename_i hstep <;> rw [hstep]
    rfl

/-- What holds of all heads from a draft on holds of the draft, of the heads in its step, and of all
heads from where the step goes on. -/
theorem forall_levelHeads {P : Head → Prop} (ht : tokens[d.tokenIndex]? = some t) :
    (∀ h ∈ levelHeads o value tokens d, P h) ↔
      P ⟨tokens, d⟩ ∧ (∀ h ∈ d.stepHeads o value tokens (Token.bodyHeads o value t) t, P h) ∧
        ∀ d', d.step o value tokens (Token.fitBody o value t) t = .goOn d' →
          ∀ h ∈ levelHeads o value tokens d', P h := by
  rw [levelHeads_some ht, List.forall_mem_cons, List.forall_mem_append]
  cases d.step o value tokens (Token.fitBody o value t) t with
  | stop e => simp
  | goOn e => simp

/-- The rule for the heads along a level: what every step that goes on keeps tells what holds of
each draft on the level and of the heads in its step. -/
theorem forall_levelHeads_of_invariant {I : Draft → Prop} {P : Head → Prop}
    (hhead : ∀ (e : Draft) (t : Token), tokens[e.tokenIndex]? = some t → I e →
      P ⟨tokens, e⟩ ∧ ∀ h ∈ e.stepHeads o value tokens (Token.bodyHeads o value t) t, P h)
    (hgo : ∀ (e : Draft) (t : Token) (e' : Draft), tokens[e.tokenIndex]? = some t →
      e.step o value tokens (Token.fitBody o value t) t = .goOn e' → I e → I e')
    (h : I d) : ∀ h ∈ levelHeads o value tokens d, P h := by
  induction d using stepInduction o value tokens with
  | hend d ht =>
    rw [levelHeads_none ht]
    exact List.forall_mem_nil _
  | hstop d t d' ht hstop =>
    obtain ⟨hfirst, hinside⟩ := hhead d t ht h
    refine (forall_levelHeads ht).2 ⟨hfirst, hinside, fun e hstep => ?_⟩
    rw [hstop] at hstep
    cases hstep
  | hgo d t d' ht hstep ih =>
    obtain ⟨hfirst, hinside⟩ := hhead d t ht h
    refine (forall_levelHeads ht).2 ⟨hfirst, hinside, fun e hstep' => ?_⟩
    obtain rfl : d' = e := Step.goOn.inj (hstep.symm.trans hstep')
    exact ih (hgo d t d' ht hstep h)

/-- The heads in trials are those in the first one and, where trials repeat, those in the trials
after a success that took something. -/
theorem trialHeads_eq {fitBody : Draft → Draft} {bodyHeads : Draft → List Head} {repeats : Bool} :
    trialHeads value fitBody bodyHeads repeats d = bodyHeads d.rewind ++
      if (repeats = true ∧ (d.trial fitBody).complete = true) ∧
          d.valueIndex < (d.trial fitBody).valueIndex ∧
            (d.trial fitBody).valueIndex ≤ value.length then
        trialHeads value fitBody bodyHeads repeats (d.trial fitBody)
      else [] := by
  rw [trialHeads]
  rfl

/-- What holds of all heads in trials holds of those in the first one, and of those in the trials
after a success that took something. -/
theorem forall_trialHeads {P : Head → Prop} {fitBody : Draft → Draft}
    {bodyHeads : Draft → List Head} {repeats : Bool} :
    (∀ h ∈ trialHeads value fitBody bodyHeads repeats d, P h) ↔
      (∀ h ∈ bodyHeads d.rewind, P h) ∧
        (repeats = true → (d.trial fitBody).complete = true →
          d.valueIndex < (d.trial fitBody).valueIndex ∧
            (d.trial fitBody).valueIndex ≤ value.length →
          ∀ h ∈ trialHeads value fitBody bodyHeads repeats (d.trial fitBody), P h) := by
  rw [trialHeads_eq, List.forall_mem_append]
  refine and_congr Iff.rfl ?_
  split
  · next hmore => exact ⟨fun h _ _ _ => h, fun h => h hmore.1.1 hmore.1.2 hmore.2⟩
  · next hmore =>
    refine ⟨fun _ hrepeats hcomplete hadvances => ?_, fun _ h hh => by cases hh⟩
    exact absurd ⟨⟨hrepeats, hcomplete⟩, hadvances⟩ hmore

/-! ## Levels -/

/-- The rule for the heads in trials: what every success that another trial follows keeps tells what
holds of the heads in each trial. -/
theorem forall_trialHeads_of_invariant {fitBody : Draft → Draft} {bodyHeads : Draft → List Head}
    {repeats : Bool} {I : Draft → Prop} {P : Head → Prop}
    (hbody : ∀ e : Draft, I e → ∀ h ∈ bodyHeads e.rewind, P h)
    (hmore : ∀ e : Draft, I e → repeats = true → (e.trial fitBody).complete = true →
      e.valueIndex < (e.trial fitBody).valueIndex ∧ (e.trial fitBody).valueIndex ≤ value.length →
        I (e.trial fitBody))
    (h : I d) : ∀ h ∈ trialHeads value fitBody bodyHeads repeats d, P h := by
  refine trialInduction value fitBody (motive := fun _ d => I d →
    ∀ h ∈ trialHeads value fitBody bodyHeads repeats d, P h) ?_ ?_ ?_ false d h
  · intro matched d hfails h
    refine forall_trialHeads.2 ⟨hbody d h, fun _ hcomplete => ?_⟩
    rw [hfails] at hcomplete
    cases hcomplete
  · intro matched d hcomplete hadvances ih h
    exact forall_trialHeads.2
      ⟨hbody d h, fun hrepeats _ _ => ih (hmore d h hrepeats hcomplete hadvances)⟩
  · intro matched d hcomplete hstays h
    exact forall_trialHeads.2 ⟨hbody d h, fun _ _ hadvances => absurd hadvances hstays⟩

/-- A way to fit that ends on the level that it starts on. -/
def KeepsLevel (fitBody : Draft → Draft) : Prop := ∀ d, (fitBody d).depth = d.depth

/-- Trials end on the level that they start on. -/
theorem trials_depth {fitBody : Draft → Draft} (hbody : KeepsLevel fitBody) (q : Quantifier)
    (d : Draft) : (d.trials value fitBody q).2.depth = d.depth := by
  unfold trials
  split
  · refine tryRepeatedly_induction (I := fun _ e => e.depth = d.depth)
      (J := fun r => r.2.depth = d.depth) ?_ ?_ ?_ rfl
    · intro matched e he hcomplete
      exact (hbody e.rewind).trans he
    · intro matched e he hcomplete
      exact (hbody e.rewind).trans he
    · intro e he
      exact he
  · cases hcomplete : (d.trial fitBody).complete with
    | true =>
      rw [tryOnce_pass hcomplete]
      exact hbody d.rewind
    | false =>
      rw [tryOnce_fail hcomplete]
      exact hbody d.rewind

/-- A step at a group ends on the level that it starts on. -/
theorem fitGroup_depth {fitBody : Draft → Draft} (hbody : KeepsLevel fitBody) (q : Quantifier) :
    (d.fitGroup value fitBody q).draft.depth = d.depth := by
  have htrials : (d.endCapture.openScope.trials value fitBody q).2.depth = d.depth :=
    (trials_depth hbody q _).trans endCapture_depth
  rw [fitGroup_draft]
  exact htrials

/-- A step keeps to its level, if the fitting of a group's body does. -/
theorem step_depth (hbody : ∀ body q s, t = .group body q s → KeepsLevel (fit o value body)) :
    (d.step o value tokens (Token.fitBody o value t) t).draft.depth = d.depth := by
  have hturn : Turn o value tokens (Token.fitBody o value t) d t _ := step_turn t
  generalize d.step o value tokens (Token.fitBody o value t) t = r at hturn
  cases hturn with
  | discard hnext ho => exact dropChar_depth _
  | take hnext hl => exact (afterMatch_depth _).trans (take_depth _ _)
  | fill h => exact fill_depth _ _
  | skip ho hnext hindex => rfl
  | leave h => rfl
  | stop => rfl
  | trial => exact fitGroup_depth (hbody _ _ _ rfl) _

/-- A fitting ends on the level that it starts on. -/
theorem keepsLevel_fit (o : Options) (value : List Char) (tokens : List Token) :
    KeepsLevel (fit o value tokens) := by
  induction tokens using Token.groupInduction with
  | h tokens ih =>
    intro d
    have hkeeps : ∀ (e : Draft) (t : Token), tokens[e.tokenIndex]? = some t →
        (e.step o value tokens (Token.fitBody o value t) t).draft.depth = e.depth := by
      intro e t ht
      refine step_depth fun body q s hgroup => ih body q s ?_
      exact List.mem_of_getElem? (hgroup ▸ ht)
    have hwalked : (d.walked o value tokens).draft.depth = d.depth + 1 := by
      refine walk_induction (I := fun e => e.depth = d.depth + 1)
        (J := fun r => r.draft.depth = d.depth + 1) ?_ ?_ ?_ rfl
      · intro e t e' he ht hstep
        have hdepth := hkeeps e t ht
        rw [hstep] at hdepth
        exact hdepth.trans he
      · intro e t e' he ht hstep
        have hdepth := hkeeps e t ht
        rw [hstep] at hdepth
        exact hdepth.trans he
      · intro e he ht
        exact he
    rw [fit_depth, hwalked, Nat.add_sub_cancel]

/-- Where a step goes on, it does so on the same level. -/
theorem step_goOn_depth (hstep : d.step o value tokens (Token.fitBody o value t) t = .goOn d') :
    d'.depth = d.depth := by
  have hdepth : (d.step o value tokens (Token.fitBody o value t) t).draft.depth = d.depth :=
    step_depth fun body q s _ => keepsLevel_fit o value body
  rwa [hstep] at hdepth

/-- What holds of the heads in the trials of a group holds of those in a step: at a leaf, and where
a character is rejected, there are none. -/
theorem forall_stepHeads {bodyHeads : Draft → List Head} {P : Head → Prop}
    (hgroup : ∀ body q s, t = .group body q s →
      ∀ h ∈ trialHeads value (fit o value body) bodyHeads q.repeats d.endCapture.openScope, P h) :
    ∀ h ∈ d.stepHeads o value tokens bodyHeads t, P h := by
  cases t with
  | leaf l q s => exact List.forall_mem_nil _
  | group body q s =>
    rw [stepHeads]
    split
    · exact List.forall_mem_nil _
    · exact hgroup body q s rfl

/-- The heads in the trials of a body are deeper than the draft that the trials start from. -/
theorem depth_lt_of_mem_trialHeads {body : List Token} {repeats : Bool}
    (hbody : ∀ e, ∀ h ∈ heads o value body e, e.depth < h.draft.depth) (d : Draft) :
    ∀ h ∈ trialHeads value (fit o value body) (heads o value body) repeats d,
      d.depth < h.draft.depth := by
  refine forall_trialHeads_of_invariant (I := fun e => e.depth = d.depth) ?_ ?_ rfl
  · intro e he
    rw [← he]
    exact hbody e.rewind
  · intro e he _ _ _
    exact (keepsLevel_fit o value body e.rewind).trans he

/-- The heads in the step of a draft are deeper than the draft. -/
theorem depth_lt_of_mem_stepHeads
    (hbody : ∀ body q s, t = .group body q s →
      ∀ e, ∀ h ∈ heads o value body e, e.depth < h.draft.depth) :
    ∀ h ∈ d.stepHeads o value tokens (Token.bodyHeads o value t) t, d.depth < h.draft.depth := by
  refine forall_stepHeads ?_
  rintro body q s rfl h hh
  have hdepth : d.endCapture.openScope.depth = d.depth := endCapture_depth
  rw [← hdepth]
  exact depth_lt_of_mem_trialHeads (hbody body q s rfl) _ h hh

/-- The heads in a fitting are deeper than the draft that the fitting starts from. -/
theorem depth_lt_of_mem_heads (o : Options) (value : List Char) (tokens : List Token) (d : Draft) :
    ∀ h ∈ heads o value tokens d, d.depth < h.draft.depth := by
  induction tokens using Token.groupInduction generalizing d with
  | h tokens ih =>
    -- stepping stays on the level below, and the heads in a step are deeper still
    refine forall_levelHeads_of_invariant (I := fun e => e.depth = d.depth + 1) ?_ ?_ rfl
    · intro e t ht he
      have hlt : d.depth < e.depth := Nat.lt_of_succ_le he.ge
      refine ⟨hlt, fun h hh => hlt.trans ?_⟩
      refine depth_lt_of_mem_stepHeads (fun body q s hgroup e => ih body q s ?_ e) h hh
      exact List.mem_of_getElem? (hgroup ▸ ht)
    · intro e t e' ht hstep he
      exact (step_goOn_depth hstep).trans he

end Draft

end InputMask

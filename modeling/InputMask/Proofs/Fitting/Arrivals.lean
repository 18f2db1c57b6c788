import InputMask.Proofs.Fitting.Heads
import InputMask.Proofs.Fitting.Cursor

/-!
# How a fitting gets to its heads

Whatever draft a fitting comes to, it has come there by events (`Draft.Leads`): a step and a fitting
lead on from the draft that they start from, and so does a whole fitting to each of its heads
(`Draft.leads_to_heads`). The heads in a trial are reached by what happens in that trial, whether or
not it is taken back afterwards; those after a trial that was taken back are reached without it.

So what every event keeps holds at all heads.
-/

set_option autoImplicit false

namespace InputMask

namespace Draft

variable {d d' d'' : Draft} {o : Options} {value : List Char} {tokens body : List Token} {t : Token}
  {leaves leaves' : List (Leaf × Quantifier)}

/-- Events at some leaves lead from one draft to another: from its place in the value to the
other's, and from its sheet to the other's. -/
def Leads (o : Options) (value : List Char) (leaves : List (Leaf × Quantifier)) (d d' : Draft) :
    Prop :=
  ∃ es, Course o value leaves d.valueIndex es d'.valueIndex ∧ d'.sheet = replay value es d.sheet

/-- Ending a capture leaves the sheet as it is. -/
theorem endCapture_sheet (d : Draft) : d.endCapture.sheet = d.sheet := by
  unfold endCapture
  split <;> rfl

/-- Where neither the sheet nor the place in the value changes, no event is needed. -/
theorem leads_still (hvalue : d'.valueIndex = d.valueIndex) (hsheet : d'.sheet = d.sheet) :
    Leads o value leaves d d' :=
  ⟨[], hvalue ▸ .nil _, hsheet⟩

/-- Events that follow each other lead from the first draft to the last. -/
theorem Leads.trans (h : Leads o value leaves d d') (h' : Leads o value leaves d' d'') :
    Leads o value leaves d d'' := by
  obtain ⟨es, hcourse, hsheet⟩ := h
  obtain ⟨fs, hcourse', hsheet'⟩ := h'
  refine ⟨es ++ fs, hcourse.append hcourse', ?_⟩
  rw [replay_append, ← hsheet, hsheet']

/-- Events for some leaves are events for more of them. -/
theorem Leads.mono (h : Leads o value leaves d d') (hsub : leaves ⊆ leaves') :
    Leads o value leaves' d d' := by
  obtain ⟨es, hcourse, hsheet⟩ := h
  exact ⟨es, hcourse.mono hsub, hsheet⟩

/-! ## What events cannot do -/

/-- Events never go back in the value. -/
theorem Leads.valueIndex_ge (h : Leads o value leaves d d') : d.valueIndex ≤ d'.valueIndex := by
  obtain ⟨es, hcourse, -⟩ := h
  exact hcourse.indices.1

/-- Events do not lead beyond the value, but from beyond it nowhere else. -/
theorem Leads.valueIndex_le (h : Leads o value leaves d d') :
    d'.valueIndex ≤ max d.valueIndex value.length := by
  obtain ⟨es, hcourse, -⟩ := h
  rcases Nat.lt_or_eq_of_le hcourse.indices.1 with hlt | heq
  · exact (hcourse.le_length_of_lt hlt).trans (le_max_right _ _)
  · exact heq ▸ le_max_left _ _

/-- What is written already stays. -/
theorem Leads.text_isPrefix (h : Leads o value leaves d d') : d.text <+: d'.text := by
  obtain ⟨es, -, hsheet⟩ := h
  have htext := replay_text value es d.sheet
  rw [← hsheet] at htext
  exact ⟨_, htext.symm⟩

/-- Both ends of the selection are moved alike. -/
theorem Leads.extent (h : Leads o value leaves d d') :
    d'.selection.stop - d'.selection.start = d.selection.stop - d.selection.start := by
  obtain ⟨es, -, hsheet⟩ := h
  have hextent := replay_extent value es d.sheet
  rwa [← hsheet] at hextent

/-! ## Steps and fittings -/

/-- Events lead through a whole fitting, those of trials that were taken back left out. -/
theorem fit_leads (o : Options) (value : List Char) (tokens : List Token) (d : Draft) :
    Leads o value (Token.leavesOf tokens) d (fit o value tokens d) := by
  obtain ⟨es, hcourse, hreplay⟩ := fit_retraces o value tokens d
  exact ⟨es, hcourse, congrArg sheet (hreplay d.sheet)⟩

/-- Events lead from a draft to the one that its step leaves. -/
theorem step_leads (ht : t ∈ tokens) (d : Draft) :
    Leads o value (Token.leavesOf tokens) d
      (d.step o value tokens (Token.fitBody o value t) t).draft := by
  have hbody : t.isGroup = true →
      Retraces o value (Token.leavesOf tokens) (Token.fitBody o value t) := by
    intro hgroup
    cases t with
    | leaf l q s => cases hgroup
    | group body q s => exact (fit_retraces o value body).mono (Token.leaves_subset ht)
  obtain ⟨es, r, hcourse, hreplay⟩ := step_retraced (d := d) (Token.leaves_subset ht) hbody
  have hstep : d.step o value tokens (Token.fitBody o value t) t = r.on (replay value es d.sheet) :=
    hreplay d.sheet
  rw [hstep]
  cases r with
  | goOn e => exact ⟨es, hcourse, rfl⟩
  | stop e => exact ⟨es, hcourse, rfl⟩

/-- Events lead through a single trial of a body. -/
theorem trial_leads (o : Options) (value : List Char) (body : List Token) (d : Draft) :
    Leads o value (Token.leavesOf body) d (d.trial (fit o value body)) :=
  fit_leads o value body d.rewind

/-! ## Heads -/

/-- Events lead from where trials start to every head in them, if they do within a body. -/
theorem leads_to_trialHeads
    (hbody : ∀ e, ∀ h ∈ heads o value body e, Leads o value (Token.leavesOf body) e h.draft)
    (repeats : Bool) (d : Draft) :
    ∀ h ∈ trialHeads value (fit o value body) (heads o value body) repeats d,
      Leads o value (Token.leavesOf body) d h.draft := by
  refine forall_trialHeads_of_invariant
    (I := fun e => Leads o value (Token.leavesOf body) d e) ?_ ?_ (leads_still rfl rfl)
  · intro e he h hh
    exact he.trans (hbody e.rewind h hh)
  · intro e he _ _ _
    exact he.trans (trial_leads o value body e)

/-- Events lead from a draft to every head in its step, if they do within bodies. -/
theorem leads_to_stepHeads (ht : t ∈ tokens)
    (hbody : ∀ body q s, t = .group body q s →
      ∀ e, ∀ h ∈ heads o value body e, Leads o value (Token.leavesOf body) e h.draft)
    (d : Draft) :
    ∀ h ∈ d.stepHeads o value tokens (Token.bodyHeads o value t) t,
      Leads o value (Token.leavesOf tokens) d h.draft := by
  refine forall_stepHeads ?_
  rintro body q s rfl h hh
  have hopens : Leads o value (Token.leavesOf body) d d.endCapture.openScope :=
    leads_still (endCapture_valueIndex d) (endCapture_sheet d)
  have htrial := leads_to_trialHeads (hbody body q s rfl) q.repeats _ h hh
  exact (hopens.trans htrial).mono (Token.leaves_subset ht)

/-- Events lead from the draft that a fitting starts from to each of its heads, also in trials that
are taken back: the induction is on the pattern, from the bodies of its groups to the whole. -/
theorem leads_to_heads (o : Options) (value : List Char) (tokens : List Token) (d : Draft) :
    ∀ h ∈ heads o value tokens d, Leads o value (Token.leavesOf tokens) d h.draft := by
  induction tokens using Token.groupInduction generalizing d with
  | h tokens ih =>
    -- events lead to each draft on the level, and from there to the heads in its step
    refine forall_levelHeads_of_invariant
      (I := fun e => Leads o value (Token.leavesOf tokens) d e) ?_ ?_ (leads_still rfl rfl)
    · intro e t ht he
      have hmem := List.mem_of_getElem? ht
      refine ⟨he, fun h hh => he.trans ?_⟩
      exact leads_to_stepHeads hmem (fun body q s hgroup e => ih body q s (hgroup ▸ hmem) e) e h hh
    · intro e t e' ht hgo he
      have hstep : Leads o value (Token.leavesOf tokens) e _ :=
        step_leads (List.mem_of_getElem? ht) e
      rw [hgo] at hstep
      exact he.trans hstep

end Draft

end InputMask

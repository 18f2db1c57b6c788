import InputMask.Proofs.Fitting.Independence
import InputMask.Proofs.Fitting.Satisfaction
import InputMask.Proofs.Fitting.CapturedText
import InputMask.Proofs.Fitting.Termination

/-!
# What the trials of a group come to

A group that has not matched leaves no trace of its trial, whatever happened in it: after it, the
draft is what it was, but past the group, with the current capture ended and the group's slot
unmatched (`Draft.fitGroup_of_unmatched`).

The trials of a group that repeats share one draft and one list of captures. That is no different
from single attempts one after another, each of which hands over what it has captured
(`Draft.Attempts`): captures that are there already change nothing, and a trial that succeeds leaves
neither skipped tokens nor matches nor a capture that has not ended, so the next one starts as in a
scope of its own (`Draft.tryRepeatedly_eq_attempts`).
-/

set_option autoImplicit false

namespace InputMask

/-- A slot is unmatched exactly if nothing was captured for it. -/
theorem Capture.slot_eq_unmatched_iff {captured : Option (List Capture)} :
    Capture.slot captured = .unmatched ↔ captured = none := by
  cases captured <;> simp [Capture.slot]

/-- What can be absent is what is optional or repeated from zero on. -/
theorem Quantifier.canBeAbsent_iff {q : Quantifier} :
    q.canBeAbsent = true ↔ q = .optional ∨ q = .zeroOrMore := by
  cases q <;> simp [Quantifier.canBeAbsent]

namespace Draft

variable {d d' : Draft} {o : Options} {value : List Char} {body : List Token} {q : Quantifier}
  {fitBody : Draft → Draft}

/-! ## A group that has not matched -/

/-- After a success, repeated trials come to something. -/
theorem tryRepeatedly_isSome (value : List Char) (fitBody : Draft → Draft) (d : Draft) :
    (tryRepeatedly value fitBody true d).1.isSome = true :=
  tryRepeatedly_induction (I := fun matched _ => matched = true) (J := fun r => r.1.isSome = true)
    (fun _ _ _ _ => rfl) (fun matched d hmatched _ => by rw [if_pos hmatched]; rfl)
    (fun _ _ => rfl) rfl

/-- Trials come to nothing exactly if the first one fails. -/
theorem trials_eq_none_iff :
    (d.trials value fitBody q).1 = none ↔ (d.trial fitBody).complete = false := by
  constructor
  · intro hnone
    rw [← Bool.not_eq_true]
    intro hcomplete
    unfold trials at hnone
    split at hnone
    · by_cases hmore : d.valueIndex < (d.trial fitBody).valueIndex ∧
        (d.trial fitBody).valueIndex ≤ value.length
      · have hsome := tryRepeatedly_isSome value fitBody (d.trial fitBody)
        rw [tryRepeatedly_more hcomplete hmore] at hnone
        rw [hnone] at hsome
        cases hsome
      · rw [tryRepeatedly_last hcomplete hmore] at hnone
        cases hnone
    · rw [tryOnce_pass hcomplete] at hnone
      cases hnone
  · intro hfails
    rw [trials_fail hfails]

/-- What ending a capture keeps of it: within a group, the run of its characters if there are
any. -/
def endedRun (d : Draft) : List Capture :=
  if d.pending ≠ [] ∧ 1 < d.depth then [.run d.pending] else []

/-- Ending a capture moves the pending characters into the captures, and changes nothing else. -/
theorem endCapture_eq (d : Draft) :
    d.endCapture = { d with captures := d.captures ++ d.endedRun, pending := [] } := by
  cases hpending : d.pending with
  | nil =>
    have hrun : d.endedRun = [] := if_neg fun h => h.1 hpending
    rw [hrun, List.append_nil, ← hpending]
    exact if_pos (List.isEmpty_iff.2 hpending)
  | cons c cs =>
    by_cases hdepth : 1 < d.depth <;> simp [endCapture, endedRun, hpending, hdepth]

/-- The slot that a step at a group leaves last is that of the trials. -/
theorem fitGroup_captures (d : Draft) (value : List Char) (fitBody : Draft → Draft)
    (q : Quantifier) :
    (d.fitGroup value fitBody q).draft.captures = d.endCapture.captures ++
      [.slot (d.endCapture.openScope.trials value fitBody q).1] := by
  rw [fitGroup_draft]
  rfl

/-- A group whose slot is unmatched leaves the draft as it was, but for the current capture, which
has ended, and for the slot. The fitting goes on exactly if the group may be left out. -/
theorem fitGroup_of_unmatched (o : Options) (value : List Char) (body : List Token)
    (q : Quantifier) (d : Draft)
    (h : (d.fitGroup value (fit o value body) q).draft.captures.getLast? = some .unmatched) :
    (d.fitGroup value (fit o value body) q).draft =
        { d with
          complete := false
          captures := d.captures ++ d.endedRun ++ [.unmatched]
          tokenIndex := d.tokenIndex + 1
          pending := [] } ∧
      ((d.fitGroup value (fit o value body) q).goesOn = true ↔
        q = .optional ∨ q = .zeroOrMore) := by
  rw [fitGroup_captures, List.getLast?_concat, Option.some.injEq, Capture.slot_eq_unmatched_iff,
    trials_eq_none_iff] at h
  have htrials : d.endCapture.openScope.trials value (fit o value body) q = _ := trials_fail h q
  constructor
  · have hdepth : (d.endCapture.openScope.trial (fit o value body)).depth = d.depth :=
      (keepsLevel_fit o value body _).trans endCapture_depth
    rw [fitGroup_draft, htrials]
    generalize d.endCapture.openScope.trial (fit o value body) = after at h hdepth
    simp only [closeScope, revertTo, openScope, endCapture_eq, h, hdepth]
    rfl
  · rw [fitGroup_eq, htrials, ← Quantifier.canBeAbsent_iff]
    cases q.canBeAbsent <;> simp [Step.goesOn]

/-- In the trial of the nested group, the group within it matches, a letter is left out and a token
is skipped; then the trial is taken back. -/
theorem fitGroup_of_unmatched_nested :
    ∃ m, Mask.ofSource "(d((d)d-x)?z)".toList = .ok m ∧
      ∃ h ∈ heads {} "56ax".toList m.tokens (.ofSelection 4 4), ∃ body q s,
        h.tokens[h.draft.tokenIndex]? = some (.group body q s) ∧ h.draft.pending = ['5'] ∧
          (h.draft.endCapture.openScope.trial (fit {} "56ax".toList body)).text = "56x".toList ∧
            (h.draft.fitGroup "56ax".toList (fit {} "56ax".toList body) q).draft.captures.getLast? =
                some .unmatched ∧
              (h.draft.fitGroup "56ax".toList (fit {} "56ax".toList body) q).draft =
                  { h.draft with
                    complete := false
                    captures := h.draft.captures ++ h.draft.endedRun ++ [.unmatched]
                    tokenIndex := h.draft.tokenIndex + 1
                    pending := [] } ∧
                h.draft.endedRun = [.run ['5']] ∧
                  (h.draft.fitGroup "56ax".toList (fit {} "56ax".toList body) q).goesOn = true := by
  obtain ⟨m, hm, hheads⟩ := Mask.exists_of_ofSource
    (show (Mask.ofSource "(d((d)d-x)?z)".toList).toOption.any (fun (m : Mask) =>
      (heads {} "56ax".toList m.tokens (.ofSelection 4 4)).any fun h =>
        h.tokens[h.draft.tokenIndex]?.any fun t => t.isGroup && decide (h.draft.pending = ['5'] ∧
          (h.draft.endCapture.openScope.trial (t.fitBody {} "56ax".toList)).text = "56x".toList ∧
            (h.draft.fitGroup "56ax".toList (t.fitBody {} "56ax".toList)
                t.quantifier).draft.captures.getLast? = some .unmatched ∧
              h.draft.endedRun = [.run ['5']] ∧ t.quantifier = .optional)) = true by decide +kernel)
  obtain ⟨h, hh, hat⟩ := List.any_eq_true.1 hheads
  obtain ⟨t, ht, hgroup⟩ := (Option.any_eq_true _ _).1 hat
  cases t with
  | leaf l q s => cases hgroup
  | group body q s =>
    obtain ⟨hpending, htrial, hslot, hrun, hq⟩ := of_decide_eq_true hgroup
    obtain ⟨hdraft, hgoes⟩ := fitGroup_of_unmatched {} "56ax".toList body q h.draft hslot
    exact ⟨m, hm, h, hh, body, q, s, ht, hpending, htrial, hslot, hdraft, hrun,
      hgoes.2 (.inl hq)⟩

/-! ## Attempts one after another -/

/-- Attempts are made from one draft on, each from where the one before ended, until one fails or
does not move on in the value. The list has what was captured in each that succeeded, and the last
draft is the one that the last attempt ended with. -/
inductive Attempts (attempt : Draft → Option (List Capture) × Draft) :
    Draft → List (List Capture) → Draft → Prop
  | fail {d after : Draft} (h : attempt d = (none, after)) : Attempts attempt d [] after
  | stay {d after : Draft} {entries : List Capture} (h : attempt d = (some entries, after))
      (hstays : after.valueIndex = d.valueIndex) : Attempts attempt d [entries] after
  | move {d after last : Draft} {entries : List Capture} {rounds : List (List Capture)}
      (h : attempt d = (some entries, after)) (hmoves : after.valueIndex ≠ d.valueIndex)
      (hmore : Attempts attempt after rounds last) : Attempts attempt d (entries :: rounds) last

section Attempting

variable {attempt attempt' : Draft → Option (List Capture) × Draft} {last last' : Draft}
  {rounds rounds' : List (List Capture)}

/-- Attempts from a draft come to one end only. -/
theorem Attempts.unique (h : Attempts attempt d rounds last)
    (h' : Attempts attempt d rounds' last') :
    rounds' = rounds ∧ last' = last := by
  induction h generalizing rounds' last' with
  | fail h =>
    cases h' with
    | fail h' =>
      cases h.symm.trans h'
      exact ⟨rfl, rfl⟩
    | stay h' => cases h.symm.trans h'
    | move h' => cases h.symm.trans h'
  | stay h hstays =>
    cases h' with
    | fail h' => cases h.symm.trans h'
    | stay h' =>
      cases h.symm.trans h'
      exact ⟨rfl, rfl⟩
    | move h' hmoves' =>
      cases h.symm.trans h'
      exact absurd hstays hmoves'
  | move h hmoves hmore ih =>
    cases h' with
    | fail h' => cases h.symm.trans h'
    | stay h' hstays' =>
      cases h.symm.trans h'
      exact absurd hstays' hmoves
    | move h' hmoves' hmore' =>
      cases h.symm.trans h'
      obtain ⟨rfl, rfl⟩ := ih hmore'
      exact ⟨rfl, rfl⟩

/-- Another way to make attempts comes to the same where the two agree and one leads on to where
they agree again. -/
theorem Attempts.congr {P : Draft → Prop} (h : Attempts attempt d rounds last) (hd : P d)
    (hsame : ∀ e, P e → attempt' e = attempt e)
    (hleads : ∀ e after entries, P e → attempt e = (some entries, after) → P after) :
    Attempts attempt' d rounds last := by
  induction h with
  | fail h => exact .fail ((hsame _ hd).trans h)
  | stay h hstays => exact .stay ((hsame _ hd).trans h) hstays
  | move h hmoves hmore ih => exact .move ((hsame _ hd).trans h) hmoves (ih (hleads _ _ _ hd h))

end Attempting

/-! ## Captures that are carried along -/

/-- The draft without its captures. -/
def bare (d : Draft) : Draft := { d with captures := [] }

/-- The captures of a trial are those that were there, and those of the same trial without them. -/
theorem trial_eq_withEarlier (o : Options) (value : List Char) (body : List Token) (d : Draft) :
    d.trial (fit o value body) = (d.bare.trial (fit o value body)).withEarlier d.captures := by
  have hrewind : d.rewind = d.bare.rewind.withEarlier d.captures := by
    simp [rewind, bare, withEarlier]
  rw [trial, hrewind, fit_withEarlier]
  rfl

/-- An attempt fails exactly if the trial does, with or without the captures that are there. -/
theorem tryOnce_bare_fail (h : (d.trial (fit o value body)).complete = false) :
    d.bare.tryOnce (fit o value body) =
      (none, (d.bare.trial (fit o value body)).revertTo d.bare) := by
  rw [trial_eq_withEarlier] at h
  exact tryOnce_fail h

/-- An attempt that succeeds hands over what it captured, and ends where the trial does. -/
theorem tryOnce_bare_pass (h : (d.trial (fit o value body)).complete = true) :
    d.bare.tryOnce (fit o value body) =
      (some (d.bare.trial (fit o value body)).captures, (d.trial (fit o value body)).bare) := by
  have hsame := trial_eq_withEarlier o value body d
  rw [hsame] at h
  rw [tryOnce_pass h, hsame]
  rfl

/-- Trials that share their captures come to what some attempts come to, one after another. -/
theorem exists_attempts (o : Options) (value : List Char) (body : List Token) (matched : Bool)
    (d : Draft) :
    ∃ rounds last, Attempts (fun e => e.tryOnce (fit o value body)) d.bare rounds last ∧
      (tryRepeatedly value (fit o value body) matched d).2.sheet = last.sheet ∧
        (tryRepeatedly value (fit o value body) matched d).2.valueIndex = last.valueIndex ∧
          (tryRepeatedly value (fit o value body) matched d).1 =
            if matched = true ∨ rounds ≠ [] then some (d.captures ++ rounds.flatten) else none := by
  induction matched, d using trialInduction value (fit o value body) with
  | hfail matched d hfails =>
    rw [tryRepeatedly_fail hfails]
    exact ⟨[], _, .fail (tryOnce_bare_fail hfails), rfl, rfl, by simp⟩
  | hmore matched d hpasses hadvances ih =>
    obtain ⟨rounds, last, hattempts, hsheet, hindex, hcaptures⟩ := ih
    rw [tryRepeatedly_more hpasses hadvances]
    -- the trial adds to the captures so far what it captures by itself, which is one more round
    refine ⟨(d.bare.trial (fit o value body)).captures :: rounds, last,
      .move (tryOnce_bare_pass hpasses) ((trial_advances_iff d body).1 hadvances) hattempts,
      hsheet, hindex, ?_⟩
    rw [hcaptures, trial_eq_withEarlier o value body d]
    simp [withEarlier]
  | hlast matched d hpasses hstays =>
    rw [tryRepeatedly_last hpasses hstays]
    refine ⟨[(d.bare.trial (fit o value body)).captures], _,
      .stay (tryOnce_bare_pass hpasses) ?_, rfl, rfl, ?_⟩
    · exact not_not.1 (mt (trial_advances_iff d body).2 hstays)
    · rw [trial_eq_withEarlier o value body d]
      simp [withEarlier]

/-! ## A scope of its own for each attempt -/

/-- A draft as a scope opens with: with nothing captured, nothing skipped and no match. -/
structure Opened (d : Draft) : Prop extends d.Clean where
  captures : d.captures = []
  pending : d.pending = []

/-- A draft that has ended a capture and opened a scope is as a scope opens. -/
theorem opened_endCapture_openScope (d : Draft) : d.endCapture.openScope.Opened :=
  ⟨⟨rfl, rfl⟩, rfl, endCapture_pending d⟩

/-- A scope that is opened there once more changes nothing. -/
theorem Opened.eq (h : d.Opened) : d.endCapture.openScope = d := by
  have hends : d.endCapture = d := if_pos (List.isEmpty_iff.2 h.pending)
  rw [hends, openScope, ← h.captures, ← h.skipped, ← h.repeats]

/-- An attempt that succeeds leaves the draft as a scope opens with. -/
theorem Opened.tryOnce {entries : List Capture} (h : d.Opened)
    (hattempt : d.tryOnce (fit o value body) = (some entries, d')) : d'.Opened := by
  cases hcomplete : (d.trial (fit o value body)).complete with
  | false =>
    rw [tryOnce_fail hcomplete] at hattempt
    cases hattempt
  | true =>
    rw [tryOnce_pass hcomplete] at hattempt
    cases hattempt
    obtain ⟨⟨hskipped, hrepeats⟩, -⟩ := satisfies_fit o value body d h.toClean hcomplete
    exact ⟨⟨hskipped, hrepeats⟩, rfl, fit_pending o value body d.rewind⟩

/-- What trials come to is what some attempts come to. -/
structure ComesTo (rounds : List (List Capture)) (last : Draft)
    (r : Option (List Capture) × Draft) : Prop where
  text : r.2.text = last.text
  length : r.2.length = last.length
  valueIndex : r.2.valueIndex = last.valueIndex
  selection : r.2.selection = last.selection
  captures : r.1 = if rounds = [] then none else some rounds.flatten

/-- The trials of a group that repeats come to what single attempts come to that are made one after
another, from where the group opens its scope: these have one end only, which is the same where each
of them has a scope of its own. -/
theorem tryRepeatedly_eq_attempts (o : Options) (value : List Char) (body : List Token)
    (outer : Draft) :
    ∃ rounds last,
      (∀ rounds' last', Attempts (fun d => d.tryOnce (fit o value body)) outer.endCapture.openScope
          rounds' last' ↔ rounds' = rounds ∧ last' = last) ∧
        (∀ rounds' last', Attempts (fun d => d.endCapture.openScope.tryOnce (fit o value body))
            outer.endCapture.openScope rounds' last' ↔ rounds' = rounds ∧ last' = last) ∧
          ComesTo rounds last
            (tryRepeatedly value (fit o value body) false outer.endCapture.openScope) := by
  obtain ⟨rounds, last, hattempts, hsheet, hindex, hcaptures⟩ :=
    exists_attempts o value body false outer.endCapture.openScope
  have hbare : outer.endCapture.openScope.bare = outer.endCapture.openScope := rfl
  rw [hbare] at hattempts
  have hscopes : Attempts (fun d => d.endCapture.openScope.tryOnce (fit o value body))
      outer.endCapture.openScope rounds last :=
    hattempts.congr (opened_endCapture_openScope outer)
      (fun d hd => congrArg (fun e => e.tryOnce (fit o value body)) hd.eq)
      (fun d after entries hd hattempt => hd.tryOnce hattempt)
  refine ⟨rounds, last, fun rounds' last' => ⟨hattempts.unique, ?_⟩,
    fun rounds' last' => ⟨hscopes.unique, ?_⟩, ?_⟩
  · rintro ⟨rfl, rfl⟩
    exact hattempts
  · rintro ⟨rfl, rfl⟩
    exact hscopes
  · refine ⟨congrArg Sheet.text hsheet, congrArg Sheet.length hsheet, hindex,
      congrArg Sheet.selection hsheet, ?_⟩
    rw [hcaptures]
    by_cases hnone : rounds = [] <;> simp [hnone, openScope]

end Draft

end InputMask

import InputMask.Proofs.Fitting.Demands

/-!
# A fitting comes to an end

`Fits`, `Walks`, `Steps` and `Tries` say what a fitting comes to where it comes to an end, and count
the steps and the trials on the way; nothing limits either beforehand. Another trial of a body
follows every success after which the place in the value is another one, and no other condition is
asked of it.

Every fitting does come to an end, and to the one that `fit` gives (`fits_iff`). A step moves on in
the pattern or in the value and never back (`step_advances`, `step_valueIndex_le`), which bounds the
steps at each level (`Walks.length_le`); a trial that moves on in the value stays within it
(`fit_valueIndex_of_lt`), which bounds the trials of a body (`Tries.length_le`).
-/

set_option autoImplicit false

namespace InputMask

namespace Draft

/-- The end of a step at a group whose trials have come to a result. -/
def conclude (d : Draft) (q : Quantifier) (r : Option (List Capture) × Draft) : Step :=
  if r.1.isSome ∨ q.canBeAbsent then .goOn (r.2.closeScope d.endCapture r.1)
  else .stop (r.2.closeScope d.endCapture r.1)

mutual

/-- A fitting of some tokens from one draft ends with another. -/
inductive Fits (o : Options) (value : List Char) : List Token → Draft → Draft → Prop
  | settle {tokens : List Token} {d : Draft} {n : Nat} {r : Step}
      (h : Walks o value tokens d.enter n r) : Fits o value tokens d (settled tokens r)

/-- Stepping through some tokens from a draft ends after a number of steps. -/
inductive Walks (o : Options) (value : List Char) : List Token → Draft → Nat → Step → Prop
  | finish {tokens : List Token} {d : Draft} (ht : tokens[d.tokenIndex]? = none) :
      Walks o value tokens d 0 (.goOn d)
  | stop {tokens : List Token} {d d' : Draft} {t : Token} (ht : tokens[d.tokenIndex]? = some t)
      (hstep : Steps o value tokens t d (.stop d')) : Walks o value tokens d 1 (.stop d')
  | goOn {tokens : List Token} {d d' : Draft} {t : Token} {n : Nat} {r : Step}
      (ht : tokens[d.tokenIndex]? = some t) (hstep : Steps o value tokens t d (.goOn d'))
      (h : Walks o value tokens d' n r) : Walks o value tokens d (n + 1) r

/-- A step at a token comes to an end. -/
inductive Steps (o : Options) (value : List Char) : List Token → Token → Draft → Step → Prop
  | leaf {tokens : List Token} {l : Leaf} {q : Quantifier} {s : Span} {d : Draft} :
      Steps o value tokens (.leaf l q s) d (d.step o value tokens id (.leaf l q s))
  | rejected {tokens body : List Token} {q : Quantifier} {s : Span} {d : Draft}
      (h : d.rejects o tokens value[d.valueIndex]? = true) :
      Steps o value tokens (.group body q s) d (d.step o value tokens id (.group body q s))
  | once {tokens body : List Token} {q : Quantifier} {s : Span} {d after : Draft}
      (hfree : d.rejects o tokens value[d.valueIndex]? = false) (hq : q.repeats = false)
      (h : Fits o value body d.endCapture.openScope.rewind after) :
      Steps o value tokens (.group body q s) d
        (d.conclude q (d.endCapture.openScope.tryOnce fun _ => after))
  | often {tokens body : List Token} {q : Quantifier} {s : Span} {d : Draft} {n : Nat}
      {r : Option (List Capture) × Draft}
      (hfree : d.rejects o tokens value[d.valueIndex]? = false) (hq : q.repeats = true)
      (h : Tries o value body false d.endCapture.openScope n r) :
      Steps o value tokens (.group body q s) d (d.conclude q r)

/-- Repeated trials of a body from a draft end after a number of trials; the flag says whether there
was a success already. -/
inductive Tries (o : Options) (value : List Char) :
    List Token → Bool → Draft → Nat → Option (List Capture) × Draft → Prop
  | fail {body : List Token} {matched : Bool} {d after : Draft}
      (h : Fits o value body d.rewind after) (hfails : after.complete = false) :
      Tries o value body matched d 1
        (if matched then some d.captures else none, after.revertTo d)
  | last {body : List Token} {matched : Bool} {d after : Draft}
      (h : Fits o value body d.rewind after) (hpasses : after.complete = true)
      (hstays : after.valueIndex = d.valueIndex) :
      Tries o value body matched d 1 (some after.captures, after.revertTo after)
  | more {body : List Token} {matched : Bool} {d after : Draft} {n : Nat}
      {r : Option (List Capture) × Draft} (h : Fits o value body d.rewind after)
      (hpasses : after.complete = true) (hmoves : after.valueIndex ≠ d.valueIndex)
      (hmore : Tries o value body true after n r) : Tries o value body matched d (n + 1) r

end

variable {d d' : Draft} {o : Options} {value : List Char} {tokens body : List Token} {t : Token}
  {q : Quantifier} {matched : Bool} {n : Nat}

/-! ## The place in the value -/

/-- A fitting does not move back in the value. -/
theorem fit_valueIndex_ge (o : Options) (value : List Char) (tokens : List Token) (d : Draft) :
    d.valueIndex ≤ (fit o value tokens d).valueIndex := by
  obtain ⟨es, hcourse, -⟩ := fit_retraces o value tokens d
  exact hcourse.indices.1

/-- A fitting that moves on in the value stays within it, wherever it started. -/
theorem fit_valueIndex_of_lt (h : d.valueIndex < (fit o value tokens d).valueIndex) :
    (fit o value tokens d).valueIndex ≤ value.length := by
  obtain ⟨es, hcourse, -⟩ := fit_retraces o value tokens d
  exact hcourse.le_length_of_lt h

/-- The trials of a body go on exactly as long as they move on in the value. -/
theorem trial_advances_iff (d : Draft) (body : List Token) :
    (d.valueIndex < (d.trial (fit o value body)).valueIndex ∧
        (d.trial (fit o value body)).valueIndex ≤ value.length) ↔
      (d.trial (fit o value body)).valueIndex ≠ d.valueIndex := by
  have hge : d.valueIndex ≤ (d.trial (fit o value body)).valueIndex :=
    fit_valueIndex_ge o value body d.rewind
  have hwithin : d.valueIndex < (d.trial (fit o value body)).valueIndex →
      (d.trial (fit o value body)).valueIndex ≤ value.length :=
    fit_valueIndex_of_lt (d := d.rewind)
  omega

/-! ## Every fitting ends -/

/-- A step at a group concludes the trials that are made in a scope of their own. -/
theorem fitGroup_eq_conclude (fitBody : Draft → Draft) (d : Draft) (q : Quantifier) :
    d.fitGroup value fitBody q =
      d.conclude q (d.endCapture.openScope.trials value fitBody q) := rfl

/-- Trials end, if every fitting of the body does. -/
theorem exists_tries (hbody : ∀ d, Fits o value body d (fit o value body d)) (matched : Bool)
    (d : Draft) :
    ∃ n, Tries o value body matched d n (tryRepeatedly value (fit o value body) matched d) := by
  induction matched, d using trialInduction value (fit o value body) with
  | hfail matched d hcomplete =>
    rw [tryRepeatedly_fail hcomplete]
    exact ⟨1, .fail (hbody d.rewind) hcomplete⟩
  | hmore matched d hcomplete hadvances ih =>
    obtain ⟨n, hn⟩ := ih
    rw [tryRepeatedly_more hcomplete hadvances]
    exact ⟨n + 1, .more (hbody d.rewind) hcomplete ((trial_advances_iff d body).1 hadvances) hn⟩
  | hlast matched d hcomplete hstays =>
    rw [tryRepeatedly_last hcomplete hstays]
    have hsame : (d.trial (fit o value body)).valueIndex = d.valueIndex :=
      not_ne_iff.1 fun hmoves => hstays ((trial_advances_iff d body).2 hmoves)
    exact ⟨1, .last (hbody d.rewind) hcomplete hsame⟩

/-- A step at a token ends, if every fitting of its body does. -/
theorem steps_step (tokens : List Token) (d : Draft)
    (hbody : ∀ body q s, t = .group body q s → ∀ e, Fits o value body e (fit o value body e)) :
    Steps o value tokens t d (d.step o value tokens (Token.fitBody o value t) t) := by
  cases t with
  | leaf l q s => exact .leaf
  | group body q s =>
    cases hfree : d.rejects o tokens value[d.valueIndex]? with
    | true =>
      have hsame :
          d.step o value tokens (Token.fitBody o value (.group body q s)) (.group body q s) =
          d.step o value tokens id (.group body q s) :=
        (step_rejected hfree).trans (step_rejected hfree).symm
      rw [hsame]
      exact .rejected hfree
    | false =>
      rw [step_group hfree, fitGroup_eq_conclude, trials]
      cases hq : q.repeats with
      | true =>
        obtain ⟨n, hn⟩ := exists_tries (hbody body q s rfl) false d.endCapture.openScope
        exact .often hfree hq hn
      | false => exact .once hfree hq (hbody body q s rfl _)

/-- Stepping through tokens ends, if every fitting of a group's body does. -/
theorem exists_walks
    (hbody : ∀ body q s, Token.group body q s ∈ tokens →
      ∀ e, Fits o value body e (fit o value body e)) (d : Draft) :
    ∃ n, Walks o value tokens d n (walk o value tokens (fitBodies o value tokens) d) := by
  have hstep : ∀ (d : Draft) (t : Token), tokens[d.tokenIndex]? = some t →
      Steps o value tokens t d (d.step o value tokens (Token.fitBody o value t) t) := by
    intro d t ht
    refine steps_step tokens d fun body q s hgroup => hbody body q s ?_
    exact List.mem_of_getElem? (hgroup ▸ ht)
  induction d using stepInduction o value tokens with
  | hend d ht =>
    rw [walk_none ht]
    exact ⟨0, .finish ht⟩
  | hstop d t d' ht hd' =>
    rw [walk_stop ht hd']
    exact ⟨1, .stop ht (hd' ▸ hstep d t ht)⟩
  | hgo d t d' ht hd' ih =>
    obtain ⟨n, hn⟩ := ih
    rw [walk_goOn ht hd']
    exact ⟨n + 1, .goOn ht (hd' ▸ hstep d t ht) hn⟩

/-- Every fitting ends, from any draft. -/
theorem fits_fit (o : Options) (value : List Char) (tokens : List Token) (d : Draft) :
    Fits o value tokens d (fit o value tokens d) := by
  induction tokens using Token.groupInduction generalizing d with
  | h tokens ih =>
    obtain ⟨n, hn⟩ := exists_walks ih d.enter
    exact .settle hn

/-! ## There is one end only -/

/-- Repeated trials that come to an end come to what the function gives, if the fittings of the body
do. -/
theorem Tries.eq_tryRepeatedly {r : Option (List Capture) × Draft}
    (hbody : ∀ d d', Fits o value body d d' → d' = fit o value body d)
    (h : Tries o value body matched d n r) :
    r = tryRepeatedly value (fit o value body) matched d := by
  induction n generalizing matched d with
  | zero => cases h
  | succ n ih =>
    cases h with
    | fail h hfails =>
      obtain rfl := hbody _ _ h
      exact (tryRepeatedly_fail hfails).symm
    | last h hpasses hstays =>
      obtain rfl := hbody _ _ h
      exact (tryRepeatedly_last hpasses fun hadvances =>
        (trial_advances_iff d body).1 hadvances hstays).symm
    | more h hpasses hmoves hmore =>
      obtain rfl := hbody _ _ h
      exact (ih hmore).trans
        (tryRepeatedly_more hpasses ((trial_advances_iff d body).2 hmoves)).symm

/-- A step that comes to an end comes to what the function gives, if the fittings of a body do. -/
theorem Steps.eq_step {r : Step}
    (hbody : ∀ body q s, t = .group body q s → ∀ d d', Fits o value body d d' →
      d' = fit o value body d)
    (h : Steps o value tokens t d r) : r = d.step o value tokens (Token.fitBody o value t) t := by
  cases h with
  | leaf => rfl
  | rejected h => rw [step_rejected h, step_rejected h]
  | once hfree hq h =>
    obtain rfl := hbody _ _ _ rfl _ _ h
    rw [step_group hfree, fitGroup_eq_conclude, trials, if_neg (Bool.eq_false_iff.1 hq)]
    rfl
  | often hfree hq h =>
    rw [step_group hfree, fitGroup_eq_conclude, trials, if_pos hq,
      h.eq_tryRepeatedly (hbody _ _ _ rfl)]
    rfl

/-- Stepping that comes to an end comes to what the function gives, if the fittings of the bodies
do. -/
theorem Walks.eq_walk {r : Step}
    (hbody : ∀ body q s, Token.group body q s ∈ tokens → ∀ d d', Fits o value body d d' →
      d' = fit o value body d)
    (h : Walks o value tokens d n r) : r = walk o value tokens (fitBodies o value tokens) d := by
  have heq : ∀ {d : Draft} {t : Token} {r : Step}, tokens[d.tokenIndex]? = some t →
      Steps o value tokens t d r → d.step o value tokens (Token.fitBody o value t) t = r := by
    intro d t r ht hstep
    refine (hstep.eq_step fun body q s hgroup => hbody body q s ?_).symm
    exact List.mem_of_getElem? (hgroup ▸ ht)
  induction n generalizing d with
  | zero =>
    cases h with
    | finish ht => exact (walk_none ht).symm
  | succ n ih =>
    cases h with
    | stop ht hstep => exact (walk_stop ht (heq ht hstep)).symm
    | goOn ht hstep h =>
      rw [walk_goOn ht (heq ht hstep)]
      exact ih h

/-- A fitting ends with one draft only, the one that is given by `fit`. -/
theorem fits_iff : Fits o value tokens d d' ↔ d' = fit o value tokens d := by
  constructor
  · intro h
    induction tokens using Token.groupInduction generalizing d d' with
    | h tokens ih =>
      cases h with
      | settle h =>
        obtain rfl := h.eq_walk fun body q s hmem d d' => ih body q s hmem
        rfl
  · rintro rfl
    exact fits_fit o value tokens d

/-! ## How many steps and trials there are -/

/-- There are no more steps than tokens and characters are left. -/
theorem Walks.length_le {r : Step} (h : Walks o value tokens d n r) :
    n ≤ (tokens.length - d.tokenIndex) + (value.length - d.valueIndex) := by
  induction n generalizing d with
  | zero => exact Nat.zero_le _
  | succ n ih =>
    cases h with
    | stop ht hstep =>
      have hlt := (List.getElem?_eq_some_iff.1 ht).1
      omega
    | @goOn _ _ d' t _ _ ht hstep h =>
      have hlt := (List.getElem?_eq_some_iff.1 ht).1
      have hstep' : d.step o value tokens (Token.fitBody o value t) t = .goOn d' :=
        (hstep.eq_step fun body q s _ d d' => fits_iff.1).symm
      have hback : d.valueIndex ≤ d'.valueIndex := by
        have hle := step_valueIndex_le o value tokens t d
        rwa [hstep'] at hle
      have hrest := ih h
      rcases step_advances hstep' with htoken | ⟨htoken, hvalue, hmore⟩
      · omega
      · omega

/-- There are no more trials of a body than characters are left, and one. -/
theorem Tries.length_le {r : Option (List Capture) × Draft} (h : Tries o value body matched d n r) :
    n ≤ value.length - d.valueIndex + 1 := by
  induction n generalizing matched d with
  | zero => exact Nat.zero_le _
  | succ n ih =>
    cases h with
    | fail h hfails => omega
    | last h hpasses hstays => omega
    | more h hpasses hmoves hmore =>
      obtain rfl := fits_iff.1 h
      obtain ⟨hlt, hle⟩ := (trial_advances_iff d body).2 hmoves
      have hrest := ih hmore
      have hrest' : n ≤ value.length - (d.trial (fit o value body)).valueIndex + 1 := hrest
      omega

/-- Every fitting ends, from any draft and with the draft that `fit` gives; the steps at each level,
and the trials of each body, are no more than the tokens and characters that are left where they
begin. -/
theorem fitting_terminates (o : Options) (value : List Char) :
    (∀ tokens d d', Fits o value tokens d d' ↔ d' = fit o value tokens d) ∧
      (∀ tokens d, (∃ n r, Walks o value tokens d n r) ∧ ∀ n r, Walks o value tokens d n r →
        n ≤ (tokens.length - d.tokenIndex) + (value.length - d.valueIndex)) ∧
        ∀ body matched d, (∃ n r, Tries o value body matched d n r) ∧
          ∀ n r, Tries o value body matched d n r → n ≤ value.length - d.valueIndex + 1 := by
  refine ⟨fun tokens d d' => fits_iff, fun tokens d => ⟨?_, fun n r h => h.length_le⟩,
    fun body matched d => ⟨?_, fun n r h => h.length_le⟩⟩
  · obtain ⟨n, hn⟩ := exists_walks (fun body q s _ => fits_fit o value body) d
    exact ⟨n, _, hn⟩
  · obtain ⟨n, hn⟩ := exists_tries (fits_fit o value body) matched d
    exact ⟨n, _, hn⟩

end Draft

end InputMask

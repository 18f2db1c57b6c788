import InputMask.Proofs.Pattern.Greedy
import InputMask.Proofs.Fitting.Replay

/-!
# What a fitting has to read

A pattern is not satisfied without a character for each of its leaves that has to read one.
`Draft.demands` lists those leaves that have yet to do so; a step takes one off the list only by
reading a character for it (`Draft.demands_step`), and at the end the list is empty
(`Draft.meets_fit`). So tokens that a text bars are not satisfied with it
(`Draft.not_complete_of_bars`).
-/

set_option autoImplicit false

namespace InputMask

namespace Draft

variable {d d₀ d' : Draft} {o : Options} {value : List Char} {tokens : List Token} {t : Token}
  {l : Leaf} {q : Quantifier} {s : Span}

/-! ## The place in the value -/

/-- A fitting does not read beyond the end of the value. -/
theorem fit_valueIndex_le_length (o : Options) (tokens : List Token)
    (h : d.valueIndex ≤ value.length) : (fit o value tokens d).valueIndex ≤ value.length := by
  obtain ⟨es, hcourse, -⟩ := fit_retraces o value tokens d
  exact hcourse.le_length h

/-- Repeated trials do not go back in the value. -/
theorem trials_valueIndex_le (body : List Token) (matched : Bool) (d : Draft) :
    d.valueIndex ≤ (tryRepeatedly value (fit o value body) matched d).2.valueIndex := by
  obtain ⟨es, captured, e, hcourse, hreplay⟩ :=
    tryRepeatedly_retraced (fit_retraces o value body) matched d
  have hself : tryRepeatedly value (fit o value body) matched d =
      (captured, e.on (replay value es d.sheet)) := hreplay d.sheet
  rw [hself]
  exact hcourse.indices.1

/-- A step does not go back in the value. -/
theorem step_valueIndex_le (o : Options) (value : List Char) (tokens : List Token) (t : Token)
    (d : Draft) :
    d.valueIndex ≤ (d.step o value tokens (Token.fitBody o value t) t).draft.valueIndex := by
  have hbody : t.isGroup = true → Retraces o value t.leaves (Token.fitBody o value t) := by
    intro hgroup
    cases t with
    | leaf l q s => cases hgroup
    | group body q s => exact fit_retraces o value body
  obtain ⟨es, r, hcourse, hreplay⟩ :=
    @step_retraced d o value tokens t.leaves t (Token.fitBody o value t) (List.Subset.refl _) hbody
  have hself : d.step o value tokens (Token.fitBody o value t) t =
      r.on (replay value es d.sheet) := hreplay d.sheet
  rw [hself]
  cases r with
  | goOn e => exact hcourse.indices.1
  | stop e => exact hcourse.indices.1

/-- Stepping through tokens does not go back in the value. -/
theorem walk_valueIndex_le (o : Options) (value : List Char) (tokens : List Token) (d : Draft) :
    d.valueIndex ≤ (walk o value tokens (fitBodies o value tokens) d).draft.valueIndex := by
  refine walk_induction (I := fun e => d.valueIndex ≤ e.valueIndex)
    (J := fun r => d.valueIndex ≤ r.draft.valueIndex) ?_ ?_ ?_ le_rfl
  · intro e t e' he ht hgo
    have hle := step_valueIndex_le o value tokens t e
    rw [hgo] at hle
    exact he.trans hle
  · intro e t e' he ht hstop
    have hle := step_valueIndex_le o value tokens t e
    rw [hstop] at hle
    exact he.trans hle
  · intro e he ht
    exact he

/-! ## What a body has to read -/

/-- Whether a part of the value has a character that a leaf accepts. -/
def Meets (value : List Char) (l : Leaf) (v v' : Nat) : Prop :=
  ∃ i c, v ≤ i ∧ i < v' ∧ value[i]? = some c ∧ l.accepts c = true

/-- What is met in a part of the value is met in a larger part. -/
theorem Meets.mono {u v v' u' : Nat} (h : Meets value l v v') (hu : u ≤ v) (hu' : v' ≤ u') :
    Meets value l u u' := by
  obtain ⟨i, c, hle, hlt, hc⟩ := h
  exact ⟨i, c, hu.trans hle, hlt.trans_le hu', hc⟩

/-- A way to fit that reads a character for each of some leaves, where a trial succeeds. -/
def MeetsAll (value : List Char) (leaves : List Leaf) (fitBody : Draft → Draft) : Prop :=
  ∀ d : Draft, d.Clean → (d.trial fitBody).complete = true →
    ∀ l ∈ leaves, Meets value l d.valueIndex (d.trial fitBody).valueIndex

/-- Only a leaf that repeats has matches without having been passed. -/
def Counts (tokens : List Token) (d : Draft) : Prop :=
  d.repeats = 0 ∨ ∃ l q s, tokens[d.tokenIndex]? = some (.leaf l q s) ∧ q.repeats = true

/-- At a token that does not repeat, nothing is counted. -/
theorem Counts.repeats_eq_zero (h : Counts tokens d) (ht : tokens[d.tokenIndex]? = some t)
    (hquiet : t.isGroup = true ∨ t.quantifier.repeats = false) : d.repeats = 0 := by
  obtain hzero | ⟨l, q, s, ht', hq⟩ := h
  · exact hzero
  · rw [ht] at ht'
    cases ht'
    obtain hgroup | hrepeats := hquiet
    · cases hgroup
    · rw [Token.quantifier, hq] at hrepeats
      cases hrepeats

/-- Where the tokens have run out, there are no matches any more. -/
theorem Counts.repeats_of_none (h : Counts tokens d) (ht : tokens[d.tokenIndex]? = none) :
    d.repeats = 0 := by
  obtain hzero | ⟨l, q, s, ht', -⟩ := h
  · exact hzero
  · rw [ht] at ht'
    cases ht'

/-- After a match, only matches of a leaf that repeats are counted. -/
theorem Counts.afterMatch {c : Char} (h : Counts tokens d)
    (ht : tokens[d.tokenIndex]? = some (.leaf l q s)) :
    Counts tokens ((d.take c l).passChar.afterMatch q) := by
  cases hq : q.repeats with
  | true =>
    refine .inr ⟨l, q, s, ?_, hq⟩
    simpa [Draft.afterMatch, hq, passChar] using ht
  | false =>
    left
    simpa [Draft.afterMatch, hq, passChar, passToken] using h.repeats_eq_zero ht (.inr hq)

/-- A leaf that was left has no matches any more. -/
theorem Counts.repeats_leave (h : Counts tokens d)
    (ht : tokens[d.tokenIndex]? = some (.leaf l q s)) : (d.leave q).repeats = 0 := by
  unfold Draft.leave
  cases hq : q.repeats with
  | true => rfl
  | false => exact h.repeats_eq_zero ht (.inr hq)

/-- A step that goes on keeps the count of matches to the token. -/
theorem Counts.goOn (h : Counts tokens d) (ht : tokens[d.tokenIndex]? = some t)
    (hstep : d.step o value tokens (Token.fitBody o value t) t = .goOn d') : Counts tokens d' := by
  have hturn : Turn o value tokens (Token.fitBody o value t) d t _ := step_turn t
  rw [hstep] at hturn
  generalize hr : Step.goOn d' = r at hturn
  cases hturn with
  | discard =>
    cases hr
    simpa [Counts] using h
  | take =>
    cases hr
    exact h.afterMatch ht
  | fill =>
    cases hr
    exact .inl ((fill_repeats _ _).trans (h.repeats_eq_zero ht (.inr rfl)))
  | skip ho hnext hindex hq =>
    cases hr
    exact .inl (h.repeats_eq_zero ht (.inr hq))
  | leave =>
    cases hr
    exact .inl (h.repeats_leave ht)
  | stop => cases hr
  | trial =>
    obtain ⟨-, rfl⟩ := fitGroup_goOn hr.symm
    exact .inl (endCapture_repeats.trans (h.repeats_eq_zero ht (.inl rfl)))

/-- The leaves that have yet to read a character: those of a token that has a match count no
more. -/
def demands (tokens : List Token) (d : Draft) : List Leaf :=
  Token.demandsOf (tokens.drop (if d.repeats = 0 then d.tokenIndex else d.tokenIndex + 1))

/-- What has yet to be read is asked for by a current token without a match, or by those after
it. -/
theorem mem_demands (ht : tokens[d.tokenIndex]? = some t) (hl : l ∈ demands tokens d) :
    d.repeats = 0 ∧ l ∈ t.demands ∨ l ∈ Token.demandsOf (tokens.drop (d.tokenIndex + 1)) := by
  unfold demands at hl
  split at hl
  · next hzero =>
    rw [drop_eq_cons ht, Token.demandsOf] at hl
    exact (List.mem_append.1 hl).imp_left fun hl => ⟨hzero, hl⟩
  · exact .inr hl

/-- Where the first trial succeeds, the trials go on from where it ends. -/
theorem trial_le_trials {body : List Token}
    (hcomplete : (d.trial (fit o value body)).complete = true) (q : Quantifier) :
    (d.trial (fit o value body)).valueIndex ≤
      (d.trials value (fit o value body) q).2.valueIndex := by
  unfold trials
  split
  · by_cases hmore : d.valueIndex < (d.trial (fit o value body)).valueIndex ∧
      (d.trial (fit o value body)).valueIndex ≤ value.length
    · rw [tryRepeatedly_more hcomplete hmore]
      exact trials_valueIndex_le body true _
    · rw [tryRepeatedly_last hcomplete hmore]
      exact le_rfl
  · rw [tryOnce_pass hcomplete]

/-- A group that is needed reads what its body has to. -/
theorem meets_of_fitGroup {body : List Token}
    (hbody : MeetsAll value (Token.demandsOf body) (fit o value body))
    (hneeded : q.canBeAbsent = false) (hstep : d.fitGroup value (fit o value body) q = .goOn d') :
    ∀ l ∈ Token.demandsOf body, Meets value l d.valueIndex d'.valueIndex := by
  have hcomplete : (d.endCapture.openScope.trial (fit o value body)).complete = true := by
    rw [← Bool.not_eq_false]
    exact fun hfails => fitGroup_fails hneeded hfails hstep
  obtain ⟨-, rfl⟩ := fitGroup_goOn hstep
  intro l hl
  have hmeets := hbody d.endCapture.openScope ⟨rfl, rfl⟩ hcomplete l hl
  exact hmeets.mono (endCapture_valueIndex d).ge (trial_le_trials hcomplete q)

/-- Once a token is passed, what has yet to be read is what the tokens after it ask for. -/
theorem demands_of_passed (hindex : d'.tokenIndex = d.tokenIndex + 1) (hzero : d'.repeats = 0) :
    demands tokens d' = Token.demandsOf (tokens.drop (d.tokenIndex + 1)) := by
  rw [demands, if_pos hzero, hindex]

/-- A leaf that has taken a character asks for no more. -/
theorem demands_afterMatch {c : Char} (hcounts : Counts tokens d)
    (ht : tokens[d.tokenIndex]? = some (.leaf l q s)) :
    demands tokens ((d.take c l).passChar.afterMatch q) =
      Token.demandsOf (tokens.drop (d.tokenIndex + 1)) := by
  cases hq : q.repeats with
  | true => simp [demands, afterMatch, hq, passChar]
  | false =>
    have hzero : d.repeats = 0 := hcounts.repeats_eq_zero ht (.inr hq)
    refine demands_of_passed ?_ ?_
    · simp [afterMatch, hq, passChar, passToken]
    · simpa [afterMatch, hq, passChar, passToken] using hzero

/-- The only leaf that a leaf can ask for is itself. -/
theorem eq_of_mem_demands {k : Leaf} (hl : l ∈ (Token.leaf k q s).demands) : l = k := by
  rw [Token.demands] at hl
  split at hl
  · exact List.mem_singleton.1 hl
  · cases hl

/-- What a group asks for is what its body does, if the group is needed. -/
theorem mem_demands_group {body : List Token} :
    l ∈ (Token.group body q s).demands ↔ q.canBeAbsent = false ∧ l ∈ Token.demandsOf body := by
  rw [Token.demands]
  cases q.canBeAbsent <;> simp

/-- A leaf that may be left without a match does not have to read a character. -/
theorem not_mem_demands_of_mayEnd {k : Leaf} (hend : q.MayEnd 0) :
    l ∉ (Token.leaf k q s).demands := by
  have hinsists : k.insists q = false := by
    cases q <;> simp [Quantifier.MayEnd, Quantifier.canBeAbsent, Leaf.insists] at hend ⊢
  rw [Token.demands, hinsists]
  exact List.not_mem_nil

/-- What a leaf has yet to read, it reads in a step or after it. -/
theorem demands_step (hcounts : Counts tokens d) (ht : tokens[d.tokenIndex]? = some t)
    (hstep : d.step o value tokens (Token.fitBody o value t) t = .goOn d')
    (hclean : d'.skipped = false)
    (hbody : ∀ body q s, t = .group body q s →
      MeetsAll value (Token.demandsOf body) (fit o value body)) :
    ∀ l ∈ demands tokens d, l ∈ demands tokens d' ∨ Meets value l d.valueIndex d'.valueIndex := by
  intro l hl
  have hcases := mem_demands ht hl
  have hturn : Turn o value tokens (Token.fitBody o value t) d t _ := step_turn t
  rw [hstep] at hturn
  generalize hr : Step.goOn d' = r at hturn
  cases hturn with
  | discard =>
    cases hr
    left
    simpa [demands] using hl
  | @take k q s c hnext hk =>
    cases hr
    rw [demands_afterMatch hcounts ht]
    obtain ⟨-, hl⟩ | hl := hcases
    · obtain rfl := eq_of_mem_demands hl
      exact .inr ⟨d.valueIndex, c, le_rfl, by simp [passChar], hnext, hk⟩
    · exact .inl hl
  | @fill c s h =>
    cases hr
    have hzero : d.repeats = 0 := hcounts.repeats_eq_zero ht (.inr rfl)
    rw [demands_of_passed (fill_tokenIndex _ _) ((fill_repeats _ _).trans hzero)]
    obtain ⟨-, hl⟩ | hl := hcases
    · cases hl
    · exact .inl hl
  | skip =>
    -- tokens that are skipped may have had demands, but skipping is no success
    cases hr
    cases hclean
  | @leave k q s hend =>
    cases hr
    rw [demands_of_passed rfl (hcounts.repeats_leave ht)]
    obtain ⟨hrepeats, hl⟩ | hl := hcases
    · exact absurd hl (not_mem_demands_of_mayEnd (hrepeats ▸ hend))
    · exact .inl hl
  | stop => cases hr
  | @trial body q s =>
    have hpassed : d'.tokenIndex = d.tokenIndex + 1 ∧ d'.repeats = d.repeats := by
      obtain ⟨-, rfl⟩ := fitGroup_goOn hr.symm
      exact ⟨congrArg (· + 1) (endCapture_tokenIndex d), endCapture_repeats⟩
    have hzero : d.repeats = 0 := hcounts.repeats_eq_zero ht (.inl rfl)
    rw [demands_of_passed hpassed.1 (hpassed.2.trans hzero)]
    obtain ⟨-, hl⟩ | hl := hcases
    · obtain ⟨hneeded, hl⟩ := mem_demands_group.1 hl
      exact .inr (meets_of_fitGroup (hbody body q s rfl) hneeded hr.symm l hl)
    · exact .inl hl

/-- Where stepping to the end succeeds, every leaf that has yet to read a character does so. -/
theorem meets_of_succeeds (hcounts : Counts tokens d) (h : Succeeds o value tokens d)
    (hbody : ∀ body q s, Token.group body q s ∈ tokens →
      MeetsAll value (Token.demandsOf body) (fit o value body)) :
    ∀ l ∈ demands tokens d, Meets value l d.valueIndex
      (walk o value tokens (fitBodies o value tokens) d).draft.valueIndex := by
  induction h using Succeeds.induction with
  | hend d h ht =>
    intro l hl
    have hlength := List.getElem?_eq_none_iff.1 ht
    have hle : tokens.length ≤ if d.repeats = 0 then d.tokenIndex else d.tokenIndex + 1 := by
      split <;> omega
    rw [demands, List.drop_of_length_le hle] at hl
    cases hl
  | hgo d t d' h h' ht hstep ih =>
    have hclean := h'.not_skipped
    have hlater := ih (hcounts.goOn ht hstep)
    have hle : d.valueIndex ≤ d'.valueIndex := by
      have hstepIndex := step_valueIndex_le o value tokens t d
      rwa [hstep] at hstepIndex
    have hmem := List.mem_of_getElem? ht
    rw [walk_goOn ht hstep]
    intro l hl
    obtain hl | hmeets := demands_step hcounts ht hstep hclean
      (fun body q s hgroup => hbody body q s (hgroup ▸ hmem)) l hl
    · exact (hlater l hl).mono hle le_rfl
    · exact hmeets.mono le_rfl (walk_valueIndex_le o value tokens d')

/-- A fitting that succeeds has read a character for each leaf that has to read one. -/
theorem meets_fit (o : Options) (value : List Char) (tokens : List Token) :
    MeetsAll value (Token.demandsOf tokens) (fit o value tokens) := by
  induction tokens using Token.groupInduction with
  | h tokens ih =>
    intro d hclean hcomplete l hl
    have hsucceeds := fit_complete_iff_succeeds.1 hcomplete
    have hzero : d.repeats = 0 := hclean.repeats
    have hcounts : Counts tokens d.rewind.enter := .inl hzero
    have hl' : l ∈ demands tokens d.rewind.enter := by
      rw [demands, if_pos (show d.rewind.enter.repeats = 0 from hzero)]
      exact hl
    have hmeets := meets_of_succeeds hcounts hsucceeds ih l hl'
    rw [trial, fit_valueIndex]
    exact hmeets

/-- A fitting of tokens that are barred from what is left of the value fails. -/
theorem not_complete_of_bars (hclean : d.Clean)
    (hbars : Token.Bars tokens (value.drop d.valueIndex)) :
    (d.trial (fit o value tokens)).complete = false := by
  rw [← Bool.not_eq_true]
  intro hcomplete
  obtain ⟨l, hl, hnone⟩ := hbars
  obtain ⟨i, c, hle, -, hi, hc⟩ := meets_fit o value tokens d hclean hcomplete l hl
  have hmem : c ∈ value.drop d.valueIndex := by
    refine List.mem_of_getElem? (i := i - d.valueIndex) ?_
    rw [List.getElem?_drop, Nat.add_sub_cancel' hle, hi]
  rw [hnone c hmem] at hc
  cases hc

/-- Where a body has something to read, its fitting moves on in the value if it succeeds. -/
theorem advances_of_demands (hclean : d.Clean) (hl : l ∈ Token.demandsOf tokens)
    (hcomplete : (d.trial (fit o value tokens)).complete = true) :
    d.valueIndex < (d.trial (fit o value tokens)).valueIndex ∧
      (d.trial (fit o value tokens)).valueIndex ≤ value.length := by
  obtain ⟨i, c, hle, hlt, hi, -⟩ := meets_fit o value tokens d hclean hcomplete l hl
  have hlength : i < value.length := (List.getElem?_eq_some_iff.1 hi).1
  refine ⟨hle.trans_lt hlt, fit_valueIndex_le_length o tokens ?_⟩
  exact hle.trans hlength.le

end Draft

end InputMask

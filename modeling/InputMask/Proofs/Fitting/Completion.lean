import InputMask.Proofs.Fitting.Satisfaction
import InputMask.Proofs.Pattern.Leaves

/-!
# What was written can be completed

Every pattern has a text, and a token that has made some matches can make one more. So as long as no
token was skipped, what a fitting has written can be carried on to a text of the pattern
(`Draft.Aligned.completable`), also where the fitting stops: a step that stops leaves the text as it
found it, at a group too, because a group that fails takes back all that was written for it
(`Draft.fitGroup_stop_text`). Without lookahead no token is ever skipped, so this holds of every
outcome.
-/

set_option autoImplicit false

namespace InputMask

namespace Draft

variable {d d' : Draft} {o : Options} {value : List Char} {tokens : List Token}
  {before w : List Char}

/-! ## Completing what a draft has written -/

/-- Whether what was written after a text can be carried on to a text of some tokens. -/
def Completable (tokens : List Token) (before text : List Char) : Prop :=
  ∃ w ∈ Token.languageOf tokens, text <+: before ++ w

/-- What the current token has matched can be carried on to a text of the tokens from there on. -/
theorem HasMatched.exists_append_mem (h : HasMatched tokens d w) :
    ∃ r, w ++ r ∈ Token.languageOf (tokens.drop d.tokenIndex) := by
  obtain ⟨-, rfl⟩ | ⟨l, q, s, ht, hq, hw⟩ := h
  · exact Token.exists_mem_languageOf _
  · obtain ⟨c, hc⟩ := l.exists_accepts
    obtain ⟨r, hr⟩ := Token.exists_mem_languageOf (tokens.drop (d.tokenIndex + 1))
    -- one more match leaves the token with at least one
    have hmore : w ++ [c] ∈ l.language ^ (d.repeats + 1) := by
      rw [pow_succ]
      exact Language.append_mem_mul hw (Leaf.mem_language.2 ⟨c, hc, rfl⟩)
    refine ⟨[c] ++ r, ?_⟩
    rw [drop_eq_cons ht, ← List.append_assoc]
    exact Token.mem_languageOf_cons.2 ⟨w ++ [c],
      Quantifier.mem_language_of_mem_pow hq (Nat.succ_pos _) hmore, r, hr, rfl⟩

/-- A draft that has kept pace with some tokens has written what can be completed. -/
theorem Aligned.completable (h : Aligned tokens before d) (hskipped : d.skipped = false) :
    Completable tokens before d.text := by
  obtain ⟨u, hu, v, hv, htext⟩ := h hskipped
  obtain ⟨r, hr⟩ := hv.exists_append_mem
  refine ⟨u ++ (v ++ r), ?_, ?_⟩
  · rw [← List.take_append_drop d.tokenIndex tokens, Token.languageOf_append]
    exact Language.append_mem_mul hu hr
  · rw [htext]
    exact ⟨r, by simp only [List.append_assoc]⟩

/-! ## Steps without lookahead -/

/-- Without lookahead, a step that goes on skips no token. -/
theorem step_not_skipped {t : Token} (ho : o.lookahead = false) (hskipped : d.skipped = false)
    (hstep : d.step o value tokens (Token.fitBody o value t) t = .goOn d') :
    d'.skipped = false := by
  obtain hsame | ⟨ho', -⟩ := step_skipped_eq hstep
  · exact hsame.trans hskipped
  · rw [ho] at ho'
    cases ho'

/-- A group that stops the fitting has written nothing. -/
theorem fitGroup_stop_text {L : Language Char} {fitBody : Draft → Draft} {q : Quantifier}
    (hbody : Satisfies L fitBody) (hstep : d.fitGroup value fitBody q = .stop d') :
    d'.text = d.text := by
  obtain ⟨hnone, -, rfl⟩ := fitGroup_stop hstep
  obtain ⟨w, htext, hw⟩ : Written _ _ _ (d.endCapture.openScope.trials value fitBody q).2 :=
    trials_written hbody ⟨rfl, rfl⟩ q
  obtain rfl : w = [] := by simpa [hnone] using hw
  rw [List.append_nil] at htext
  exact htext.trans endCapture_text

/-- A step that stops leaves the text as it was. -/
theorem step_stop_text {t : Token}
    (hstep : d.step o value tokens (Token.fitBody o value t) t = .stop d') : d'.text = d.text := by
  obtain rfl | ⟨body, q, s, rfl, hgroup⟩ := step_stop hstep
  · rfl
  · exact fitGroup_stop_text (satisfies_fit o value body) hgroup

/-! ## Whole fittings -/

/-- Without lookahead, what a fitting has written when it ends can be completed, whether the pattern
was satisfied or not. -/
theorem completable_fit (ho : o.lookahead = false) (hclean : d.Clean) :
    Completable tokens d.text (fit o value tokens d.rewind).text := by
  rw [fit_text]
  refine walk_induction (I := fun e => Aligned tokens d.text e ∧ e.skipped = false)
    (J := fun r => Completable tokens d.text r.draft.text) ?_ ?_ ?_ ?_
  · rintro e t e' ⟨he, hskipped⟩ ht hstep
    exact ⟨he.goOn ht (fun body q s _ => satisfies_fit o value body) hstep,
      step_not_skipped ho hskipped hstep⟩
  · rintro e t e' ⟨he, hskipped⟩ ht hstep
    have htext : e'.text = e.text := step_stop_text hstep
    rw [Step.draft, htext]
    exact he.completable hskipped
  · rintro e ⟨he, hskipped⟩ ht
    exact he.completable hskipped
  · refine ⟨fun _ => ?_, hclean.skipped⟩
    exact ⟨[], Language.nil_mem_one, [], .none hclean.repeats, (List.append_nil _).symm⟩

end Draft

/-- Without lookahead, the text of every outcome of a mask, complete or not, is the beginning of a
text of the mask's language. -/
theorem Mask.text_isPrefix_of_mem_language {source : List Char} {o : Options} {m : Mask}
    (hm : Mask.ofSource source o = .ok m) (ho : o.lookahead = false) (value : List Char)
    (start stop : Nat) :
    ∃ w ∈ Token.languageOf m.tokens, (m.apply value start stop).text <+: w := by
  have hclean : (Draft.ofSelection start stop).Clean := ⟨rfl, rfl⟩
  rw [Mask.apply_of_ofSource hm]
  exact Draft.completable_fit ho hclean

/-- The second repetition of the group takes a character and fails, the next token takes it instead,
and the last literal is missing. -/
theorem Mask.text_isPrefix_of_mem_language_repeated :
    ∃ m, Mask.ofSource "a+(d(x)-)+dy".toList { lookahead := false } = .ok m ∧
      ((m.apply "aa5x-6".toList 2 4).text = "aa5x-6".toList ∧
        (m.apply "aa5x-6".toList 2 4).complete = false) ∧
        ∃ w ∈ Token.languageOf m.tokens, (m.apply "aa5x-6".toList 2 4).text <+: w := by
  obtain ⟨m, hm, hstops⟩ := Mask.exists_of_ofSource
    (show (Mask.ofSource "a+(d(x)-)+dy".toList { lookahead := false }).toOption.any
      (fun m => decide ((m.apply "aa5x-6".toList 2 4).text = "aa5x-6".toList ∧
        (m.apply "aa5x-6".toList 2 4).complete = false)) = true by decide +kernel)
  exact ⟨m, hm, of_decide_eq_true hstops, Mask.text_isPrefix_of_mem_language hm rfl _ _ _⟩

end InputMask

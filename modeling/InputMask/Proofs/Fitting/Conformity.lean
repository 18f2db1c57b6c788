import InputMask.Proofs.Fitting.Record
import InputMask.Proofs.Pattern.Parsing

/-!
# A value of the language is left as it is

With a pattern that can be read in one way only, fitting a value of its language takes every
character where the reading has it: nothing is left out, filled in or skipped. `Draft.Conforms` says
of a draft that it is on that way. At the level of the whole pattern no character is rejected
(`Conforms.not_rejects`), and every step goes on along the way (`Conforms.step`), also one at a
group, whose body is fitted alike. So a fitting succeeds with the value as its text
(`Draft.passes_fit`).
-/

set_option autoImplicit false

namespace InputMask

/-! ## Patterns that are read ahead of others -/

/-- A pattern that can be read in one way only, also with what comes after it. -/
structure Token.Predictive (tokens : List Token) (ahead : List (Leaf × Quantifier)) : Prop where
  solid : SolidOf tokens
  separated : Separated (leavesOf tokens ++ ahead)
  anchored : Anchored (leavesOf tokens ++ ahead)

namespace Token.Predictive

variable {tokens : List Token} {ahead : List (Leaf × Quantifier)}

/-- What is left of a predictable pattern is predictable. -/
theorem drop (h : Predictive tokens ahead) (i : Nat) : Predictive (tokens.drop i) ahead := by
  have hleaves : leavesOf tokens ++ ahead =
      leavesOf (tokens.take i) ++ (leavesOf (tokens.drop i) ++ ahead) := by
    rw [← List.append_assoc, ← leavesOf_append, List.take_append_drop]
  refine ⟨h.solid.drop i, ?_, ?_⟩
  · exact Separated.of_append (hleaves ▸ h.separated)
  · exact Anchored.of_append (hleaves ▸ h.anchored)

/-- The body of a group is read ahead of the tokens after the group. -/
theorem body {body : List Token} {q : Quantifier} {s : Span} {i : Nat}
    (h : Predictive tokens ahead) (ht : tokens[i]? = some (.group body q s)) :
    Predictive body (leavesOf (tokens.drop (i + 1)) ++ ahead) := by
  have hleaves : leavesOf (tokens.drop i) ++ ahead =
      leavesOf body ++ (leavesOf (tokens.drop (i + 1)) ++ ahead) := by
    rw [leavesOf_drop ht, leaves, List.append_assoc]
  obtain ⟨-, -, hbody⟩ := h.solid.of_mem (List.mem_of_getElem? ht)
  exact ⟨hbody, hleaves ▸ (h.drop i).separated, hleaves ▸ (h.drop i).anchored⟩

end Token.Predictive

namespace Draft

variable {d d₀ d₁ d' : Draft} {o : Options} {value : List Char} {tokens : List Token}
  {ahead : List (Leaf × Quantifier)} {l : Leaf} {q : Quantifier} {s : Span}
  {fitBody : Draft → Draft}

/-! ## Steps at leaves -/

/-- Where no character is rejected, a leaf takes the next character if it accepts it. -/
theorem step_take {c : Char} (hfree : d.rejects o tokens value[d.valueIndex]? = false)
    (hnext : value[d.valueIndex]? = some c) (hl : l.accepts c = true) :
    d.step o value tokens fitBody (.leaf l q s) =
      .goOn ((d.take c l).passChar.afterMatch q) := by
  cases l with
  | ofClass k =>
    rw [step_class hfree, hnext]
    exact if_pos hl
  | literal b =>
    obtain rfl : b = c := eq_of_beq hl
    rw [step_literal hfree, hnext]
    exact if_pos rfl

/-- A leaf that does not accept the next character is left if it has enough matches, except that an
optional literal stops a fitting at the end of the value. -/
theorem step_leave (hfree : d.rejects o tokens value[d.valueIndex]? = false)
    (hl : ∀ c, value[d.valueIndex]? = some c → l.accepts c = false)
    (hend : q.MayEnd d.repeats)
    (hstop : l.isLiteral = true ∧ q = .optional → value[d.valueIndex]?.isSome = true) :
    d.step o value tokens fitBody (.leaf l q s) = .goOn (d.leave q) := by
  have hq : ¬(q = .once ∨ q = .required) := by
    rintro (rfl | rfl) <;> simp [Quantifier.MayEnd, Quantifier.canBeAbsent] at hend
  cases l with
  | ofClass k =>
    rw [step_class hfree, ← moveOn_of_mayEnd hend]
    unfold fitClass
    split
    · rfl
    · next c hnext =>
      exact (if_neg (Bool.eq_false_iff.1 (hl c hnext))).trans (if_neg hq)
  | literal b =>
    rw [step_literal hfree, ← moveOn_of_mayEnd hend]
    have hb : value[d.valueIndex]? ≠ some b := fun hnext =>
      Bool.eq_false_iff.1 (hl b hnext) (beq_self_eq_true b)
    have honce : ¬(q = .once ∧ (value[d.valueIndex]?.isSome = true ∨ o.appendLiterals = true)) :=
      fun h => hq (.inl h.1)
    have hoptional : ¬(q = .optional ∧ value[d.valueIndex]?.isNone = true) := by
      rintro ⟨hopt, hnone⟩
      rw [Option.isNone_iff_eq_none.1 hnone] at hstop
      cases hstop ⟨rfl, hopt⟩
    exact (if_neg hb).trans ((if_neg honce).trans (if_neg hoptional))

/-! ## On the way -/

/-- A draft that since an earlier one has written what it has read, and nothing else. -/
structure Keeps (value : List Char) (d₀ d : Draft) : Prop where
  text : d.text ++ value.drop d.valueIndex = d₀.text ++ value.drop d₀.valueIndex
  selection : d.selection = d₀.selection
  skipped : d.skipped = d₀.skipped
  depth : d.depth = d₀.depth

/-- A draft has written what it has read since itself. -/
theorem Keeps.refl (d : Draft) : Keeps value d d := ⟨rfl, rfl, rfl, rfl⟩

/-- What is kept on one part of the way and on the next is kept on both. -/
theorem Keeps.trans (h : Keeps value d₀ d₁) (h' : Keeps value d₁ d) : Keeps value d₀ d :=
  ⟨h'.text.trans h.text, h'.selection.trans h.selection, h'.skipped.trans h.skipped,
    h'.depth.trans h.depth⟩

/-- A draft that is on the way that a pattern reads a value, since an earlier draft. -/
structure Conforms (value : List Char) (tokens : List Token) (ahead : List (Leaf × Quantifier))
    (d₀ d : Draft) : Prop extends Keeps value d₀ d where
  parses : Parses (Token.leavesOf (tokens.drop d.tokenIndex) ++ ahead) d.repeats
    (value.drop d.valueIndex)
  /-- Only a leaf that repeats has matches without having been passed. -/
  count : d.repeats = 0 ∨
    ∃ l q s, tokens[d.tokenIndex]? = some (.leaf l q s) ∧ q.repeats = true

/-! ## What comes next -/

/-- Where the current token is not a leaf that repeats, there is no match yet. -/
theorem Conforms.repeats_eq_zero (h : Conforms value tokens ahead d₀ d)
    (ht : ∀ l q s, tokens[d.tokenIndex]? = some (.leaf l q s) → q.repeats = false) :
    d.repeats = 0 := by
  obtain hzero | ⟨l, q, s, ht', hq⟩ := h.count
  · exact hzero
  · rw [ht l q s ht'] at hq
    cases hq

/-- At a group there is no match yet. -/
theorem Conforms.repeats_of_group {t : Token} (h : Conforms value tokens ahead d₀ d)
    (ht : tokens[d.tokenIndex]? = some t) (hgroup : t.isGroup = true) : d.repeats = 0 := by
  refine h.repeats_eq_zero fun l q s ht' => ?_
  rw [ht] at ht'
  cases ht'
  cases hgroup

/-- On its way, a fitting of the whole pattern meets no character that is rejected. -/
theorem Conforms.not_rejects {t : Token} (h : Conforms value tokens ahead d₀ d)
    (hpattern : Token.Predictive tokens ahead) (ht : tokens[d.tokenIndex]? = some t)
    (ho : o.discard = true) (htop : d.depth = 1 → ahead = []) :
    d.rejects o tokens value[d.valueIndex]? = false := by
  cases hnext : value[d.valueIndex]? with
  | none => simp [rejects]
  | some c =>
    by_cases hdepth : d.depth = 1
    · have hdrop := drop_eq_cons ht
      have hparses := h.parses
      have hsolid := hpattern.solid.drop d.tokenIndex
      rw [htop hdepth, List.append_nil, drop_eq_cons hnext, hdrop] at hparses
      rw [hdrop] at hsolid
      have hadmission := admission_of_parses hsolid (h.repeats_of_group ht) hparses
      simp [rejects, ho, hdrop, hadmission]
    · simp [rejects, hdepth]

/-! ## Steps on the way -/

/-- A character that a leaf takes is written as it was read. -/
theorem keeps_take {c : Char} (hnext : value[d.valueIndex]? = some c) :
    Keeps value d ((d.take c l).passChar.afterMatch q) := by
  refine ⟨?_, ?_, ?_, ?_⟩
  · simp [passChar, drop_eq_cons hnext]
  · simp [passChar]
  · simp [passChar]
  · simp [passChar]

/-- Leaving a token reads and writes nothing. -/
theorem keeps_leave : Keeps value d (d.leave q) := ⟨rfl, rfl, rfl, rfl⟩

/-- Where the reading takes a character with a leaf, the draft after the match is on the way. -/
theorem Conforms.take {c : Char} (h : Conforms value tokens ahead d₀ d)
    (ht : tokens[d.tokenIndex]? = some (.leaf l q s)) (hnext : value[d.valueIndex]? = some c)
    (hparses : q.repeats = true ∧
        Parses (Token.leavesOf (tokens.drop d.tokenIndex) ++ ahead) (d.repeats + 1)
          (value.drop (d.valueIndex + 1)) ∨
      q.repeats = false ∧ d.repeats = 0 ∧
        Parses (Token.leavesOf (tokens.drop (d.tokenIndex + 1)) ++ ahead) 0
          (value.drop (d.valueIndex + 1))) :
    Conforms value tokens ahead d₀ ((d.take c l).passChar.afterMatch q) := by
  refine ⟨h.toKeeps.trans (keeps_take hnext), ?_, ?_⟩
  · obtain ⟨hq, hparses⟩ | ⟨hq, hzero, hparses⟩ := hparses
    · simpa [afterMatch, hq, passChar] using hparses
    · simpa [afterMatch, hq, passChar, passToken, hzero] using hparses
  · obtain ⟨hq, -⟩ | ⟨hq, hzero, -⟩ := hparses
    · refine .inr ⟨l, q, s, ?_, hq⟩
      simpa [afterMatch, hq, passChar] using ht
    · left
      simpa [afterMatch, hq, passChar, passToken] using hzero

/-- Where the reading leaves a leaf, so does the draft. -/
theorem Conforms.leave (h : Conforms value tokens ahead d₀ d)
    (ht : tokens[d.tokenIndex]? = some (.leaf l q s))
    (hparses : Parses (Token.leavesOf (tokens.drop (d.tokenIndex + 1)) ++ ahead) 0
      (value.drop d.valueIndex)) :
    Conforms value tokens ahead d₀ (d.leave q) := by
  have hzero : (d.leave q).repeats = 0 := by
    unfold Draft.leave
    split
    · rfl
    · next hq =>
      refine h.repeats_eq_zero fun l' q' s' ht' => ?_
      rw [ht] at ht'
      cases ht'
      exact Bool.eq_false_iff.2 hq
  refine ⟨h.toKeeps.trans keeps_leave, ?_, .inl hzero⟩
  rw [hzero]
  exact hparses

/-- A step at a leaf takes the next character if the leaf accepts it, and leaves the leaf if not, as
the reading does. -/
theorem Conforms.step_leaf (h : Conforms value tokens ahead d₀ d)
    (hpattern : Token.Predictive tokens ahead)
    (ht : tokens[d.tokenIndex]? = some (.leaf l q s))
    (hfree : d.rejects o tokens value[d.valueIndex]? = false) :
    ∃ d', d.step o value tokens fitBody (.leaf l q s) = .goOn d' ∧
      Conforms value tokens ahead d₀ d' := by
  have hleaves : Token.leavesOf (tokens.drop d.tokenIndex) ++ ahead =
      (l, q) :: (Token.leavesOf (tokens.drop (d.tokenIndex + 1)) ++ ahead) := by
    rw [Token.leavesOf_drop ht]
    rfl
  have hparses := h.parses
  rw [hleaves] at hparses
  by_cases htakes : ∃ c, value[d.valueIndex]? = some c ∧ l.accepts c = true
  · obtain ⟨c, hnext, hl⟩ := htakes
    have hseparated := (hpattern.drop d.tokenIndex).separated
    rw [hleaves] at hseparated
    rw [drop_eq_cons hnext] at hparses
    refine ⟨_, step_take hfree hnext hl, h.take ht hnext ?_⟩
    rw [hleaves]
    exact hparses.take hseparated hl
  · have hl : ∀ c, value[d.valueIndex]? = some c → l.accepts c = false := fun c hnext =>
      Bool.eq_false_iff.2 fun haccepts => htakes ⟨c, hnext, haccepts⟩
    rw [← List.head?_drop] at hl
    obtain ⟨hend, hrest⟩ := hparses.leave_of hl
    rw [List.head?_drop] at hl
    refine ⟨_, step_leave hfree hl hend ?_, h.leave ht hrest⟩
    -- an optional literal is not left at the end of the value, for a leaf after it is needed
    intro hliteral
    have hanchored := (hpattern.drop d.tokenIndex).anchored
    rw [hleaves, anchored_cons] at hanchored
    obtain ⟨x, hx, hneeded⟩ := hanchored.1 hliteral
    by_contra hnone
    rw [Bool.not_eq_true, Option.isSome_eq_false_iff, Option.isNone_iff_eq_none] at hnone
    rw [List.drop_eq_nil_iff.2 (List.getElem?_eq_none_iff.1 hnone)] at hrest
    have habsent := hrest.canBeAbsent_of_nil x hx
    rw [habsent] at hneeded
    cases hneeded

/-- A way to fit that succeeds with a value that can be read with some tokens and what comes after
them, and keeps to that reading. -/
def Passes (value : List Char) (tokens : List Token) (fitBody : Draft → Draft) : Prop :=
  ∀ (ahead : List (Leaf × Quantifier)) (d : Draft), Token.Predictive tokens ahead →
    (d.depth = 0 → ahead = []) → d.Clean →
    Parses (Token.leavesOf tokens ++ ahead) 0 (value.drop d.valueIndex) →
      (d.trial fitBody).complete = true ∧ Keeps value d (d.trial fitBody) ∧
        Parses ahead 0 (value.drop (d.trial fitBody).valueIndex)

/-- A step at a group fits the body to what the reading has for it. -/
theorem Conforms.step_group {body : List Token} (h : Conforms value tokens ahead d₀ d)
    (hpattern : Token.Predictive tokens ahead)
    (ht : tokens[d.tokenIndex]? = some (.group body q s))
    (hfree : d.rejects o tokens value[d.valueIndex]? = false) (hdepth : d.depth ≠ 0)
    (hbody : Passes value body fitBody) :
    ∃ d', d.step o value tokens fitBody (.group body q s) = .goOn d' ∧
      Conforms value tokens ahead d₀ d' := by
  obtain ⟨hq, -, -⟩ := hpattern.solid.of_mem (List.mem_of_getElem? ht)
  have hrepeats : q.repeats = false := by obtain rfl | rfl := hq <;> rfl
  have hzero : d.repeats = 0 := h.repeats_of_group ht rfl
  have hparses := h.parses
  rw [Token.leavesOf_drop ht, Token.leaves, List.append_assoc, hzero] at hparses
  obtain ⟨hcomplete, hkeeps, hrest⟩ := hbody _ d.endCapture.openScope (hpattern.body ht)
    (fun hdepth' => absurd (endCapture_depth.symm.trans hdepth') hdepth) ⟨rfl, rfl⟩
    ((endCapture_valueIndex d).symm ▸ hparses)
  refine ⟨{ d.endCapture.openScope.trial fitBody with captures := [] }.closeScope d.endCapture
    (some (d.endCapture.openScope.trial fitBody).captures), ?_, ?_, ?_, ?_⟩
  · rw [Draft.step_group hfree, fitGroup_eq, trials, hrepeats, if_neg Bool.false_ne_true,
      tryOnce_pass hcomplete]
    exact if_pos (.inl rfl)
  · refine h.toKeeps.trans ⟨?_, ?_, ?_, ?_⟩
    · exact hkeeps.text.trans (by simp [openScope])
    · exact hkeeps.selection.trans endCapture_selection
    · exact endCapture_skipped
    · exact hkeeps.depth.trans endCapture_depth
  · simpa [closeScope, hzero] using hrest
  · left
    exact endCapture_repeats.trans hzero

/-! ## Whole fittings -/

/-- Every step goes on along the way, if the bodies of groups are fitted so. -/
theorem Conforms.step {t : Token} (h : Conforms value tokens ahead d₀ d)
    (hpattern : Token.Predictive tokens ahead) (ht : tokens[d.tokenIndex]? = some t)
    (ho : o.discard = true) (hdepth : d.depth ≠ 0) (htop : d.depth = 1 → ahead = [])
    (hbody : ∀ body q s, Token.group body q s ∈ tokens → Passes value body (fit o value body)) :
    ∃ d', d.step o value tokens (Token.fitBody o value t) t = .goOn d' ∧
      Conforms value tokens ahead d₀ d' := by
  have hfree := h.not_rejects hpattern ht ho htop
  cases t with
  | leaf l q s => exact h.step_leaf hpattern ht hfree
  | group body q s =>
    exact h.step_group hpattern ht hfree hdepth (hbody body q s (List.mem_of_getElem? ht))

/-- Stepping through a pattern stays on the way until the tokens run out. -/
theorem walked_conforms (hpattern : Token.Predictive tokens ahead) (ho : o.discard = true)
    (htop : d.depth = 0 → ahead = []) (hclean : d.Clean)
    (hparses : Parses (Token.leavesOf tokens ++ ahead) 0 (value.drop d.valueIndex))
    (hbody : ∀ body q s, Token.group body q s ∈ tokens → Passes value body (fit o value body)) :
    (d.rewind.walked o value tokens).goesOn = true ∧
      tokens[(d.rewind.walked o value tokens).draft.tokenIndex]? = none ∧
        Conforms value tokens ahead { d.rewind with depth := d.depth + 1 }
          (d.rewind.walked o value tokens).draft := by
  have hstep : ∀ (e : Draft) (t : Token),
      Conforms value tokens ahead { d.rewind with depth := d.depth + 1 } e →
      tokens[e.tokenIndex]? = some t →
      ∃ e', e.step o value tokens (Token.fitBody o value t) t = .goOn e' ∧
        Conforms value tokens ahead { d.rewind with depth := d.depth + 1 } e' := by
    intro e t he ht
    have hdepth : e.depth = d.depth + 1 := he.depth
    refine he.step hpattern ht ho ?_ ?_ hbody
    · omega
    · intro hone
      exact htop (by omega)
  refine walk_induction
    (I := Conforms value tokens ahead { d.rewind with depth := d.depth + 1 })
    (J := fun r => r.goesOn = true ∧ tokens[r.draft.tokenIndex]? = none ∧
      Conforms value tokens ahead { d.rewind with depth := d.depth + 1 } r.draft) ?_ ?_ ?_ ?_
  · intro e t e' he ht hgo
    obtain ⟨e'', hgo', he'⟩ := hstep e t he ht
    obtain rfl : e' = e'' := Step.goOn.inj (hgo.symm.trans hgo')
    exact he'
  · intro e t e' he ht hstop
    obtain ⟨e'', hgo, -⟩ := hstep e t he ht
    rw [hstop] at hgo
    cases hgo
  · intro e he ht
    exact ⟨rfl, ht, he⟩
  · refine ⟨.refl _, ?_, .inl hclean.repeats⟩
    rw [show (rewind d).repeats = 0 from hclean.repeats]
    exact hparses

/-- A value that can be read with a pattern and what comes after it is fitted to the pattern with
success, and as it is read. -/
theorem passes_fit (ho : o.discard = true) (tokens : List Token) :
    Passes value tokens (fit o value tokens) := by
  induction tokens using Token.groupInduction with
  | h tokens ih =>
    intro ahead d hpattern htop hclean hparses
    obtain ⟨hgoes, hend, hconforms⟩ := walked_conforms hpattern ho htop hclean hparses ih
    have hskipped : (d.rewind.walked o value tokens).draft.skipped = false :=
      hconforms.skipped.trans hclean.skipped
    have hlength := List.getElem?_eq_none_iff.1 hend
    refine ⟨fit_complete_iff.2 ⟨hgoes, hskipped, hlength⟩, ⟨?_, ?_, ?_, ?_⟩, ?_⟩
    · rw [trial, fit_text, fit_valueIndex]
      exact hconforms.text
    · exact fit_selection.trans hconforms.selection
    · exact fit_skipped.trans hconforms.skipped
    · exact fit_depth.trans (congrArg (· - 1) hconforms.depth)
    · have hzero := hconforms.repeats_eq_zero (by simp [hend])
      have hrest := hconforms.parses
      rw [hzero, List.drop_of_length_le hlength, Token.leavesOf, List.nil_append] at hrest
      rwa [trial, fit_valueIndex]

/-- Fitting a value that a whole pattern can be read with ends with the value as its text. -/
theorem fit_of_parses (ho : o.discard = true) (hpattern : Token.Predictive tokens [])
    (hparses : Parses (Token.leavesOf tokens ++ []) 0 value) (start stop : Nat) :
    (fit o value tokens (.ofSelection start stop)).complete = true ∧
      (fit o value tokens (.ofSelection start stop)).text = value ∧
        (fit o value tokens (.ofSelection start stop)).selection = .between start stop ∧
          value.drop (fit o value tokens (.ofSelection start stop)).valueIndex = [] := by
  obtain ⟨hcomplete, hkeeps, hrest⟩ :=
    passes_fit ho tokens [] (.ofSelection start stop) hpattern (fun _ => rfl) ⟨rfl, rfl⟩ hparses
  have hnil : ∀ rest, Parses [] 0 rest → rest = [] := by
    intro rest h
    cases h
    rfl
  have hdrop := hnil _ hrest
  refine ⟨hcomplete, ?_, hkeeps.selection, hdrop⟩
  have htext := hkeeps.text
  rw [hdrop, List.append_nil] at htext
  exact htext

end Draft

/-- A value of a mask's language is its own text, complete and with nothing left of it, where
characters that fit nowhere are discarded and the mask can be read in one way only. The selection
stays where it is in the value; that offsets are exact up to `Selection.greatest` is enough for
every value in memory. -/
theorem Mask.unchanged_of_mem_language {source : List Char} {o : Options} {m : Mask}
    (hm : Mask.ofSource source o = .ok m) (ho : o.discard = true)
    (hsolid : Token.SolidOf m.tokens) (hseparated : Separated (Token.leavesOf m.tokens))
    (hanchored : Anchored (Token.leavesOf m.tokens)) {value : List Char}
    (hvalue : value ∈ Token.languageOf m.tokens) (start stop : Nat) :
    (m.apply value start stop).text = value ∧ (m.apply value start stop).complete = true ∧
      (m.apply value start stop).remainder = none ∧
        (value.length ≤ Selection.greatest →
          (m.apply value start stop).start = min start value.length ∧
            (m.apply value start stop).stop = min stop value.length) := by
  have hpattern : Token.Predictive m.tokens [] := by
    refine ⟨hsolid, ?_, ?_⟩
    · rwa [List.append_nil]
    · rwa [List.append_nil]
  have hparses : Parses (Token.leavesOf m.tokens ++ []) 0 (value ++ []) :=
    parses_of_mem_languageOf hsolid hvalue .done
  rw [List.append_nil value] at hparses
  obtain ⟨hcomplete, htext, hselection, hdrop⟩ :=
    Draft.fit_of_parses ho hpattern hparses start stop
  have hlength : (fit o value m.tokens (.ofSelection start stop)).length = value.length := by
    rw [Draft.fit_length o value m.tokens rfl, htext]
  rw [Mask.apply_of_ofSource hm]
  refine ⟨htext, hcomplete, ?_, fun hreach => ⟨?_, ?_⟩⟩
  · simp only [Draft.outcome, hdrop]
  · simp only [Draft.outcome, hselection, hlength, Selection.between]
    omega
  · simp only [Draft.outcome, hselection, hlength, Selection.between]
    omega

/-- In this value an optional literal is left out, and a leaf in a group and one after it repeat. -/
theorem Mask.unchanged_of_mem_language_grouped :
    ∃ m, Mask.ofSource "a?(d+-)x*".toList = .ok m ∧
      "12-x".toList ∈ Token.languageOf m.tokens ∧
        (m.apply "12-x".toList 3 9).text = "12-x".toList ∧
          (m.apply "12-x".toList 3 9).complete = true ∧
            (m.apply "12-x".toList 3 9).remainder = none ∧
              (m.apply "12-x".toList 3 9).start = 3 ∧ (m.apply "12-x".toList 3 9).stop = 4 := by
  obtain ⟨m, hm, htokens⟩ := Mask.exists_of_ofSource
    (show (Mask.ofSource "a?(d+-)x*".toList).toOption.any (fun m => decide (m.tokens =
      [.leaf (.literal 'a') .optional ⟨0, 2⟩,
        .group [.leaf (.ofClass .digit) .oneOrMore ⟨3, 5⟩, .leaf (.literal '-') .once ⟨5, 6⟩] .once
          ⟨2, 7⟩,
        .leaf (.literal 'x') .zeroOrMore ⟨7, 9⟩])) = true by decide +kernel)
  replace htokens := of_decide_eq_true htokens
  have hleft : [] ∈ Quantifier.optional.language (Leaf.literal 'a').language :=
    Quantifier.nil_mem_language_iff.2 (.inl rfl)
  have hdigits : ['1'] ++ ['2'] ∈ Quantifier.oneOrMore.language (Leaf.ofClass .digit).language := by
    refine Quantifier.mem_language_of_mem_pow rfl Nat.two_pos ?_
    rw [pow_two]
    exact Language.append_mem_mul ⟨'1', rfl, rfl⟩ ⟨'2', rfl, rfl⟩
  have hvalue : "12-x".toList ∈ Token.languageOf m.tokens := by
    rw [htokens]
    refine Token.mem_languageOf_cons.2 ⟨[], hleft, _, ?_, rfl⟩
    refine Token.mem_languageOf_cons.2 ⟨['1', '2', '-'], ?_, ['x'], ?_, rfl⟩
    · refine Token.mem_languageOf_cons.2 ⟨['1', '2'], hdigits, ['-'], ?_, rfl⟩
      exact Token.mem_languageOf_cons.2
        ⟨['-'], Token.singleton_mem_language rfl, [], Token.mem_languageOf_nil.2 rfl, rfl⟩
    · exact Token.mem_languageOf_cons.2
        ⟨['x'], Token.singleton_mem_language rfl, [], Token.mem_languageOf_nil.2 rfl, rfl⟩
  obtain ⟨htext, hcomplete, hremainder, hselection⟩ :=
    Mask.unchanged_of_mem_language hm rfl (htokens ▸ by decide) (htokens ▸ by decide)
      (htokens ▸ by decide) hvalue 3 9
  obtain ⟨hstart, hstop⟩ := hselection (by decide)
  exact ⟨m, hm, hvalue, htext, hcomplete, hremainder, hstart, hstop⟩

end InputMask

import InputMask.Proofs.Pattern.Parsing
import InputMask.Proofs.Fitting.Conformity
import InputMask.TextField

/-!
# Typing a value piece by piece

In a pattern of leaves that occur exactly once, a character of the value is dealt with as soon as it
is met, and what comes after it has no say. So fitting a value comes down to pressing its characters
one after another (`Draft.walked_pressed`), with a `Progress` in the pattern in between. Pressing
the characters of the text that was written leads to the same progress as pressing those of the
value (`Progress.pressAll_written`), and so a text that was fitted can be typed on as if it were the
value, in a text field as well (`TextField.foldl_typeOn_text`).
-/

set_option autoImplicit false

namespace InputMask

/-- Whether a token is a leaf that occurs exactly once, and is filled in if it is a literal. -/
def Token.Plain : Token → Prop
  | leaf (.ofClass _) q _ => q = .once ∨ q = .required
  | leaf (.literal _) q _ => q = .once
  | group .. => False

/-- Whether a token is plain can be decided. -/
instance : DecidablePred Token.Plain
  | .leaf (.ofClass _) q _ => inferInstanceAs (Decidable (q = .once ∨ q = .required))
  | .leaf (.literal _) q _ => inferInstanceAs (Decidable (q = .once))
  | .group .. => isFalse id

/-- A plain token does not repeat. -/
theorem Token.Plain.repeats {t : Token} (h : t.Plain) : t.quantifier.repeats = false := by
  cases t with
  | group body q s => cases h
  | leaf l q s =>
    cases l with
    | literal c =>
      obtain rfl : q = .once := h
      rfl
    | ofClass k =>
      obtain rfl | rfl : q = .once ∨ q = .required := h
      · rfl
      · rfl

/-- A plain token is no group. -/
theorem Token.Plain.isGroup {t : Token} (h : t.Plain) : t.isGroup = false := by
  cases t with
  | leaf l q s => rfl
  | group body q s => cases h

/-- The character that is filled in for a token, if there is one. -/
def Token.filling? : Token → Option Char
  | leaf (.literal c) _ _ => some c
  | leaf (.ofClass _) _ _ | group .. => none

/-- A token accepts the character that is filled in for it. -/
theorem Token.accepts_of_filling? {t : Token} {d : Char} (h : t.filling? = some d) :
    t.accepts d = true := by
  cases t with
  | group body q s => cases h
  | leaf l q s =>
    cases l with
    | ofClass k => cases h
    | literal b =>
      obtain rfl : b = d := Option.some.inj h
      exact beq_self_eq_true b

/-! ## Pressing characters -/

/-- How far the reading of a pattern has come: the tokens ahead, whether some were skipped, and the
text written so far. -/
structure Progress where
  ahead : List Token
  skipped : Bool
  text : List Char

namespace Progress

/-- What one character of the value does: the literals before its token are filled in, and unless a
token takes it, now or after skipping others, it is left out. -/
def pressOn (lookahead : Bool) (c : Char) : List Token → Bool → List Char → Progress
  | [], skipped, text => ⟨[], skipped, text⟩
  | t :: ts, skipped, text =>
    if t.accepts c then ⟨ts, skipped, text ++ [c]⟩
    else
      match t.filling? with
      | some d => pressOn lookahead c ts skipped (text ++ [d])
      | none =>
        match if lookahead then landing? ts 0 c else none with
        | some index => ⟨ts.drop (index + 1), true, text ++ [c]⟩
        | none => ⟨t :: ts, skipped, text⟩

/-- What the next character of the value does. -/
def press (lookahead : Bool) (p : Progress) (c : Char) : Progress :=
  pressOn lookahead c p.ahead p.skipped p.text

/-- What some characters of the value do, one after another. -/
def pressAll (lookahead : Bool) (value : List Char) (p : Progress) : Progress :=
  value.foldl (press lookahead) p

variable {lookahead skipped : Bool} {c : Char} {text value : List Char} {t : Token}
  {ts : List Token} {p : Progress}

/-- A token that accepts the character takes it. -/
theorem pressOn_accepts (h : t.accepts c = true) :
    pressOn lookahead c (t :: ts) skipped text = ⟨ts, skipped, text ++ [c]⟩ := by
  rw [pressOn, if_pos h]

/-- A literal that is another character is filled in. -/
theorem pressOn_fills {d : Char} (h : t.accepts c = false) (hd : t.filling? = some d) :
    pressOn lookahead c (t :: ts) skipped text = pressOn lookahead c ts skipped (text ++ [d]) := by
  rw [pressOn, if_neg (Bool.eq_false_iff.1 h), hd]

/-- A class that does not accept the character is skipped for a token that does, if one is found. -/
theorem pressOn_lands {index : Nat} (h : t.accepts c = false) (hd : t.filling? = none)
    (hindex : (if lookahead then landing? ts 0 c else none) = some index) :
    pressOn lookahead c (t :: ts) skipped text = ⟨ts.drop (index + 1), true, text ++ [c]⟩ := by
  rw [pressOn, if_neg (Bool.eq_false_iff.1 h), hd]
  dsimp only
  rw [hindex]

/-- Where no token is found for the character, it is left out. -/
theorem pressOn_drops (h : t.accepts c = false) (hd : t.filling? = none)
    (hindex : (if lookahead then landing? ts 0 c else none) = none) :
    pressOn lookahead c (t :: ts) skipped text = ⟨t :: ts, skipped, text⟩ := by
  rw [pressOn, if_neg (Bool.eq_false_iff.1 h), hd]
  dsimp only
  rw [hindex]

/-- The first character is pressed before the others. -/
theorem pressAll_cons :
    pressAll lookahead (c :: value) p =
      pressAll lookahead value (p.press lookahead c) := rfl

/-- Two parts of a value are pressed one after the other. -/
theorem pressAll_append (v w : List Char) :
    pressAll lookahead (v ++ w) p = pressAll lookahead w (pressAll lookahead v p) :=
  List.foldl_append

/-- Where no token is ahead, all characters are left unread. -/
theorem pressAll_of_ahead_eq_nil (h : p.ahead = []) : pressAll lookahead value p = p := by
  obtain ⟨ahead, skipped, text⟩ := p
  obtain rfl : ahead = [] := h
  induction value with
  | nil => rfl
  | cons c value ih => exact ih

/-! ## Pressing what was written -/

/-- Pressing what one character has written does the same as that character. -/
theorem press_written (lookahead : Bool) (p : Progress) (c : Char) :
    ∃ u, (p.press lookahead c).text = p.text ++ u ∧
      pressAll lookahead u p = p.press lookahead c := by
  obtain ⟨ts, skipped, text⟩ := p
  induction ts generalizing text with
  | nil => exact ⟨[], (List.append_nil text).symm, rfl⟩
  | cons t ts ih =>
    rw [press]
    dsimp only
    cases haccepts : t.accepts c with
    | true =>
      refine ⟨[c], ?_, rfl⟩
      rw [pressOn_accepts haccepts]
    | false =>
      cases hd : t.filling? with
      | some d =>
        have hself : t.accepts d = true := Token.accepts_of_filling? hd
        have hpress : press lookahead ⟨t :: ts, skipped, text⟩ d = ⟨ts, skipped, text ++ [d]⟩ :=
          pressOn_accepts hself
        obtain ⟨u, htext, hu⟩ := ih (text ++ [d])
        rw [pressOn_fills haccepts hd]
        refine ⟨d :: u, ?_, ?_⟩
        · exact htext.trans (List.append_assoc text [d] u)
        · rw [pressAll_cons, hpress]
          exact hu
      | none =>
        cases hindex : (if lookahead then landing? ts 0 c else none) with
        | some index =>
          refine ⟨[c], ?_, rfl⟩
          rw [pressOn_lands haccepts hd hindex]
        | none =>
          rw [pressOn_drops haccepts hd hindex]
          exact ⟨[], (List.append_nil text).symm, rfl⟩

/-- Pressing what a value has written does the same as that value. -/
theorem pressAll_written (lookahead : Bool) (value : List Char) (p : Progress) :
    ∃ u, (pressAll lookahead value p).text = p.text ++ u ∧
      pressAll lookahead u p = pressAll lookahead value p := by
  induction value generalizing p with
  | nil => exact ⟨[], (List.append_nil p.text).symm, rfl⟩
  | cons c value ih =>
    obtain ⟨u, htext, hu⟩ := press_written lookahead p c
    obtain ⟨u', htext', hu'⟩ := ih (p.press lookahead c)
    refine ⟨u ++ u', ?_, ?_⟩
    · rw [pressAll_cons, htext', htext, List.append_assoc]
    · rw [pressAll_append, hu, hu', pressAll_cons]

end Progress

/-! ## Fitting is pressing -/

/-- A search from a place on is a search of what stands there, in places of the whole. -/
theorem landing?_eq_map (tokens : List Token) (start : Nat) (c : Char) :
    landing? tokens start c = (landing? (tokens.drop start) 0 c).map (· + start) := by
  simp [landing?]

/-- Among plain tokens, a character lands at a token that accepts it. -/
theorem accepts_of_landing? {ts : List Token} {c : Char} {index : Nat}
    (hplain : ∀ t ∈ ts, t.Plain) (h : landing? ts 0 c = some index) :
    ∃ t, ts[index]? = some t ∧ t.accepts c = true := by
  obtain ⟨i, hi, rfl⟩ := Option.map_eq_some_iff.1 h
  rw [List.drop_zero, List.findIdx?_eq_some_iff_getElem] at hi
  obtain ⟨hlt, hlands, -⟩ := hi
  refine ⟨ts[i], List.getElem?_eq_getElem hlt, ?_⟩
  rw [(hplain ts[i] (List.getElem_mem hlt)).isGroup] at hlands
  simpa using hlands

/-- Where characters are discarded, a pattern without groups rejects none. -/
theorem admission_ne_rejected {tokens : List Token} (c : Char)
    (hleaves : ∀ t ∈ tokens, t.isGroup = false) : admission true c tokens ≠ .rejected := by
  induction tokens with
  | nil => exact Verdict.noConfusion
  | cons t ts ih =>
    obtain ⟨ht, hts⟩ := List.forall_mem_cons.1 hleaves
    cases t with
    | group body q s => cases ht
    | leaf l q s =>
      rw [admission_leaf]
      split
      · exact Verdict.noConfusion
      · exact ih hts

namespace Draft

variable {d : Draft} {o : Options} {value : List Char} {tokens : List Token} {t : Token}
  {fitBody : Draft → Draft}

/-- How far a draft has come in a pattern. -/
def progress (tokens : List Token) (d : Draft) : Progress :=
  ⟨tokens.drop d.tokenIndex, d.skipped, d.text⟩

/-- With discarding, a plain pattern rejects no character. -/
theorem rejects_eq_false (ho : o.discard = true) (hplain : ∀ t ∈ tokens, t.Plain)
    (next : Option Char) : d.rejects o tokens next = false := by
  have hnot : ∀ c, admission true c (tokens.drop d.tokenIndex) ≠ .rejected := fun c =>
    admission_ne_rejected c fun t ht => (hplain t (List.mem_of_mem_drop ht)).isGroup
  cases next with
  | none => simp [rejects]
  | some c => simp [rejects, ho, hnot c]

/-- At the end of the value a step stops. -/
theorem step_plain_none (ho : o.discard = true) (happend : o.appendLiterals = false)
    (hplain : ∀ t ∈ tokens, t.Plain) (ht : tokens[d.tokenIndex]? = some t)
    (hnext : value[d.valueIndex]? = none) :
    d.step o value tokens fitBody t = .stop d := by
  have hfree := rejects_eq_false (d := d) ho hplain value[d.valueIndex]?
  have hkind := hplain t (List.mem_of_getElem? ht)
  cases t with
  | group body q s => cases hkind
  | leaf l q s =>
    cases l with
    | ofClass k =>
      rw [step_class hfree, hnext]
      obtain rfl | rfl : q = .once ∨ q = .required := hkind
      · rfl
      · rfl
    | literal b =>
      rw [step_literal hfree, hnext]
      obtain rfl : q = .once := hkind
      simp [fitLiteral, happend, moveOn]

/-- What a step does with the next character: it presses the character, or leaves it to be pressed
from the draft that it goes on with. -/
def Presses (o : Options) (tokens : List Token) (c : Char) (d d' : Draft) : Prop :=
  d'.valueIndex = d.valueIndex + 1 ∧
      d'.progress tokens = (d.progress tokens).press o.lookahead c ∨
    d'.valueIndex = d.valueIndex ∧
      (d'.progress tokens).press o.lookahead c = (d.progress tokens).press o.lookahead c

/-- With discarding, a mismatch at a plain class goes on, and presses the character. -/
theorem onMismatch_plain {c : Char} {before : Bool} (ho : o.discard = true)
    (hplain : ∀ t ∈ tokens, t.Plain) (ht : tokens[d.tokenIndex]? = some t)
    (haccepts : t.accepts c = false) (hfilling : t.filling? = none) :
    ∃ d', d.onMismatch o tokens c before = .goOn d' ∧ Presses o tokens c d d' := by
  have hahead : d.progress tokens = ⟨t :: tokens.drop (d.tokenIndex + 1), d.skipped, d.text⟩ := by
    rw [progress, drop_eq_cons ht]
  have hjump : (if o.lookahead then landing? tokens (d.tokenIndex + 1) c else none) =
      (if o.lookahead then landing? (tokens.drop (d.tokenIndex + 1)) 0 c else none).map
        (· + (d.tokenIndex + 1)) := by
    rw [landing?_eq_map]
    split <;> rfl
  unfold Presses
  rw [onMismatch, hjump, hahead]
  cases hindex : (if o.lookahead then landing? (tokens.drop (d.tokenIndex + 1)) 0 c else none) with
  | some index =>
    have hlanding : landing? (tokens.drop (d.tokenIndex + 1)) 0 c = some index := by
      split at hindex
      · exact hindex
      · cases hindex
    obtain ⟨u, hu, hc⟩ :=
      accepts_of_landing? (fun t ht => hplain t (List.mem_of_mem_drop ht)) hlanding
    refine ⟨d.skipTo (index + (d.tokenIndex + 1)), rfl, .inr ⟨rfl, ?_⟩⟩
    have hrest : tokens.drop (index + (d.tokenIndex + 1)) =
        u :: (tokens.drop (d.tokenIndex + 1)).drop (index + 1) := by
      rw [Nat.add_comm, ← List.drop_drop, drop_eq_cons hu]
    rw [Progress.press, Progress.press, progress, skipTo]
    dsimp only
    rw [hrest, Progress.pressOn_accepts hc, Progress.pressOn_lands haccepts hfilling hindex]
  | none =>
    refine ⟨d.dropChar before, if_pos ho, .inl ⟨dropChar_valueIndex before, ?_⟩⟩
    rw [Progress.press]
    dsimp only
    rw [Progress.pressOn_drops haccepts hfilling hindex, ← hahead]
    simp [progress]

/-- With a character left a step goes on, and the character is pressed then or later. -/
theorem step_plain_some {c : Char} (ho : o.discard = true) (hplain : ∀ t ∈ tokens, t.Plain)
    (ht : tokens[d.tokenIndex]? = some t) (hnext : value[d.valueIndex]? = some c) :
    ∃ d', d.step o value tokens fitBody t = .goOn d' ∧ Presses o tokens c d d' := by
  have hfree := rejects_eq_false (d := d) ho hplain value[d.valueIndex]?
  have hkind := hplain t (List.mem_of_getElem? ht)
  have hahead : d.progress tokens = ⟨t :: tokens.drop (d.tokenIndex + 1), d.skipped, d.text⟩ := by
    rw [progress, drop_eq_cons ht]
  cases t with
  | group body q s => cases hkind
  | leaf l q s =>
    cases haccepts : (Token.leaf l q s).accepts c with
    | true =>
      have hrepeats : q.repeats = false := hkind.repeats
      refine ⟨_, step_take hfree hnext haccepts, .inl ⟨?_, ?_⟩⟩
      · simp [passChar]
      · rw [hahead, Progress.press]
        dsimp only
        rw [Progress.pressOn_accepts haccepts]
        simp [progress, afterMatch, hrepeats, passChar, passToken]
    | false =>
      cases l with
      | literal b =>
        obtain rfl : q = .once := hkind
        have hb : b ≠ c := fun hb => Bool.eq_false_iff.1 haccepts (beq_iff_eq.2 hb)
        refine ⟨d.fill b (d.precedesSelection true), ?_, .inr ⟨fill_valueIndex _ _, ?_⟩⟩
        · rw [step_literal hfree, hnext]
          simp [fitLiteral, fill, Ne.symm hb]
        · rw [hahead, Progress.press, Progress.press]
          dsimp only
          rw [Progress.pressOn_fills haccepts rfl]
          simp [progress]
      | ofClass k =>
        have hstep : d.step o value tokens fitBody (.leaf (.ofClass k) q s) =
            d.onMismatch o tokens c (d.precedesSelection true) := by
          rw [step_class hfree, hnext]
          exact (if_neg (Bool.eq_false_iff.1 haccepts)).trans (if_pos hkind)
        rw [hstep]
        exact onMismatch_plain ho hplain ht haccepts rfl

/-- A step that goes on had a character left, which is pressed then or later. -/
theorem presses_of_goOn {d' : Draft} (ho : o.discard = true) (happend : o.appendLiterals = false)
    (hplain : ∀ t ∈ tokens, t.Plain) (ht : tokens[d.tokenIndex]? = some t)
    (hstep : d.step o value tokens fitBody t = .goOn d') :
    ∃ c, value[d.valueIndex]? = some c ∧ Presses o tokens c d d' := by
  cases hnext : value[d.valueIndex]? with
  | none =>
    rw [step_plain_none ho happend hplain ht hnext] at hstep
    cases hstep
  | some c =>
    obtain ⟨e, hgo, hpress⟩ : ∃ e, d.step o value tokens fitBody t = .goOn e ∧
        Presses o tokens c d e := step_plain_some ho hplain ht hnext
    obtain rfl : d' = e := Step.goOn.inj (hstep.symm.trans hgo)
    exact ⟨c, rfl, hpress⟩

/-- A step that stops had no character left, and leaves the draft as it is. -/
theorem eq_of_stop {d' : Draft} (ho : o.discard = true) (happend : o.appendLiterals = false)
    (hplain : ∀ t ∈ tokens, t.Plain) (ht : tokens[d.tokenIndex]? = some t)
    (hstep : d.step o value tokens fitBody t = .stop d') :
    value[d.valueIndex]? = none ∧ d' = d := by
  cases hnext : value[d.valueIndex]? with
  | none =>
    rw [step_plain_none ho happend hplain ht hnext] at hstep
    exact ⟨rfl, (Step.stop.inj hstep).symm⟩
  | some c =>
    obtain ⟨e, hgo, -⟩ : ∃ e, d.step o value tokens fitBody t = .goOn e ∧
        Presses o tokens c d e := step_plain_some ho hplain ht hnext
    rw [hstep] at hgo
    cases hgo

/-- Stepping through a plain pattern ends with the progress that pressing what is left of the value
makes, and goes on to the end of the tokens or stops before it. -/
theorem walked_pressed (ho : o.discard = true) (happend : o.appendLiterals = false)
    (hplain : ∀ t ∈ tokens, t.Plain) (d : Draft) :
    (d.walked o value tokens).draft.progress tokens =
        .pressAll o.lookahead (value.drop d.valueIndex) (d.progress tokens) ∧
      ((d.walked o value tokens).goesOn = true ↔
        tokens.length ≤ (d.walked o value tokens).draft.tokenIndex) := by
  refine walk_induction
    (I := fun e => .pressAll o.lookahead (value.drop e.valueIndex) (e.progress tokens) =
      Progress.pressAll o.lookahead (value.drop d.valueIndex) (d.progress tokens))
    (J := fun r => r.draft.progress tokens =
        .pressAll o.lookahead (value.drop d.valueIndex) (d.progress tokens) ∧
      (r.goesOn = true ↔ tokens.length ≤ r.draft.tokenIndex)) ?_ ?_ ?_ rfl
  · intro e t e' he ht hstep
    -- what is pressed from the draft on is the same before and after the step
    obtain ⟨c, hnext, hpress⟩ := presses_of_goOn ho happend hplain ht hstep
    rw [drop_eq_cons hnext, Progress.pressAll_cons] at he
    obtain ⟨hindex, hprogress⟩ | ⟨hindex, hprogress⟩ := hpress
    · rw [hindex, hprogress]
      exact he
    · rw [hindex, drop_eq_cons hnext, Progress.pressAll_cons]
      exact (congrArg _ hprogress).trans he
  · intro e t e' he ht hstep
    have hlt : e.tokenIndex < tokens.length := (List.getElem?_eq_some_iff.1 ht).1
    obtain ⟨hnext, rfl⟩ := eq_of_stop ho happend hplain ht hstep
    rw [List.drop_of_length_le (List.getElem?_eq_none_iff.1 hnext)] at he
    exact ⟨he, by simp [Step.goesOn, Step.draft, hlt]⟩
  · intro e he ht
    have hlength : tokens.length ≤ e.tokenIndex := List.getElem?_eq_none_iff.1 ht
    have hahead : (e.progress tokens).ahead = [] := List.drop_of_length_le hlength
    rw [Progress.pressAll_of_ahead_eq_nil hahead] at he
    exact ⟨he, by simp [Step.goesOn, Step.draft, hlength]⟩

/-- Fitting a value to a plain pattern is pressing its characters from the outset. -/
theorem fit_pressed (ho : o.discard = true) (happend : o.appendLiterals = false)
    (hplain : ∀ t ∈ tokens, t.Plain) (start stop : Nat) :
    (fit o value tokens (.ofSelection start stop)).text =
        (Progress.pressAll o.lookahead value ⟨tokens, false, []⟩).text ∧
      ((fit o value tokens (.ofSelection start stop)).complete = true ↔
        (Progress.pressAll o.lookahead value ⟨tokens, false, []⟩).skipped = false ∧
          (Progress.pressAll o.lookahead value ⟨tokens, false, []⟩).ahead = []) := by
  have hpressed := @walked_pressed o value tokens ho happend hplain (.ofSelection start stop)
  obtain ⟨hprogress, hgoes⟩ := hpressed
  have hopening : (ofSelection start stop).progress tokens = ⟨tokens, false, []⟩ := rfl
  rw [hopening] at hprogress
  have hvalue : value.drop (ofSelection start stop).valueIndex = value := rfl
  rw [hvalue] at hprogress
  rw [← hprogress]
  refine ⟨fit_text, ?_⟩
  rw [fit_complete_iff, hgoes]
  simp only [progress, List.drop_eq_nil_iff]
  tauto

end Draft

namespace Mask

variable {source : List Char} {o : Options} {m : Mask}

/-- A plain mask that discards gives the text that comes of pressing the value's characters,
complete if no token was skipped and none is ahead. -/
theorem apply_pressed (hm : ofSource source o = .ok m) (hplain : ∀ t ∈ m.tokens, t.Plain)
    (ho : o.discard = true) (happend : o.appendLiterals = false) (value : List Char)
    (start stop : Nat) :
    (m.apply value start stop).text =
        (Progress.pressAll o.lookahead value ⟨m.tokens, false, []⟩).text ∧
      ((m.apply value start stop).complete = true ↔
        (Progress.pressAll o.lookahead value ⟨m.tokens, false, []⟩).skipped = false ∧
          (Progress.pressAll o.lookahead value ⟨m.tokens, false, []⟩).ahead = []) := by
  rw [apply_of_ofSource hm]
  exact Draft.fit_pressed ho happend hplain start stop

/-- The text of a value leads to the same progress as the value, so it can be typed on. -/
theorem pressAll_text_append (hm : ofSource source o = .ok m) (hplain : ∀ t ∈ m.tokens, t.Plain)
    (ho : o.discard = true) (happend : o.appendLiterals = false) (v w : List Char)
    (start stop : Nat) :
    Progress.pressAll o.lookahead ((m.apply v start stop).text ++ w) ⟨m.tokens, false, []⟩ =
      Progress.pressAll o.lookahead (v ++ w) ⟨m.tokens, false, []⟩ := by
  obtain ⟨u, htext, hu⟩ := Progress.pressAll_written o.lookahead v ⟨m.tokens, false, []⟩
  have hwritten : (m.apply v start stop).text = u :=
    (apply_pressed hm hplain ho happend v start stop).1.trans htext
  rw [hwritten, Progress.pressAll_append, Progress.pressAll_append, hu]

/-- Typing on from the text of a value comes to what pasting the whole comes to. -/
theorem apply_text_append (hm : ofSource source o = .ok m) (hplain : ∀ t ∈ m.tokens, t.Plain)
    (ho : o.discard = true) (happend : o.appendLiterals = false) (v w : List Char)
    (start stop start' stop' start'' stop'' : Nat) :
    (m.apply ((m.apply v start stop).text ++ w) start' stop').text =
        (m.apply (v ++ w) start'' stop'').text ∧
      (m.apply ((m.apply v start stop).text ++ w) start' stop').complete =
        (m.apply (v ++ w) start'' stop'').complete := by
  have hpress := pressAll_text_append hm hplain ho happend v w start stop
  obtain ⟨htyped, htyped'⟩ := apply_pressed hm hplain ho happend
    ((m.apply v start stop).text ++ w) start' stop'
  obtain ⟨hpasted, hpasted'⟩ := apply_pressed hm hplain ho happend (v ++ w) start'' stop''
  rw [hpress] at htyped htyped'
  exact ⟨htyped.trans hpasted.symm, Bool.eq_iff_iff.2 (htyped'.trans hpasted'.symm)⟩

/-- Typing pieces of a value one after another, each behind the text that the ones before it came
to, comes to the text of what was typed altogether. -/
theorem foldl_typed (hm : ofSource source o = .ok m) (hplain : ∀ t ∈ m.tokens, t.Plain)
    (ho : o.discard = true) (happend : o.appendLiterals = false)
    (pieces : List (List Char × Nat × Nat)) (v : List Char) (start stop : Nat) :
    pieces.foldl (fun text piece => (m.apply (text ++ piece.1) piece.2.1 piece.2.2).text)
        (m.apply v start stop).text =
      (m.apply (v ++ pieces.flatMap Prod.fst) start stop).text := by
  induction pieces generalizing v start stop with
  | nil => rw [List.foldl_nil, List.flatMap_nil, List.append_nil]
  | cons piece pieces ih =>
    obtain ⟨htyped, -⟩ := apply_text_append hm hplain ho happend v piece.1 start stop
      piece.2.1 piece.2.2 start stop
    rw [List.foldl_cons, htyped, ih, List.flatMap_cons, List.append_assoc]

end Mask

/-- Where characters are discarded and no literal is filled in after the value's end, typing on from
the text of a value under a plain mask comes to what pasting the whole comes to. So a field in which
pieces are typed one after another ends with the text of all of them pasted at once, wherever the
cursors were. -/
theorem Mask.typed_eq_pasted {source : List Char} {o : Options} {m : Mask}
    (hm : Mask.ofSource source o = .ok m) (hplain : ∀ t ∈ m.tokens, t.Plain)
    (ho : o.discard = true) (happend : o.appendLiterals = false) :
    (∀ (v w : List Char) (start stop start' stop' start'' stop'' : Nat),
      (m.apply ((m.apply v start stop).text ++ w) start' stop').text =
          (m.apply (v ++ w) start'' stop'').text ∧
        (m.apply ((m.apply v start stop).text ++ w) start' stop').complete =
          (m.apply (v ++ w) start'' stop'').complete) ∧
      ∀ (pieces : List (List Char × Nat × Nat)) (start stop : Nat),
        pieces.foldl (fun text piece => (m.apply (text ++ piece.1) piece.2.1 piece.2.2).text) [] =
          (m.apply (pieces.flatMap Prod.fst) start stop).text := by
  constructor
  · exact Mask.apply_text_append hm hplain ho happend
  · intro pieces start stop
    have hempty : (m.apply [] start stop).text = [] :=
      (Mask.apply_pressed hm hplain ho happend [] start stop).1
    have htyped := Mask.foldl_typed hm hplain ho happend pieces [] start stop
    rwa [hempty, List.nil_append] at htyped

/-- The first piece has a character left out and a literal filled in, and the second skips a
class. -/
theorem Mask.typed_eq_pasted_skipping :
    ∃ m, Mask.ofSource "<d!-d>".toList = .ok m ∧ (∀ t ∈ m.tokens, t.Plain) ∧
      (m.apply "a5".toList 1 2).text = "<5".toList ∧
        (m.apply ("<5".toList ++ "x>".toList) 0 0).text =
            (m.apply ("a5".toList ++ "x>".toList) 4 4).text ∧
          (m.apply ("<5".toList ++ "x>".toList) 0 0).complete =
            (m.apply ("a5".toList ++ "x>".toList) 4 4).complete := by
  obtain ⟨m, hm, hcheck⟩ := Mask.exists_of_ofSource
    (show (Mask.ofSource "<d!-d>".toList).toOption.any (fun m =>
      decide ((∀ t ∈ m.tokens, t.Plain) ∧ (m.apply "a5".toList 1 2).text = "<5".toList)) = true by
        decide +kernel)
  obtain ⟨hplain, htext⟩ := of_decide_eq_true hcheck
  have htyped := (Mask.typed_eq_pasted hm hplain rfl rfl).1 "a5".toList "x>".toList 1 2 0 0 4 4
  rw [htext] at htyped
  exact ⟨m, hm, hplain, htext, htyped⟩

namespace TextField

/-- Typing behind the text of a field is fitting the text with what is typed, with the cursor at its
end. -/
theorem typeOn_text (f : TextField) (piece : List Char) :
    (f.typeOn piece).text = (f.mask.apply (f.text ++ piece) (f.text.length + piece.length)
      (f.text.length + piece.length)).text := by
  simp [typeOn, edit, edited, select, splice]

/-- A field in which pieces are typed one behind the other ends with the text that pasting all of
them at once leaves. -/
theorem foldl_typeOn_text {source : List Char} {o : Options} {m : Mask}
    (hm : Mask.ofSource source o = .ok m) (hplain : ∀ t ∈ m.tokens, t.Plain)
    (ho : o.discard = true) (happend : o.appendLiterals = false) (pieces : List (List Char)) :
    (pieces.foldl typeOn { mask := m }).text = (typeOn { mask := m } pieces.flatten).text := by
  -- every field on the way has the text of what was typed so far
  have hfield : ∀ (f : TextField) (v : List Char), f.mask = m → f.text = (m.apply v 0 0).text →
      (pieces.foldl typeOn f).text = (m.apply (v ++ pieces.flatten) 0 0).text := by
    induction pieces with
    | nil =>
      intro f v hmask htext
      rw [List.foldl_nil, List.flatten_nil, List.append_nil, htext]
    | cons piece pieces ih =>
      intro f v hmask htext
      have htyped : (f.typeOn piece).text = (m.apply (v ++ piece) 0 0).text := by
        rw [typeOn_text, hmask, htext]
        exact (Mask.apply_text_append hm hplain ho happend v piece 0 0 _ _ 0 0).1
      rw [List.foldl_cons, List.flatten_cons, ← List.append_assoc]
      exact ih (f.typeOn piece) (v ++ piece) hmask htyped
  have hempty : (m.apply [] 0 0).text = [] := (Mask.apply_pressed hm hplain ho happend [] 0 0).1
  have hpasted := Mask.apply_text_append hm hplain ho happend [] pieces.flatten 0 0
    pieces.flatten.length pieces.flatten.length 0 0
  rw [hempty] at hpasted
  rw [hfield { mask := m } [] rfl hempty.symm, typeOn_text]
  simpa using hpasted.1.symm

end TextField

end InputMask

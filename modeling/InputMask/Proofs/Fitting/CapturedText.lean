import InputMask.Proofs.HooklessMask
import InputMask.Proofs.Fitting.Heads

/-!
# What the captures hold

A fitting writes its text character by character, each for a leaf of the pattern. `writings` lists
the characters with their leaves, step by step; of the trials of a group's body it lists those that
are kept, that is, the ones that succeed, since the others are taken back. The text is all that was
written, and the runs of characters among the captures are what was written for classes within
groups (`Draft.Adds`, kept from step to step by `Draft.step_adds` and put together along a fitting
by `Draft.addsWritings_fit`).

A run that has not ended counts as captured within a group only (`Draft.captured`), where the next
literal, the next group or the end of the body keeps it; outside of groups it is dropped.
-/

set_option autoImplicit false

namespace InputMask

/-! ## Runs -/

namespace Capture

mutual

/-- The runs of characters in a capture, at any depth, from left to right. -/
def runs : Capture → List (List Char)
  | run text => [text]
  | unmatched => []
  | matched entries => runsOf entries

/-- The runs of characters in some captures, at any depth, from left to right. -/
def runsOf : List Capture → List (List Char)
  | [] => []
  | e :: es => runs e ++ runsOf es

end

/-- The runs in two lists of captures are those of the one and then of the other. -/
theorem runsOf_append (es fs : List Capture) : runsOf (es ++ fs) = runsOf es ++ runsOf fs := by
  induction es with
  | nil => rfl
  | cons e es ih => rw [List.cons_append, runsOf, runsOf, ih, List.append_assoc]

/-- The characters that some captures hold, at any depth, from left to right. -/
def textOf (captures : List Capture) : List Char := (runsOf captures).flatten

/-- The text in two lists of captures is that of the one and then of the other. -/
theorem textOf_append (es fs : List Capture) : textOf (es ++ fs) = textOf es ++ textOf fs := by
  rw [textOf, runsOf_append, List.flatten_append]
  rfl

/-- The runs in the slot of a group are those of what was captured in it, if it matched. -/
theorem runsOf_slot (captured : Option (List Capture)) :
    runsOf [slot captured] = runsOf (captured.getD []) := by
  cases captured with
  | none => rfl
  | some entries => exact List.append_nil _

/-- None of the runs in some captures is empty. -/
def NoRunEmpty (captures : List Capture) : Prop := ∀ text ∈ runsOf captures, text ≠ []

/-- Two lists of captures have no empty run together exactly if neither has one. -/
theorem noRunEmpty_append {es fs : List Capture} :
    NoRunEmpty (es ++ fs) ↔ NoRunEmpty es ∧ NoRunEmpty fs := by
  unfold NoRunEmpty
  rw [runsOf_append, List.forall_mem_append]

end Capture

open Capture (runsOf textOf NoRunEmpty)

/-! ## Writings -/

/-- A leaf is among some tokens, or in that many groups among them. -/
inductive Token.HasLeaf (l : Leaf) : Nat → List Token → Prop
  | here {tokens : List Token} {q : Quantifier} {s : Span} (h : .leaf l q s ∈ tokens) :
      HasLeaf l 0 tokens
  | inGroup {nesting : Nat} {tokens body : List Token} {q : Quantifier} {s : Span}
      (h : .group body q s ∈ tokens) (hbody : HasLeaf l nesting body) :
      HasLeaf l (nesting + 1) tokens

/-- A character that was written, and the leaf that it was written for. -/
structure Writing where
  char : Char
  leaf : Leaf
  /-- The number of groups that the leaf is in. -/
  nesting : Nat

namespace Writing

/-- The writing as it is seen from outside of one more group. -/
def inGroup (w : Writing) : Writing := { w with nesting := w.nesting + 1 }

/-- Whether it was written for a class within a group, in a pattern that is itself in a number of
groups. -/
def isCaptured (outer : Nat) (w : Writing) : Bool :=
  match w.leaf with
  | .ofClass _ => decide (0 < outer + w.nesting)
  | .literal _ => false

/-- The leaf is one of a pattern's, in as many groups as it is said to be, and accepts the
character. -/
def IsPlacedIn (tokens : List Token) (w : Writing) : Prop :=
  Token.HasLeaf w.leaf w.nesting tokens ∧ w.leaf.accepts w.char = true

/-- The characters of some writings. -/
def text (ws : List Writing) : List Char := ws.map char

/-- The characters that were written for classes within groups. -/
def capturedText (outer : Nat) (ws : List Writing) : List Char :=
  text (ws.filter (isCaptured outer))

/-- The text of writings is put together from that of their parts. -/
theorem text_append (xs ys : List Writing) : text (xs ++ ys) = text xs ++ text ys :=
  List.map_append

/-- The captured text of writings is put together from that of their parts. -/
theorem capturedText_append (outer : Nat) (xs ys : List Writing) :
    capturedText outer (xs ++ ys) = capturedText outer xs ++ capturedText outer ys := by
  rw [capturedText, List.filter_append, text_append]
  rfl

/-- In a group, the same text is written. -/
theorem text_inGroup (ws : List Writing) : text (ws.map inGroup) = text ws := by
  rw [text, List.map_map]
  rfl

/-- A group around a leaf counts the same whether it is in the pattern or around the pattern. -/
theorem capturedText_inGroup (outer : Nat) (ws : List Writing) :
    capturedText outer (ws.map inGroup) = capturedText (outer + 1) ws := by
  have hsame : isCaptured outer ∘ inGroup = isCaptured (outer + 1) := by
    funext w
    simp only [Function.comp, isCaptured, inGroup]
    split <;> grind
  rw [capturedText, List.filter_map, hsame]
  exact text_inGroup _

/-- What is captured is part of what is written, in the same order. -/
theorem capturedText_sublist (outer : Nat) (ws : List Writing) :
    List.Sublist (capturedText outer ws) (text ws) := List.filter_sublist.map char

end Writing

namespace Draft

/-- What a step at a leaf writes: the characters that come to be in the text. -/
def leafWritings (d : Draft) (l : Leaf) (r : Step) : List Writing :=
  (r.draft.text.drop d.text.length).map fun c => ⟨c, l, 0⟩

/-- What is written in the trials of a body that are kept, given what one fitting of it writes: in
the first trial if it succeeds and, where trials repeat, in those after a success that took
something from the value. -/
def trialWritings (value : List Char) (fitBody : Draft → Draft)
    (bodyWritings : Draft → List Writing) (repeats : Bool) (d : Draft) : List Writing :=
  let after := fitBody { d with tokenIndex := 0 }
  if after.complete then
    bodyWritings { d with tokenIndex := 0 } ++
      if _h : repeats = true ∧ d.valueIndex < after.valueIndex ∧
          after.valueIndex ≤ value.length then
        trialWritings value fitBody bodyWritings repeats after
      else []
  else []
termination_by value.length - d.valueIndex
decreasing_by exact Nat.sub_lt_sub_left (Nat.lt_of_lt_of_le _h.2.1 _h.2.2) _h.2.1

/-- What a step at a token writes: at a group, what is written in the trials that are kept. -/
def stepWritings (o : Options) (value : List Char) (tokens : List Token)
    (bodyWritings : Draft → List Writing) (d : Draft) : Token → List Writing
  | .leaf l q s => d.leafWritings l (d.step o value tokens id (.leaf l q s))
  | .group body q _ =>
    if d.rejects o tokens value[d.valueIndex]? then []
    else
      (trialWritings value (fit o value body) bodyWritings q.repeats d.endCapture.openScope).map
        .inGroup

/-- What is written in stepping through tokens. The list `bodyWritings` has, token by token, what is
written in fitting a group's body. -/
def walkWritings (o : Options) (value : List Char) (tokens : List Token)
    (bodyWritings : List (Draft → List Writing)) (d : Draft) : List Writing :=
  match _ht : tokens[d.tokenIndex]? with
  | none => []
  | some t =>
    d.stepWritings o value tokens (bodyWritings[d.tokenIndex]?.getD fun _ => []) t ++
      match _h : d.step o value tokens (Token.fitBody o value t) t with
      | .stop _ => []
      | .goOn d' => walkWritings o value tokens bodyWritings d'
termination_by remaining value tokens d
decreasing_by exact remaining_lt (List.getElem?_eq_some_iff.1 _ht).1 (step_advances _h)

end Draft

mutual

/-- What is written in fitting the body of a group. -/
def Token.bodyWritings (o : Options) (value : List Char) : Token → Draft → List Writing
  | .leaf .., _ => []
  | .group body _ _, d => Draft.walkWritings o value body (bodiesWritings o value body) d.enter

/-- What is written in fitting the bodies of some tokens. -/
def bodiesWritings (o : Options) (value : List Char) : List Token → List (Draft → List Writing)
  | [] => []
  | t :: ts => Token.bodyWritings o value t :: bodiesWritings o value ts

end

/-- What is written in fitting a value to a list of tokens, and kept. -/
def writings (o : Options) (value : List Char) (tokens : List Token) (d : Draft) : List Writing :=
  Draft.walkWritings o value tokens (bodiesWritings o value tokens) d.enter

/-- What is written in the bodies of some tokens is what is written in each. -/
theorem bodiesWritings_eq_map (o : Options) (value : List Char) (tokens : List Token) :
    bodiesWritings o value tokens = tokens.map (Token.bodyWritings o value) := by
  induction tokens with
  | nil => rfl
  | cons t ts ih => rw [bodiesWritings, ih, List.map_cons]

namespace Draft

variable {d d' : Draft} {o : Options} {value : List Char} {tokens body : List Token} {t : Token}
  {fitBody : Draft → Draft} {bodyWritings : Draft → List Writing} {repeats matched : Bool}

/-! ## Reading the list -/

/-- What is written in stepping through tokens, with the bodies of groups fitted by their own
tokens. -/
def levelWritings (o : Options) (value : List Char) (tokens : List Token) (d : Draft) :
    List Writing := walkWritings o value tokens (bodiesWritings o value tokens) d

/-- Where the tokens have run out, nothing more is written. -/
theorem levelWritings_none (ht : tokens[d.tokenIndex]? = none) :
    levelWritings o value tokens d = [] := by
  rw [levelWritings, walkWritings]
  split
  · rfl
  · next t ht' =>
    rw [ht] at ht'
    cases ht'

/-- What is written from a draft on is what its step writes, and what is written from where the step
goes on. -/
theorem levelWritings_some (ht : tokens[d.tokenIndex]? = some t) :
    levelWritings o value tokens d =
      d.stepWritings o value tokens (Token.bodyWritings o value t) t ++
        match d.step o value tokens (Token.fitBody o value t) t with
        | .stop _ => []
        | .goOn d' => levelWritings o value tokens d' := by
  have hbody : ((bodiesWritings o value tokens)[d.tokenIndex]?.getD fun _ => []) =
      Token.bodyWritings o value t := by
    rw [bodiesWritings_eq_map, List.getElem?_map, ht, Option.map_some, Option.getD_some]
  rw [levelWritings, walkWritings]
  split
  · next ht' =>
    rw [ht] at ht'
    cases ht'
  · next t' ht' =>
    obtain rfl : t = t' := Option.some.inj (ht.symm.trans ht')
    rw [hbody]
    congr 1
    split <;> rename_i hstep <;> rw [hstep]
    rfl

/-- A trial that fails leaves nothing written. -/
theorem trialWritings_fail (h : (d.trial fitBody).complete = false) :
    trialWritings value fitBody bodyWritings repeats d = [] := by
  rw [trialWritings]
  exact if_neg (Bool.eq_false_iff.1 h)

/-- After a success that nothing follows, what was written is what this trial wrote. -/
theorem trialWritings_last (h : (d.trial fitBody).complete = true)
    (hlast : ¬(repeats = true ∧ d.valueIndex < (d.trial fitBody).valueIndex ∧
      (d.trial fitBody).valueIndex ≤ value.length)) :
    trialWritings value fitBody bodyWritings repeats d = bodyWritings d.rewind := by
  rw [trialWritings]
  refine (if_pos h).trans ((congrArg (bodyWritings d.rewind ++ ·) ?_).trans (List.append_nil _))
  exact dif_neg hlast

/-- After a success that took something, more is written by the trials that follow. -/
theorem trialWritings_more (h : (d.trial fitBody).complete = true)
    (hmore : d.valueIndex < (d.trial fitBody).valueIndex ∧
      (d.trial fitBody).valueIndex ≤ value.length) :
    trialWritings value fitBody bodyWritings true d =
      bodyWritings d.rewind ++ trialWritings value fitBody bodyWritings true (d.trial fitBody) := by
  rw [trialWritings]
  refine (if_pos h).trans (congrArg (bodyWritings d.rewind ++ ·) ?_)
  exact dif_pos ⟨rfl, hmore⟩

/-! ## What is captured so far -/

/-- The characters captured so far at the current level, with those of a run that has not ended if
it will be kept. -/
def captured (d : Draft) : List Char := textOf d.captures ++ if 1 < d.depth then d.pending else []

/-- Without a capture under way, the captured text is that of the captures. -/
theorem captured_of_pending (h : d.pending = []) : d.captured = textOf d.captures := by
  rw [captured, h, ite_self, List.append_nil]

/-- Once a capture has ended, none is under way. -/
theorem endCapture_pending (d : Draft) : d.endCapture.pending = [] := by
  unfold endCapture
  split
  · next hempty => exact List.isEmpty_iff.1 hempty
  · rfl

/-- From one draft to another, some writings were added for leaves of some tokens that are within a
number of groups; and no empty run was captured. -/
structure Adds (tokens : List Token) (outer : Nat) (ws : List Writing) (d d' : Draft) : Prop where
  placed : ∀ w ∈ ws, w.IsPlacedIn tokens
  text : d'.text = d.text ++ Writing.text ws
  captured : d'.captured = d.captured ++ Writing.capturedText outer ws
  runs : NoRunEmpty d.captures → NoRunEmpty d'.captures

section Adding

variable {d'' : Draft} {outer : Nat} {ws ws' : List Writing}

/-- Additions one after the other are additions together. -/
theorem Adds.trans (h : Adds tokens outer ws d d') (h' : Adds tokens outer ws' d' d'') :
    Adds tokens outer (ws ++ ws') d d'' where
  placed := List.forall_mem_append.2 ⟨h.placed, h'.placed⟩
  text := by rw [h'.text, h.text, Writing.text_append, List.append_assoc]
  captured := by rw [h'.captured, h.captured, Writing.capturedText_append, List.append_assoc]
  runs hd := h'.runs (h.runs hd)

/-- A step that adds nothing may follow. -/
theorem Adds.trans_nothing (h : Adds tokens outer ws d d') (h' : Adds tokens outer [] d' d'') :
    Adds tokens outer ws d d'' := by
  rw [← List.append_nil ws]
  exact h.trans h'

/-- A step that adds nothing may come first. -/
theorem Adds.nothing_trans (h : Adds tokens outer [] d d') (h' : Adds tokens outer ws d' d'') :
    Adds tokens outer ws d d'' := h.trans h'

/-- Where text, captures and level are the same, nothing was added. -/
theorem adds_nothing (htext : d'.text = d.text) (hcaptures : d'.captures = d.captures)
    (hpending : d'.pending = d.pending) (hdepth : d'.depth = d.depth) :
    Adds tokens outer [] d d' where
  placed := by simp
  text := htext.trans (List.append_nil _).symm
  captured := by
    rw [Draft.captured, hcaptures, hpending, hdepth]
    exact (List.append_nil _).symm
  runs := by rw [hcaptures]; exact id

/-- Ending a capture adds nothing: what it keeps was counted before. -/
theorem endCapture_adds (d : Draft) : Adds tokens outer [] d d.endCapture := by
  by_cases hempty : d.pending.isEmpty = true
  · have hsame : d.endCapture = d := if_pos hempty
    rw [hsame]
    exact adds_nothing rfl rfl rfl rfl
  · have hends : d.endCapture.captures =
        if 1 < d.depth then d.captures ++ [.run d.pending] else d.captures := by
      rw [endCapture, if_neg hempty]
    refine ⟨by simp, by simp [Writing.text], ?_, ?_⟩
    · rw [captured_of_pending (endCapture_pending d), hends, captured]
      split
      · rw [Capture.textOf_append]
        simp [textOf, runsOf, Capture.runs, Writing.capturedText, Writing.text]
      · simp [Writing.capturedText, Writing.text]
    · rw [hends]
      split
      · intro hruns
        rw [Capture.noRunEmpty_append]
        refine ⟨hruns, ?_⟩
        simpa [NoRunEmpty, runsOf, Capture.runs] using hempty
      · exact id

/-- Whether to stay at a token after a match adds nothing. -/
theorem afterMatch_adds (d : Draft) (q : Quantifier) :
    Adds tokens outer [] d (d.afterMatch q) := by
  unfold afterMatch
  split
  · exact adds_nothing rfl rfl rfl rfl
  · exact adds_nothing rfl rfl rfl rfl

/-- Leaving out a character adds nothing. -/
theorem dropChar_adds (d : Draft) (before : Bool) :
    Adds tokens outer [] d (d.dropChar before) := by
  unfold dropChar
  split
  · exact adds_nothing rfl rfl rfl rfl
  · exact adds_nothing rfl rfl rfl rfl

variable {c : Char} {l : Leaf} {q : Quantifier} {s : Span}

/-- A character that a leaf takes is captured if the leaf is a class within a group. -/
theorem take_adds (ht : .leaf l q s ∈ tokens) (hc : l.accepts c = true)
    (hlevel : d.depth = outer + 1) : Adds tokens outer [⟨c, l, 0⟩] d (d.take c l) := by
  have hplaced : ∀ w ∈ [(⟨c, l, 0⟩ : Writing)], w.IsPlacedIn tokens :=
    List.forall_mem_singleton.2 ⟨.here ht, hc⟩
  cases l with
  | ofClass k =>
    refine ⟨hplaced, rfl, ?_, id⟩
    simp only [captured, take, capture, write, Writing.capturedText, Writing.text, hlevel]
    by_cases houter : 0 < outer
    · simp [houter, Writing.isCaptured]
    · simp [houter, Writing.isCaptured]
  | literal b =>
    refine (endCapture_adds d).nothing_trans ⟨hplaced, rfl, ?_, id⟩
    exact (List.append_nil _).symm

/-- A literal that is filled in is not captured. -/
theorem fill_adds (ht : .leaf (.literal c) q s ∈ tokens) (hlevel : d.depth = outer + 1)
    (before : Bool) : Adds tokens outer [⟨c, .literal c, 0⟩] d (d.fill c before) := by
  refine (take_adds ht (beq_self_eq_true c) hlevel).trans_nothing ?_
  unfold fill
  split
  · exact adds_nothing rfl rfl rfl rfl
  · exact adds_nothing rfl rfl rfl rfl

/-! ## Steps at leaves -/

/-- A step at a leaf writes no character or one, for the leaf. -/
theorem exists_step_leaf_adds (o : Options) (value : List Char) (ht : .leaf l q s ∈ tokens)
    (hlevel : d.depth = outer + 1) :
    ∃ cs : List Char, Adds tokens outer (cs.map fun c => ⟨c, l, 0⟩) d
      (d.step o value tokens (Token.fitBody o value (.leaf l q s)) (.leaf l q s)).draft := by
  have hturn : Turn o value tokens (Token.fitBody o value (.leaf l q s)) d (.leaf l q s) _ :=
    step_turn (.leaf l q s)
  generalize d.step o value tokens (Token.fitBody o value (.leaf l q s)) (.leaf l q s) = r at hturn
  cases hturn with
  | discard hnext ho => exact ⟨[], dropChar_adds d _⟩
  | @take l q s c hnext hl =>
    have hread : Adds tokens outer [] (d.take c l) (d.take c l).passChar :=
      adds_nothing rfl rfl rfl rfl
    exact ⟨[c], ((take_adds ht hl hlevel).trans_nothing hread).trans_nothing (afterMatch_adds _ q)⟩
  | @fill c s h => exact ⟨[c], fill_adds ht hlevel _⟩
  | skip ho hnext hindex => exact ⟨[], adds_nothing rfl rfl rfl rfl⟩
  | leave h => exact ⟨[], adds_nothing rfl rfl rfl rfl⟩
  | stop => exact ⟨[], adds_nothing rfl rfl rfl rfl⟩

/-- A step at a leaf adds what it writes. -/
theorem step_leaf_adds (ht : .leaf l q s ∈ tokens) (hlevel : d.depth = outer + 1) :
    Adds tokens outer
      (d.stepWritings o value tokens (Token.bodyWritings o value (.leaf l q s)) (.leaf l q s)) d
      (d.step o value tokens (Token.fitBody o value (.leaf l q s)) (.leaf l q s)).draft := by
  obtain ⟨cs, hcs⟩ := exists_step_leaf_adds o value ht hlevel
  have hwritten : d.leafWritings l (d.step o value tokens
      (Token.fitBody o value (.leaf l q s)) (.leaf l q s)) = cs.map fun c => ⟨c, l, 0⟩ := by
    rw [leafWritings, hcs.text, List.drop_left, Writing.text, List.map_map, List.map_map]
    rfl
  rw [← hwritten] at hcs
  exact hcs

/-! ## Groups -/

/-- A fitting writes what `writings` says, and captures what it writes for classes if the tokens are
within a group. -/
def AddsWritings (o : Options) (value : List Char) (tokens : List Token) : Prop :=
  ∀ d : Draft, d.pending = [] →
    Adds tokens d.depth (writings o value tokens d) d (fit o value tokens d)

/-- What some trials of a body come to, given what was written in those that were kept. -/
structure Kept (body : List Token) (ws : List Writing) (d : Draft)
    (r : Option (List Capture) × Draft) : Prop where
  placed : ∀ w ∈ ws, w.IsPlacedIn body
  text : r.2.text = d.text ++ Writing.text ws
  pending : r.2.pending = []
  captured : textOf (r.1.getD []) = textOf d.captures ++ Writing.capturedText d.depth ws
  runs : NoRunEmpty d.captures → NoRunEmpty (r.1.getD [])

/-- No capture is under way after a fitting. -/
theorem fit_pending (o : Options) (value : List Char) (tokens : List Token) (d : Draft) :
    (fit o value tokens d).pending = [] := endCapture_pending _

/-- A trial that is taken back keeps nothing of what it wrote. -/
theorem kept_nothing {r : Option (List Capture) × Draft} (htext : r.2.text = d.text)
    (hpending : r.2.pending = []) (hcaptures : r.1.getD [] = d.captures) :
    Kept body [] d r where
  placed := by simp
  text := htext.trans (List.append_nil _).symm
  pending := hpending
  captured := by rw [hcaptures]; exact (List.append_nil _).symm
  runs := by rw [hcaptures]; exact id

/-- A trial that succeeds keeps what it wrote, and all that is kept after it. -/
theorem AddsWritings.kept {r : Option (List Capture) × Draft} (hbody : AddsWritings o value body)
    (hpending : d.pending = []) (h : Kept body ws (d.trial (fit o value body)) r) :
    Kept body (writings o value body d.rewind ++ ws) d r := by
  have htrial : Adds body d.depth (writings o value body d.rewind) d.rewind
      (d.trial (fit o value body)) := hbody d.rewind hpending
  have hdepth : (d.trial (fit o value body)).depth = d.depth := keepsLevel_fit o value body d.rewind
  have hcaptured : textOf (d.trial (fit o value body)).captures =
      textOf d.captures ++ Writing.capturedText d.depth (writings o value body d.rewind) := by
    have hends : (d.trial (fit o value body)).captured =
        textOf (d.trial (fit o value body)).captures :=
      captured_of_pending (fit_pending o value body d.rewind)
    rw [← hends, htrial.captured, captured_of_pending (d := d.rewind) hpending]
    rfl
  refine ⟨List.forall_mem_append.2 ⟨htrial.placed, h.placed⟩, ?_, h.pending, ?_, ?_⟩
  · rw [h.text, htrial.text, Writing.text_append, List.append_assoc]
    rfl
  · rw [h.captured, hdepth, hcaptured, Writing.capturedText_append, List.append_assoc]
  · exact fun hruns => h.runs (htrial.runs hruns)

/-- A single trial keeps what it wrote if it succeeds, and nothing otherwise. -/
theorem tryOnce_kept (hbody : AddsWritings o value body) (hpending : d.pending = [])
    (hcaptures : d.captures = []) :
    Kept body (trialWritings value (fit o value body) (writings o value body) false d) d
      (d.tryOnce (fit o value body)) := by
  cases hcomplete : (d.trial (fit o value body)).complete with
  | false =>
    rw [trialWritings_fail hcomplete, tryOnce_fail hcomplete]
    exact kept_nothing rfl rfl hcaptures.symm
  | true =>
    rw [trialWritings_last hcomplete fun h => Bool.noConfusion h.1, tryOnce_pass hcomplete,
      ← List.append_nil (writings o value body d.rewind)]
    exact hbody.kept hpending (kept_nothing rfl (fit_pending o value body _) rfl)

/-- Of repeated trials, those up to the last success are kept. -/
theorem tryRepeatedly_kept (hbody : AddsWritings o value body) (hpending : d.pending = [])
    (hcaptures : matched = false → d.captures = []) :
    Kept body (trialWritings value (fit o value body) (writings o value body) true d) d
      (tryRepeatedly value (fit o value body) matched d) := by
  induction matched, d using trialInduction value (fit o value body) with
  | hfail matched d hcomplete =>
    rw [trialWritings_fail hcomplete, tryRepeatedly_fail hcomplete]
    refine kept_nothing rfl rfl ?_
    cases matched with
    | true => rfl
    | false => exact (hcaptures rfl).symm
  | hmore matched d hcomplete hadvances ih =>
    rw [trialWritings_more hcomplete hadvances, tryRepeatedly_more hcomplete hadvances]
    exact hbody.kept hpending (ih (fit_pending o value body _) fun h => Bool.noConfusion h)
  | hlast matched d hcomplete hstays =>
    rw [trialWritings_last hcomplete fun h => hstays h.2, tryRepeatedly_last hcomplete hstays,
      ← List.append_nil (writings o value body d.rewind)]
    exact hbody.kept hpending (kept_nothing rfl rfl rfl)

/-- The trials that a quantifier asks for keep what their successes wrote. -/
theorem trials_kept (hbody : AddsWritings o value body) (hpending : d.pending = [])
    (hcaptures : d.captures = []) (q : Quantifier) :
    Kept body (trialWritings value (fit o value body) (writings o value body) q.repeats d) d
      (d.trials value (fit o value body) q) := by
  unfold trials
  cases q.repeats with
  | true => exact tryRepeatedly_kept hbody hpending fun _ => hcaptures
  | false => exact tryOnce_kept hbody hpending hcaptures

/-- What the trials of a group keep is added to the slot of the group. -/
theorem fitGroup_adds (hbody : AddsWritings o value body) (ht : .group body q s ∈ tokens)
    (hlevel : d.depth = outer + 1) :
    Adds tokens outer
      ((trialWritings value (fit o value body) (writings o value body) q.repeats
        d.endCapture.openScope).map .inGroup) d
      (d.fitGroup value (fit o value body) q).draft := by
  have hdepth : d.endCapture.openScope.depth = d.depth := endCapture_depth
  have hkept := trials_kept hbody (d := d.endCapture.openScope) (endCapture_pending d) rfl q
  generalize trialWritings value (fit o value body) (writings o value body) q.repeats
    d.endCapture.openScope = ws at hkept ⊢
  rw [fitGroup_draft]
  generalize d.endCapture.openScope.trials value (fit o value body) q = r at hkept
  refine (endCapture_adds d).nothing_trans ⟨?_, ?_, ?_, ?_⟩
  · intro w hw
    obtain ⟨v, hv, rfl⟩ := List.mem_map.1 hw
    obtain ⟨hleaf, hchar⟩ := hkept.placed v hv
    exact ⟨.inGroup ht hleaf, hchar⟩
  · rw [Writing.text_inGroup]
    exact hkept.text
  · have hslot : textOf [.slot r.1] = Writing.capturedText (outer + 1) ws := by
      rw [textOf, Capture.runsOf_slot, ← hlevel, ← hdepth]
      exact hkept.captured
    have hends : (r.2.closeScope d.endCapture r.1).pending = [] := hkept.pending
    rw [Writing.capturedText_inGroup, ← hslot, captured_of_pending (endCapture_pending d),
      captured_of_pending hends]
    exact Capture.textOf_append _ _
  · intro hruns
    refine Capture.noRunEmpty_append.2 ⟨hruns, ?_⟩
    rw [NoRunEmpty, Capture.runsOf_slot]
    exact hkept.runs fun _ hnone => by cases hnone

/-! ## Whole fittings -/

/-- A step adds what `stepWritings` lists. -/
theorem step_adds (ht : t ∈ tokens) (hlevel : d.depth = outer + 1)
    (hbody : ∀ body q s, t = .group body q s → AddsWritings o value body) :
    Adds tokens outer (d.stepWritings o value tokens (Token.bodyWritings o value t) t) d
      (d.step o value tokens (Token.fitBody o value t) t).draft := by
  cases t with
  | leaf l q s => exact step_leaf_adds ht hlevel
  | group body q s =>
    rw [stepWritings]
    cases hrejects : d.rejects o tokens value[d.valueIndex]? with
    | true =>
      rw [if_pos rfl, step_rejected hrejects]
      split
      · exact dropChar_adds d _
      · exact adds_nothing rfl rfl rfl rfl
    | false =>
      rw [if_neg Bool.false_ne_true, step_group hrejects]
      exact fitGroup_adds (hbody body q s rfl) ht hlevel

/-- Stepping through tokens adds what is written there, if fitting the bodies of groups does. -/
theorem walk_adds (hbody : ∀ body q s, .group body q s ∈ tokens → AddsWritings o value body)
    (hlevel : d.depth = outer + 1) :
    Adds tokens outer (levelWritings o value tokens d) d
      (walk o value tokens (fitBodies o value tokens) d).draft := by
  have hstep : ∀ (e : Draft) (t : Token), tokens[e.tokenIndex]? = some t →
      e.depth = outer + 1 →
      Adds tokens outer (e.stepWritings o value tokens (Token.bodyWritings o value t) t) e
        (e.step o value tokens (Token.fitBody o value t) t).draft := by
    intro e t ht he
    have hmem := List.mem_of_getElem? ht
    exact step_adds hmem he fun body q s hgroup => hbody body q s (hgroup ▸ hmem)
  induction d using stepInduction o value tokens with
  | hend d ht =>
    rw [levelWritings_none ht, walk_none ht]
    exact adds_nothing rfl rfl rfl rfl
  | hstop d t d' ht hstops =>
    have hadds := hstep d t ht hlevel
    rw [levelWritings_some ht, walk_stop ht hstops]
    rw [hstops] at hadds ⊢
    rw [List.append_nil]
    exact hadds
  | hgo d t d' ht hgo ih =>
    have hadds := hstep d t ht hlevel
    rw [levelWritings_some ht, walk_goOn ht hgo]
    rw [hgo] at hadds ⊢
    exact hadds.trans (ih ((step_goOn_depth hgo).trans hlevel))

/-- Every fitting writes what `writings` says: the induction is on the pattern, from the bodies of
its groups to the whole. -/
theorem addsWritings_fit (o : Options) (value : List Char) (tokens : List Token) :
    AddsWritings o value tokens := by
  induction tokens using Token.groupInduction with
  | h tokens ih =>
    intro d hpending
    have hwalk : Adds tokens d.depth (writings o value tokens d) d.enter
        (d.walked o value tokens).draft := walk_adds ih rfl
    have hends : Adds tokens d.depth (writings o value tokens d) d.enter
        (d.walked o value tokens).draft.endCapture := hwalk.trans_nothing (endCapture_adds _)
    refine ⟨hends.placed, hends.text, ?_, hends.runs⟩
    have hcaptured := hends.captured
    rw [captured_of_pending (endCapture_pending _), captured_of_pending (d := d.enter) hpending]
      at hcaptured
    rw [captured_of_pending (fit_pending o value tokens d), captured_of_pending hpending]
    exact hcaptured

end Adding

end Draft

/-! ## The captures of an outcome -/

/-- The text and the captures of an outcome hold what was written for the leaves of a mask. -/
structure Outcome.HoldsWritings (r : Outcome) (m : Mask) (ws : List Writing) : Prop where
  /-- Each character was written for a leaf of the mask that accepts it. -/
  placed : ∀ w ∈ ws, w.IsPlacedIn m.tokens
  /-- The text is all that was written, in order. -/
  text : r.text = Writing.text ws
  /-- The runs among the captures are, one after the other, what was written for classes within
  groups. -/
  captures : textOf r.captures = Writing.capturedText 0 ws
  /-- So they are in the text, in the same order. -/
  sublist : List.Sublist (textOf r.captures) r.text
  /-- Every run has characters. -/
  runs : NoRunEmpty r.captures

/-- What is written in fitting a value to a mask without hooks, and kept. -/
def Mask.writings (m : Mask) (value : List Char) (start stop : Nat) : List Writing :=
  InputMask.writings m.options value m.tokens (.ofSelection start stop)

/-- What a mask captures is exactly what classes within its groups have taken, in trials that were
kept. -/
theorem Mask.captures_eq_writings {source : List Char} {o : Options} {m : Mask}
    (hm : Mask.ofSource source o = .ok m) (value : List Char) (start stop : Nat) :
    (m.apply value start stop).HoldsWritings m (m.writings value start stop) := by
  obtain ⟨-, hoptions, -, -⟩ := Mask.eq_of_ofSource hm
  have hadds := Draft.addsWritings_fit m.options value m.tokens (.ofSelection start stop) rfl
  rw [Mask.apply_of_ofSource hm, ← hoptions]
  have htext : (fit m.options value m.tokens (.ofSelection start stop)).text =
      Writing.text (m.writings value start stop) := hadds.text
  have hcaptures : textOf (fit m.options value m.tokens (.ofSelection start stop)).captures =
      Writing.capturedText 0 (m.writings value start stop) := by
    have hcaptured := hadds.captured
    rwa [Draft.captured_of_pending (Draft.fit_pending _ _ _ _)] at hcaptured
  refine ⟨hadds.placed, htext, hcaptures, ?_, ?_⟩
  · have hsublist := Writing.capturedText_sublist 0 (m.writings value start stop)
    rwa [← htext, ← hcaptures] at hsublist
  · exact hadds.runs fun _ hnone => by cases hnone

/-- The second trial of the group reads a seven and fails; then the class after the group reads
it. -/
theorem Mask.captures_eq_writings_repeated :
    ∃ m, Mask.ofSource "<(d-!)*d>x!".toList = .ok m ∧
      (m.apply "5-?6-7>y".toList 0 0).captures = [.matched [.run ['5'], .run ['6']]] ∧
        (m.apply "5-?6-7>y".toList 0 0).HoldsWritings m (m.writings "5-?6-7>y".toList 0 0) := by
  obtain ⟨m, hm, hcaptures⟩ := Mask.exists_of_ofSource
    (show (Mask.ofSource "<(d-!)*d>x!".toList).toOption.any
      (fun m => decide ((m.apply "5-?6-7>y".toList 0 0).captures =
        [.matched [.run ['5'], .run ['6']]])) = true by decide +kernel)
  exact ⟨m, hm, of_decide_eq_true hcaptures, Mask.captures_eq_writings hm _ _ _⟩

end InputMask

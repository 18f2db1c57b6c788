import InputMask.Proofs.Fitting.Slots
import InputMask.Proofs.Fitting.CapturedText
import InputMask.Proofs.Fitting.Arrivals
import InputMask.Hook

/-!
# Drafts that are used again

A draft can be fitted to one pattern after another, with other values, and changed in between.
However it came about, it is at rest when no fitting is under way (`Draft.AtRest`), and each fitting
only adds to it: it moves on in the pattern and in the value as far as these go, writes and captures
after what is there already, captures nothing but the slots of groups, and moves both ends of the
selection alike (`Draft.Extends`).

A step outside of groups extends a draft (`Draft.step_extends`), so stepping on does
(`Draft.walk_extends`), and what operations there were before makes no difference
(`Draft.atRest_of_operations`). Hooks that are made of actions are such operations, so a mask may
have any of them (`Mask.passage_of_actions`).
-/

set_option autoImplicit false

namespace InputMask

namespace Draft

variable {d d' d'' : Draft} {o : Options} {value : List Char} {tokens : List Token} {t : Token}

/-! ## What is added to a draft -/

/-- A draft has come from another by additions: further on in some tokens and in a value, if it was
not at their end or beyond, with more text, more slots, and the selection moved as a whole. -/
structure Extends (value : List Char) (tokens : List Token) (d d' : Draft) : Prop where
  tokenIndex_ge : d.tokenIndex ≤ d'.tokenIndex
  tokenIndex_le : d'.tokenIndex ≤ max d.tokenIndex tokens.length
  valueIndex_ge : d.valueIndex ≤ d'.valueIndex
  valueIndex_le : d'.valueIndex ≤ max d.valueIndex value.length
  text : d.text <+: d'.text
  captures : ∃ entries, d'.captures = d.captures ++ entries ∧ ∀ e ∈ entries, e.isRun = false
  extent : d'.selection.stop - d'.selection.start = d.selection.stop - d.selection.start

/-- A draft has come from itself, by no addition. -/
theorem extends_refl (value : List Char) (tokens : List Token) (d : Draft) :
    Extends value tokens d d where
  tokenIndex_ge := le_rfl
  tokenIndex_le := le_max_left _ _
  valueIndex_ge := le_rfl
  valueIndex_le := le_max_left _ _
  text := List.prefix_rfl
  captures := ⟨[], (List.append_nil _).symm, List.forall_mem_nil _⟩
  extent := rfl

/-- Additions to a draft that was itself added to are additions to the first. -/
theorem Extends.trans (h : Extends value tokens d d') (h' : Extends value tokens d' d'') :
    Extends value tokens d d'' where
  tokenIndex_ge := h.tokenIndex_ge.trans h'.tokenIndex_ge
  tokenIndex_le := h'.tokenIndex_le.trans (max_le h.tokenIndex_le (le_max_right _ _))
  valueIndex_ge := h.valueIndex_ge.trans h'.valueIndex_ge
  valueIndex_le := h'.valueIndex_le.trans (max_le h.valueIndex_le (le_max_right _ _))
  text := h.text.trans h'.text
  captures := by
    obtain ⟨entries, hentries, hslots⟩ := h.captures
    obtain ⟨entries', hentries', hslots'⟩ := h'.captures
    refine ⟨entries ++ entries', ?_, List.forall_mem_append.2 ⟨hslots, hslots'⟩⟩
    rw [hentries', hentries, List.append_assoc]
  extent := h'.extent.trans h.extent

/-- Where events lead from one draft to another, it is enough to look at the pattern and at the
captures. -/
theorem Leads.extends {leaves : List (Leaf × Quantifier)} (h : Leads o value leaves d d')
    (hge : d.tokenIndex ≤ d'.tokenIndex) (hle : d'.tokenIndex ≤ max d.tokenIndex tokens.length)
    (hcaptures : ∃ entries, d'.captures = d.captures ++ entries ∧ ∀ e ∈ entries, e.isRun = false) :
    Extends value tokens d d' where
  tokenIndex_ge := hge
  tokenIndex_le := hle
  valueIndex_ge := h.valueIndex_ge
  valueIndex_le := h.valueIndex_le
  text := h.text_isPrefix
  captures := hcaptures
  extent := h.extent

/-! ## Steps outside of groups -/

/-- A step does not move back in the pattern, nor beyond its end. -/
theorem step_tokenIndex (o : Options) (value : List Char) (ht : tokens[d.tokenIndex]? = some t) :
    d.tokenIndex ≤ (d.step o value tokens (Token.fitBody o value t) t).draft.tokenIndex ∧
      (d.step o value tokens (Token.fitBody o value t) t).draft.tokenIndex ≤ tokens.length := by
  have hlt : d.tokenIndex < tokens.length := (List.getElem?_eq_some_iff.1 ht).1
  have hturn : Turn o value tokens (Token.fitBody o value t) d t _ := step_turn t
  generalize d.step o value tokens (Token.fitBody o value t) t = r at hturn
  cases hturn with
  | discard =>
    rw [Step.draft, dropChar_tokenIndex]
    exact ⟨le_rfl, hlt.le⟩
  | @take l q s c =>
    have htoken : (d.take c l).passChar.tokenIndex = d.tokenIndex := take_tokenIndex c l
    simp only [Step.draft, afterMatch]
    split
    · simp only [htoken]
      omega
    · simp only [passToken, htoken]
      omega
  | fill =>
    rw [Step.draft, fill_tokenIndex]
    omega
  | skip ho hnext hindex =>
    have hge := landing?_ge hindex
    have hle := landing?_lt hindex
    simp only [Step.draft, skipTo]
    omega
  | leave =>
    simp only [Step.draft, leave, passToken]
    omega
  | stop => exact ⟨le_rfl, hlt.le⟩
  | trial =>
    rw [fitGroup_draft]
    simp only [closeScope, endCapture_tokenIndex]
    omega

/-- Outside of groups, runs of characters are not kept. -/
theorem AddsRuns.captures_eq (h : AddsRuns d d') (hdepth : d.depth ≤ 1) :
    d'.captures = d.captures := by
  obtain ⟨runs, hcaptures, -, htop⟩ := h
  rw [hcaptures, htop hdepth, List.append_nil]

/-- Outside of groups, a step captures nothing, or the slot of a group. -/
theorem step_captures (hdepth : d.depth ≤ 1) :
    ∃ entries, (d.step o value tokens (Token.fitBody o value t) t).draft.captures =
      d.captures ++ entries ∧ ∀ e ∈ entries, e.isRun = false := by
  have hnothing : ∀ e : Draft, AddsRuns d e →
      ∃ entries, e.captures = d.captures ++ entries ∧ ∀ x ∈ entries, x.isRun = false := by
    intro e h
    exact ⟨[], by rw [h.captures_eq hdepth, List.append_nil], List.forall_mem_nil _⟩
  have hturn : Turn o value tokens (Token.fitBody o value t) d t _ := step_turn t
  generalize d.step o value tokens (Token.fitBody o value t) t = r at hturn
  cases hturn with
  | discard => exact hnothing _ (dropChar_addsRuns d _)
  | @take l q s c => exact hnothing _ (take_addsRuns d c l q)
  | fill => exact hnothing _ (fill_addsRuns d _ _)
  | skip => exact hnothing _ (addsRuns_of_eq rfl)
  | leave => exact hnothing _ (addsRuns_of_eq rfl)
  | stop => exact hnothing _ (addsRuns_of_eq rfl)
  | @trial body q s =>
    have houter := (endCapture_addsRuns d).captures_eq hdepth
    rw [fitGroup_draft, closeScope, houter]
    exact ⟨[.slot _], rfl, List.forall_mem_singleton.2 (Capture.isRun_slot _)⟩

/-- At the top level or above it, a step only adds to the draft. -/
theorem step_extends (ht : tokens[d.tokenIndex]? = some t) (hdepth : d.depth ≤ 1) :
    Extends value tokens d (d.step o value tokens (Token.fitBody o value t) t).draft := by
  obtain ⟨hge, hle⟩ := step_tokenIndex o value ht
  exact (step_leads (List.mem_of_getElem? ht) d).extends hge (hle.trans (le_max_right _ _))
    (step_captures hdepth)

/-! ## Whole fittings -/

/-- Stepping through tokens at the top level or above it only adds to the draft. -/
theorem walk_extends (o : Options) (value : List Char) (tokens : List Token)
    (hdepth : d.depth ≤ 1) :
    Extends value tokens d (walk o value tokens (fitBodies o value tokens) d).draft := by
  induction d using stepInduction o value tokens with
  | hend d ht =>
    rw [walk_none ht]
    exact extends_refl value tokens d
  | hstop d t d' ht hstop =>
    have hstep : Extends value tokens d _ := step_extends (o := o) ht hdepth
    rw [walk_stop ht hstop]
    rwa [hstop] at hstep
  | hgo d t d' ht hgo ih =>
    have hstep : Extends value tokens d _ := step_extends (o := o) ht hdepth
    rw [hgo] at hstep
    rw [walk_goOn ht hgo]
    exact hstep.trans (ih ((step_goOn_depth hgo).trans_le hdepth))

/-- A draft that no fitting is under way with. -/
structure AtRest (d : Draft) : Prop where
  length : d.length = d.text.length
  depth : d.depth = 0
  pending : d.pending = []

/-- A fitting that starts at rest ends at rest. -/
theorem AtRest.fit (h : d.AtRest) (o : Options) (value : List Char) (tokens : List Token) :
    (InputMask.fit o value tokens d).AtRest where
  length := fit_length o value tokens h.length
  depth := (keepsLevel_fit o value tokens d).trans h.depth
  pending := fit_pending o value tokens d

/-- A fitting of a draft at rest only adds to it. -/
theorem AtRest.extends (h : d.AtRest) (o : Options) (value : List Char) (tokens : List Token) :
    Extends value tokens d (InputMask.fit o value tokens d) := by
  have hlevel : d.enter.depth ≤ 1 := (congrArg (· + 1) h.depth).le
  obtain ⟨hge, hle, -, -, -, ⟨entries, hentries, hslots⟩, -⟩ := walk_extends o value tokens hlevel
  have hdepth : (d.walked o value tokens).draft.depth ≤ 1 := by
    have hkept := keepsLevel_fit o value tokens d
    rw [fit_depth, h.depth] at hkept
    omega
  have hcaptures : (InputMask.fit o value tokens d).captures =
      (d.walked o value tokens).draft.captures := (endCapture_addsRuns _).captures_eq hdepth
  have htoken : (InputMask.fit o value tokens d).tokenIndex =
      (d.walked o value tokens).draft.tokenIndex := endCapture_tokenIndex _
  refine (fit_leads o value tokens d).extends ?_ ?_ ⟨entries, ?_, hslots⟩
  · rw [htoken]
    exact hge
  · rw [htoken]
    exact hle
  · rw [hcaptures]
    exact hentries

/-! ## Operations -/

/-- What can be done with a draft from outside: its selection can be moved or set, its text can be
replaced, and a value can be fitted to some tokens with it. -/
inductive Operation where
  | shift (δ : Int)
  | select (start stop : Int)
  | setText (text : List Char)
  | fit (o : Options) (value : List Char) (tokens : List Token)

/-- The draft after an operation. -/
def perform (d : Draft) : Operation → Draft
  | .shift δ => d.shift δ
  | .select start stop => d.select start stop
  | .setText text => d.withText text
  | .fit o value tokens => InputMask.fit o value tokens d

/-- The draft that an evaluation starts from is at rest. -/
theorem atRest_ofSelection (start stop : Nat) : (ofSelection start stop).AtRest := ⟨rfl, rfl, rfl⟩

/-- An operation leaves a draft at rest. -/
theorem AtRest.perform (h : d.AtRest) (op : Operation) : (d.perform op).AtRest := by
  cases op with
  | shift δ => exact ⟨h.length, h.depth, h.pending⟩
  | select start stop => exact ⟨h.length, h.depth, h.pending⟩
  | setText text => exact ⟨rfl, h.depth, h.pending⟩
  | fit o value tokens => exact h.fit o value tokens

/-- So do any number of operations. -/
theorem AtRest.foldl_perform (h : d.AtRest) (ops : List Operation) :
    (ops.foldl Draft.perform d).AtRest := by
  induction ops generalizing d with
  | nil => exact h
  | cons op ops ih => exact ih (h.perform op)

/-- Whatever operations a draft has been through, it is at rest, and fitting a value only extends
it. -/
theorem atRest_of_operations (start stop : Nat) (ops : List Operation) :
    (ops.foldl perform (ofSelection start stop)).AtRest ∧
      ∀ o value tokens, Extends value tokens (ops.foldl perform (ofSelection start stop))
        (InputMask.fit o value tokens (ops.foldl perform (ofSelection start stop))) := by
  have hrest := (atRest_ofSelection start stop).foldl_perform ops
  exact ⟨hrest, hrest.extends⟩

/-! ## Hooks -/

/-- The selection of an outcome lies in its text if the draft is at rest. -/
theorem AtRest.outcome_le (h : d.AtRest) (value : List Char) :
    (d.outcome value).start ≤ (d.outcome value).text.length ∧
      (d.outcome value).stop ≤ (d.outcome value).text.length := by
  have hlength : d.length ≤ (d.outcome value).text.length := h.length.le
  exact ⟨(min_le_right _ _).trans hlength, (min_le_right _ _).trans hlength⟩

/-- An action before a value is fitted leaves the draft at rest. -/
theorem AtRest.doBefore (h : d.AtRest) (value : List Char) (a : Action) :
    (Action.doBefore (value, d) a).2.AtRest := by
  cases a with
  | shift δ => exact h.perform (.shift δ)
  | select start stop => exact h.perform (.select start stop)
  | setText text => exact h.perform (.setText text)
  | replace old new => exact h
  | append text => exact h

/-- An action after a value was fitted leaves the draft at rest. -/
theorem AtRest.doAfter (h : d.AtRest) (a : Action) : (Action.doAfter d a).AtRest := by
  cases a with
  | shift δ => exact h.perform (.shift δ)
  | select start stop => exact h.perform (.select start stop)
  | setText text => exact h.perform (.setText text)
  | replace old new => exact h.perform (.setText _)
  | append text => exact h.perform (.setText _)

/-- So does a hook made of actions that acts before. -/
theorem AtRest.beforeHook (h : d.AtRest) (actions : List Action) (value : List Char) :
    (Action.beforeHook actions value d).2.AtRest := by
  unfold Action.beforeHook
  induction actions generalizing value d with
  | nil => exact h
  | cons a actions ih => exact ih (h.doBefore value a) _

/-- And so does one that acts after. -/
theorem AtRest.afterHook (h : d.AtRest) (actions : List Action) :
    (Action.afterHook actions d).AtRest := by
  unfold Action.afterHook
  induction actions generalizing d with
  | nil => exact h
  | cons a actions ih => exact ih (h.doAfter a)

end Draft

/-- In a mask whose hooks are made of actions, fitting extends the draft that the first hook leaves:
text that was set there stays in front of what is written. Whatever the second hook makes of it, the
selection of the outcome lies in its text. -/
theorem Mask.passage_of_actions {m : Mask} {before after : List Action}
    (hbefore : m.before = some (Action.beforeHook before))
    (hafter : m.after = some (Action.afterHook after)) (value : List Char) (start stop : Nat) :
    Draft.Extends (m.passage value start stop).value m.tokens
        (Action.beforeHook before value (.ofSelection start stop)).2
        (m.passage value start stop).fitted ∧
      (m.passage value start stop).closing.AtRest ∧
        (m.apply value start stop).start ≤ (m.apply value start stop).text.length ∧
          (m.apply value start stop).stop ≤ (m.apply value start stop).text.length := by
  have hprepared := (Draft.atRest_ofSelection start stop).beforeHook before value
  have hclosing : (m.passage value start stop).closing.AtRest := by
    simp only [passage, hbefore, hafter]
    exact (hprepared.fit _ _ _).afterHook after
  refine ⟨?_, hclosing, hclosing.outcome_le _⟩
  simp only [passage, hbefore]
  exact hprepared.extends _ _ _

end InputMask

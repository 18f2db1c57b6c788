import InputMask.Proofs.Fitting.Demands
import InputMask.Proofs.Fitting.Heads
import InputMask.Proofs.Fitting.Satisfaction

/-!
# What the count of matches counts

A draft has one count of matches for all tokens and all levels. It is raised and taken back at
several places, and the trials of a group start it anew. Seen from a head, it counts the matches of
the current token and no others: going back over the heads before it (`Head.visit`) up to where
stepping came to the token, as many characters were taken as the count says, and these are the
latest that were taken at all (`Head.CountsOwn`).

Along a level, a step that stays at its token has just taken what it counts more, and one that moves
on leaves no count behind (`Draft.Counts.stays_or_moves`). A run of heads therefore ends with one
that departs, so that what comes next starts with a visit of its own (`Recorded`); this carries the
count across the trials of a group, whether or not they are taken back.
-/

set_option autoImplicit false

namespace InputMask

/-! ## Lists with their past -/

/-- What holds of each member of a list and what came before it, the latest first; the list itself
comes after some past. -/
def Along {α : Type} (P : List α → α → Prop) : List α → List α → Prop
  | _, [] => True
  | past, x :: xs => P past x ∧ Along P (x :: past) xs

section Lists

variable {α : Type} {P : List α → α → Prop} {past xs ys : List α}

/-- The second of two lists has the first in its past. -/
theorem along_append :
    Along P past (xs ++ ys) ↔ Along P past xs ∧ Along P (xs.reverse ++ past) ys := by
  induction xs generalizing past with
  | nil => simp [Along]
  | cons x xs ih => simp only [List.cons_append, Along, ih, List.reverse_cons, List.append_assoc,
      List.nil_append, and_assoc]

/-- At an index, the past is what stands before it, the latest first. -/
theorem Along.of_getElem? (h : Along P past xs) {i : Nat} {x : α} (hx : xs[i]? = some x) :
    P ((xs.take i).reverse ++ past) x := by
  obtain ⟨hlt, rfl⟩ := List.getElem?_eq_some_iff.1 hx
  rw [← List.take_append_drop i xs, along_append, List.drop_eq_getElem_cons hlt] at h
  exact h.2.1

end Lists

/-- A token that occurs any number of times has one of two marks. -/
theorem Quantifier.repeats_iff {q : Quantifier} :
    q.repeats = true ↔ q = .zeroOrMore ∨ q = .oneOrMore := by
  cases q <;> simp [Quantifier.repeats]

/-! ## The visit of a token -/

namespace Head

/-- Whether the step at a head stays at its token and comes to another head. -/
def StaysFor (o : Options) (value : List Char) (h h' : Head) : Prop :=
  h'.tokens = h.tokens ∧ h'.draft.tokenIndex = h.draft.tokenIndex ∧
    h.draft.next? o value h.tokens = some (.goOn h'.draft)

/-- Whether a head is followed by another at the same token is decided by its next step. -/
instance (o : Options) (value : List Char) (h h' : Head) : Decidable (h.StaysFor o value h') :=
  inferInstanceAs (Decidable (_ ∧ _ ∧ _))

/-- The heads since stepping came to the token of a head, out of all heads before it; the latest
first, as these are. -/
def visit (o : Options) (value : List Char) : List Head → Head → List Head
  | [], _ => []
  | e :: past, h => if e.StaysFor o value h then e :: visit o value past e else []

/-- The character that the step at a head takes for the current leaf, if it takes one. One that is
discarded is not taken. -/
def taken? (o : Options) (value : List Char) (h : Head) : Option Char :=
  match h.tokens[h.draft.tokenIndex]? with
  | some (.leaf l q _) =>
    value[h.draft.valueIndex]?.filter fun c => l.accepts c &&
      decide (h.draft.next? o value h.tokens =
        some (.goOn ((h.draft.take c l).passChar.afterMatch q)))
  | _ => none

/-- The characters that the token of a head has taken since stepping came to it, the latest
first. -/
def matched (o : Options) (value : List Char) (past : List Head) (h : Head) : List Char :=
  (visit o value past h).filterMap (taken? o value)

/-- The trials that the step at a head makes: the body that is fitted, and the draft it is fitted
from. -/
def trials (o : Options) (value : List Char) (h : Head) : List Head :=
  match h.tokens[h.draft.tokenIndex]? with
  | some (.group body q s) =>
    h.draft.stepHeads o value h.tokens (fun d => [⟨body, d⟩]) (.group body q s)
  | _ => []

/-- The fitting that begins at a head starts without a count, and ends without one if it is
complete. -/
structure Uncounted (o : Options) (value : List Char) (h : Head) : Prop where
  start : h.draft.repeats = 0
  complete : (fit o value h.tokens h.draft).complete = true →
    (fit o value h.tokens h.draft).repeats = 0

/-- At a head, with the heads before it: the count of matches is that of the token, of what it has
taken since stepping came to it. -/
structure CountsOwn (o : Options) (value : List Char) (past : List Head) (h : Head) : Prop where
  /-- Only a leaf that repeats has matches that count. -/
  token : 0 < h.draft.repeats → ∃ l q s, h.tokens[h.draft.tokenIndex]? = some (.leaf l q s) ∧
    (q = .zeroOrMore ∨ q = .oneOrMore)
  /-- The heads of its visit are all at this token. -/
  visit : ∀ e ∈ h.visit o value past, e.tokens = h.tokens ∧ e.draft.tokenIndex = h.draft.tokenIndex
  /-- The count is that of the characters the token has taken. -/
  count : (h.matched o value past).length = h.draft.repeats
  /-- They are the latest that were taken, in trials as well. -/
  latest : (past.filterMap (taken? o value)).take h.draft.repeats = h.matched o value past
  /-- They are what the text ends with. -/
  text : ∃ front, h.draft.text = front ++ (h.matched o value past).reverse
  /-- A leaf that has to match is left only if it has taken a character itself. -/
  released : ∀ l s d', h.tokens[h.draft.tokenIndex]? = some (.leaf l .oneOrMore s) →
    h.draft.next? o value h.tokens = some (.goOn d') → d'.tokenIndex ≠ h.draft.tokenIndex →
      h.matched o value past ≠ []
  /-- Where the tokens run out, nothing is counted any more. -/
  runsOut : ∀ d', h.draft.next? o value h.tokens = some (.goOn d') →
    h.tokens[d'.tokenIndex]? = none → d'.repeats = 0
  /-- The trials of a group start without a count, and those that succeed end without one. -/
  trials : ∀ e ∈ h.trials o value, e.Uncounted o value

/-- The step at a head does not stay at its token. -/
def Departs (o : Options) (value : List Char) (h : Head) : Prop :=
  ∀ d', h.draft.next? o value h.tokens = some (.goOn d') → d'.tokenIndex ≠ h.draft.tokenIndex

/-- The latest head of a past departs. -/
def Quits (o : Options) (value : List Char) (past : List Head) : Prop :=
  ∀ e ∈ past.head?, e.Departs o value

variable {o : Options} {value : List Char} {past : List Head} {h h' : Head} {c : Char}

/-- A visit is the latest part of the past. -/
theorem visit_isPrefix (o : Options) (value : List Char) (past : List Head) (h : Head) :
    visit o value past h <+: past := by
  induction past generalizing h with
  | nil => exact List.nil_prefix
  | cons e past ih =>
    unfold visit
    split
    · exact List.cons_prefix_cons.2 ⟨rfl, ih e⟩
    · exact List.nil_prefix

/-- All heads of a visit are at the token of the head that it leads up to. -/
theorem token_of_mem_visit {e : Head} (he : e ∈ visit o value past h) :
    e.tokens = h.tokens ∧ e.draft.tokenIndex = h.draft.tokenIndex := by
  induction past generalizing h with
  | nil => cases he
  | cons e' past ih =>
    unfold visit at he
    split at he
    · next hstays =>
      have htoken : e'.tokens = h.tokens ∧ e'.draft.tokenIndex = h.draft.tokenIndex :=
        ⟨hstays.1.symm, hstays.2.1.symm⟩
      obtain rfl | he := List.mem_cons.1 he
      · exact htoken
      · exact ⟨(ih he).1.trans htoken.1, (ih he).2.trans htoken.2⟩
    · cases he

/-- A head that stays at its token belongs to the visit of the next. -/
theorem visit_cons (hstays : h.StaysFor o value h') :
    visit o value (h :: past) h' = h :: visit o value past h := if_pos hstays

/-- After a head that departs, a visit begins. -/
theorem visit_eq_nil (hquits : Quits o value past) (h : Head) : visit o value past h = [] := by
  cases past with
  | nil => rfl
  | cons e past => exact if_neg fun hstays => hquits e rfl _ hstays.2.2 hstays.2.1

/-- A past that ends with a head that departs quits. -/
theorem quits_cons (hdeparts : h.Departs o value) (past : List Head) :
    Quits o value (h :: past) := by
  intro e he
  obtain rfl : h = e := Option.some.inj he
  exact hdeparts

/-- What a token has taken is the latest that was taken. -/
theorem take_matched (o : Options) (value : List Char) (past : List Head) (h : Head) :
    (past.filterMap (taken? o value)).take (h.matched o value past).length =
      h.matched o value past :=
  (List.prefix_iff_eq_take.1 ((visit_isPrefix o value past h).filterMap _)).symm

/-- A character is taken exactly if it is the next one, a leaf accepts it, and the step takes it for
the leaf. -/
theorem taken?_eq_some_iff :
    h.taken? o value = some c ↔ ∃ l q s, h.tokens[h.draft.tokenIndex]? = some (.leaf l q s) ∧
      value[h.draft.valueIndex]? = some c ∧ l.accepts c = true ∧
        h.draft.next? o value h.tokens =
          some (.goOn ((h.draft.take c l).passChar.afterMatch q)) := by
  unfold taken?
  split
  · next l q s ht =>
    rw [Option.filter_eq_some_iff, Bool.and_eq_true_iff, decide_eq_true_eq]
    constructor
    · rintro ⟨hc, hl, hnext⟩
      exact ⟨l, q, s, ht, hc, hl, hnext⟩
    · rintro ⟨l', q', s', ht', hc, hl, hnext⟩
      rw [ht] at ht'
      cases ht'
      exact ⟨hc, hl, hnext⟩
  · next hother =>
    simp only [reduceCtorEq, false_iff]
    rintro ⟨l, q, s, ht, -⟩
    exact hother l q s ht

/-- A step that writes nothing takes no character. -/
theorem taken?_eq_none {d' : Draft} (hnext : h.draft.next? o value h.tokens = some (.goOn d'))
    (htext : d'.text = h.draft.text) : h.taken? o value = none := by
  rw [Option.eq_none_iff_forall_ne_some]
  intro c hc
  obtain ⟨l, q, s, -, -, -, htake⟩ := taken?_eq_some_iff.1 hc
  rw [hnext, Option.some.injEq, Step.goOn.injEq] at htake
  rw [htake] at htext
  simp [Draft.passChar] at htext

/-- At a head, the count is that of the characters its token has taken, and the text ends with
them. -/
structure Tallies (o : Options) (value : List Char) (past : List Head) (h : Head) : Prop where
  count : (h.matched o value past).length = h.draft.repeats
  text : ∃ front, h.draft.text = front ++ (h.matched o value past).reverse

/-- Where a visit begins, it is right to count nothing. -/
theorem tallies_of_quits (hquits : Quits o value past) (hzero : h.draft.repeats = 0) :
    h.Tallies o value past := by
  have hmatched : h.matched o value past = [] := by
    rw [matched, visit_eq_nil hquits, List.filterMap_nil]
  refine ⟨?_, h.draft.text, ?_⟩
  · rw [hmatched, hzero, List.length_nil]
  · rw [hmatched, List.reverse_nil, List.append_nil]

end Head

namespace Draft

variable {d d' : Draft} {o : Options} {value : List Char} {tokens body : List Token} {t : Token}
  {past : List Head}

/-! ## What a step does to the count -/

/-- A step stays at its token, and counts the character that it takes if it takes one. -/
structure StaysAt (o : Options) (value : List Char) (tokens : List Token) (d d' : Draft) :
    Prop where
  tokenIndex : d'.tokenIndex = d.tokenIndex
  repeats : d'.repeats = d.repeats + (Head.taken? o value ⟨tokens, d⟩).toList.length
  text : d'.text = d.text ++ (Head.taken? o value ⟨tokens, d⟩).toList

/-- A step moves on from its token, which had its matches if it needs any, and no count remains. -/
structure Moves (t : Token) (d d' : Draft) : Prop where
  tokenIndex : d'.tokenIndex ≠ d.tokenIndex
  repeats : d'.repeats = 0
  mayEnd : ∀ l q s, t = .leaf l q s → q.repeats = true → q.MayEnd d.repeats

/-- A token that does not repeat is passed with no count, as there was none. -/
theorem Counts.moves (h : Counts tokens d) (ht : tokens[d.tokenIndex]? = some t)
    (hquiet : t.isGroup = true ∨ t.quantifier.repeats = false)
    (htoken : d.tokenIndex < d'.tokenIndex) (hrepeats : d'.repeats = d.repeats) : Moves t d d' := by
  refine ⟨Nat.ne_of_gt htoken, hrepeats.trans (h.repeats_eq_zero ht hquiet), ?_⟩
  rintro l q s rfl hq
  obtain hgroup | hquiet := hquiet
  · cases hgroup
  · rw [Token.quantifier, hq] at hquiet
    cases hquiet

/-- A step that goes on stays and counts, or moves on and leaves no count. -/
theorem Counts.stays_or_moves (h : Counts tokens d) (ht : tokens[d.tokenIndex]? = some t)
    (hstep : d.step o value tokens (Token.fitBody o value t) t = .goOn d') :
    StaysAt o value tokens d d' ∨ Moves t d d' := by
  have hnext := (next?_eq_some_iff ht).2 hstep
  have hturn : Turn o value tokens (Token.fitBody o value t) d t _ := step_turn t
  rw [hstep] at hturn
  generalize hr : Step.goOn d' = r at hturn
  cases hturn with
  | discard =>
    cases hr
    have hnone := Head.taken?_eq_none (h := ⟨tokens, d⟩) hnext (dropChar_text _)
    exact .inl ⟨dropChar_tokenIndex _, by simp [hnone], by simp [hnone]⟩
  | @take l q s c hc hl =>
    cases hr
    cases hq : q.repeats with
    | true =>
      have htaken : Head.taken? o value ⟨tokens, d⟩ = some c :=
        Head.taken?_eq_some_iff.2 ⟨l, q, s, ht, hc, hl, hnext⟩
      left
      constructor <;> simp [htaken, Draft.afterMatch, hq, passChar]
    | false =>
      right
      refine h.moves ht (.inr hq) ?_ ?_ <;> simp [Draft.afterMatch, hq, passChar, passToken]
  | fill =>
    cases hr
    exact .inr (h.moves ht (.inr rfl) (by simp) (fill_repeats _ _))
  | skip ho hc hindex hq =>
    cases hr
    exact .inr (h.moves ht (.inr hq) (landing?_ge hindex) rfl)
  | leave hend =>
    cases hr
    refine .inr ⟨Nat.succ_ne_self _, h.repeats_leave ht, ?_⟩
    rintro l q s heq -
    cases heq
    exact hend
  | stop => cases hr
  | trial =>
    obtain ⟨-, rfl⟩ := fitGroup_goOn hr.symm
    refine .inr (h.moves ht (.inl rfl) ?_ endCapture_repeats)
    exact Nat.lt_succ_of_le (endCapture_tokenIndex d).ge

/-! ## Trials -/

/-- The rule for the heads in trials, each of which starts from a clean draft: a success leaves
one. -/
theorem trialHeads_induction {motive : List Head → Prop} {bodyHeads : Draft → List Head}
    (repeats : Bool)
    (hnil : motive [])
    (htrial : ∀ (e : Draft) (hs : List Head), e.Clean → motive hs →
      motive (bodyHeads e.rewind ++ hs))
    (hclean : d.Clean) :
    motive (trialHeads value (fit o value body) bodyHeads repeats d) := by
  refine trialInduction value (fit o value body) (motive := fun _ d => d.Clean →
    motive (trialHeads value (fit o value body) bodyHeads repeats d)) ?_ ?_ ?_ false d hclean
  · intro matched d hfails hclean
    rw [trialHeads_eq, if_neg fun hmore => ne_true_of_eq_false hfails hmore.1.2]
    exact htrial d [] hclean hnil
  · intro matched d hpasses hadvances ih hclean
    have hclean' : (d.trial (fit o value body)).Clean :=
      (satisfies_fit o value body d hclean hpasses).1
    rw [trialHeads_eq]
    split
    · exact htrial d _ hclean (ih hclean')
    · exact htrial d [] hclean hnil
  · intro matched d hpasses hstays hclean
    rw [trialHeads_eq, if_neg fun hmore => hstays hmore.2]
    exact htrial d [] hclean hnil

/-- From a clean draft, a fitting starts without a count and leaves none if it is complete. -/
theorem Clean.uncounted (h : d.Clean) (o : Options) (value : List Char) (tokens : List Token) :
    Head.Uncounted o value ⟨tokens, d.rewind⟩ :=
  ⟨h.repeats, fun hcomplete => (satisfies_fit o value tokens d h hcomplete).1.repeats⟩

/-- Trials start without a count, and those that succeed end without one. -/
theorem forall_trials (h : Head) : ∀ e ∈ h.trials o value, e.Uncounted o value := by
  unfold Head.trials
  split
  · next body q s ht =>
    refine forall_stepHeads fun body' q' s' hgroup => ?_
    cases hgroup
    have hopened : h.draft.endCapture.openScope.Clean := ⟨rfl, rfl⟩
    refine forall_trialHeads_of_invariant (I := Clean) ?_ ?_ hopened
    · intro d hclean
      exact List.forall_mem_singleton.2 (hclean.uncounted o value body)
    · intro d hclean _ hpasses _
      exact (satisfies_fit o value body d hclean hpasses).1
  · exact List.forall_mem_nil _

/-! ## Heads along a level -/

/-- A step that stays at its token counts what it takes, so the count stays right. -/
theorem tallies_of_stays (h : Head.Tallies o value past ⟨tokens, d⟩)
    (hnext : d.next? o value tokens = some (.goOn d')) (hstays : StaysAt o value tokens d d') :
    Head.Tallies o value (⟨tokens, d⟩ :: past) ⟨tokens, d'⟩ := by
  have hmatched : Head.matched o value (⟨tokens, d⟩ :: past) ⟨tokens, d'⟩ =
      (Head.taken? o value ⟨tokens, d⟩).toList ++ Head.matched o value past ⟨tokens, d⟩ := by
    have hfor : Head.StaysFor o value ⟨tokens, d⟩ ⟨tokens, d'⟩ := ⟨rfl, hstays.tokenIndex, hnext⟩
    rw [Head.matched, Head.visit_cons hfor, List.filterMap_cons]
    cases Head.taken? o value ⟨tokens, d⟩ <;> rfl
  have hreverse : (Head.taken? o value ⟨tokens, d⟩).toList.reverse =
      (Head.taken? o value ⟨tokens, d⟩).toList := by
    cases Head.taken? o value ⟨tokens, d⟩ <;> rfl
  obtain ⟨hcount, front, htext⟩ := h
  refine ⟨?_, front, ?_⟩
  · rw [hmatched, List.length_append, hcount, Nat.add_comm]
    exact hstays.repeats.symm
  · rw [hmatched, List.reverse_append, hreverse, ← List.append_assoc, ← htext]
    exact hstays.text

/-- Where the count is right, it is the current token's own. -/
theorem countsOwn_of_tallies (hcounts : Counts tokens d) (ht : tokens[d.tokenIndex]? = some t)
    (h : Head.Tallies o value past ⟨tokens, d⟩) : Head.CountsOwn o value past ⟨tokens, d⟩ := by
  refine ⟨?_, fun _ => Head.token_of_mem_visit, h.count, ?_, h.text, ?_, ?_, forall_trials _⟩
  · intro hpos
    obtain hzero | ⟨l, q, s, ht', hq⟩ := hcounts
    · exact absurd hzero (Nat.ne_of_gt hpos)
    · exact ⟨l, q, s, ht', Quantifier.repeats_iff.1 hq⟩
  · rw [← h.count]
    exact Head.take_matched o value past _
  · intro l s d' hl hnext hdeparts hnone
    obtain rfl : t = .leaf l .oneOrMore s := Option.some.inj (ht.symm.trans hl)
    have hzero : d.repeats = 0 := by rw [← h.count, hnone, List.length_nil]
    obtain hstays | hmoves := hcounts.stays_or_moves ht ((next?_eq_some_iff ht).1 hnext)
    · exact hdeparts hstays.tokenIndex
    · have hend := hmoves.mayEnd l .oneOrMore s rfl rfl
      simp [Quantifier.MayEnd, Quantifier.canBeAbsent, hzero] at hend
  · intro d' hnext hnone
    exact (hcounts.goOn ht ((next?_eq_some_iff ht).1 hnext)).repeats_of_none hnone

end Draft

/-! ## Runs of heads -/

/-- A run of heads after some others: at each of them the count is its own, and the latest
departs. -/
structure Recorded (o : Options) (value : List Char) (past hs : List Head) : Prop where
  along : Along (Head.CountsOwn o value) past hs
  quits : Head.Quits o value (hs.reverse ++ past)

section Runs

variable {o : Options} {value : List Char} {past xs ys : List Head} {h : Head}

/-- No heads are recorded after a past that quits. -/
theorem Recorded.nil (hquits : Head.Quits o value past) : Recorded o value past [] :=
  ⟨trivial, hquits⟩

/-- A head in front of recorded ones is recorded with them if its count is its own. -/
theorem Recorded.cons (hown : h.CountsOwn o value past) (hxs : Recorded o value (h :: past) xs) :
    Recorded o value past (h :: xs) := by
  refine ⟨⟨hown, hxs.along⟩, ?_⟩
  rw [List.reverse_cons, List.append_assoc]
  exact hxs.quits

/-- Recorded heads after recorded heads are recorded together. -/
theorem Recorded.append (hxs : Recorded o value past xs)
    (hys : Recorded o value (xs.reverse ++ past) ys) : Recorded o value past (xs ++ ys) := by
  refine ⟨along_append.2 ⟨hxs.along, hys.along⟩, ?_⟩
  rw [List.reverse_append, List.append_assoc]
  exact hys.quits

end Runs

namespace Draft

variable {d d' : Draft} {o : Options} {value : List Char} {tokens : List Token} {t : Token}
  {past : List Head}

/-- A way to fit whose heads are recorded after any others, from a clean draft on. -/
def RecordsHeads (o : Options) (value : List Char) (bodyHeads : Draft → List Head) : Prop :=
  ∀ (past : List Head) (d : Draft), d.Clean → Head.Quits o value past →
    Recorded o value past (bodyHeads d)

/-- The heads in the trials of a step are recorded if those in fitting bodies are. -/
theorem stepHeads_recorded (tokens : List Token) (d : Draft)
    (hbody : ∀ body q s, t = .group body q s → RecordsHeads o value (heads o value body))
    (hquits : Head.Quits o value past) :
    Recorded o value past (d.stepHeads o value tokens (Token.bodyHeads o value t) t) := by
  cases t with
  | leaf l q s => exact .nil hquits
  | group body q s =>
    rw [stepHeads]
    split
    · exact .nil hquits
    · have hopened : d.endCapture.openScope.Clean := ⟨rfl, rfl⟩
      refine trialHeads_induction (motive := fun hs => ∀ past, Head.Quits o value past →
        Recorded o value past hs) q.repeats (fun _ => .nil) ?_ hopened past hquits
      intro e hs hclean hmore past hquits
      have hfirst := hbody body q s rfl past e.rewind hclean.rewind hquits
      exact hfirst.append (hmore _ hfirst.quits)

/-- A step that stays at its token makes no trials. -/
theorem stepHeads_eq_nil (hstep : d.step o value tokens (Token.fitBody o value t) t = .goOn d')
    (hstays : d'.tokenIndex = d.tokenIndex) :
    d.stepHeads o value tokens (Token.bodyHeads o value t) t = [] := by
  cases t with
  | leaf l q s => rfl
  | group body q s =>
    rw [stepHeads]
    split
    · rfl
    · next hrejects =>
      rw [step_group (Bool.eq_false_iff.2 hrejects)] at hstep
      obtain ⟨-, rfl⟩ := fitGroup_goOn hstep
      simp [closeScope] at hstays

/-- The heads along a level are recorded: a step that stays carries the visit on, and after one that
moves on a visit begins. The induction is on the steps, and the count is right from each draft
on. -/
theorem levelHeads_recorded
    (hbody : ∀ body q s, Token.group body q s ∈ tokens → RecordsHeads o value (heads o value body))
    (hcounts : Counts tokens d) (htallies : Head.Tallies o value past ⟨tokens, d⟩)
    (hquits : tokens[d.tokenIndex]? = none → Head.Quits o value past) :
    Recorded o value past (levelHeads o value tokens d) := by
  have hgroups : ∀ (t : Token) {e : Draft}, tokens[e.tokenIndex]? = some t → ∀ body q s,
      t = .group body q s → RecordsHeads o value (heads o value body) :=
    fun t e ht body q s hgroup => hbody body q s (hgroup ▸ List.mem_of_getElem? ht)
  induction d using stepInduction o value tokens generalizing past with
  | hend d ht =>
    rw [levelHeads_none ht]
    exact .nil (hquits ht)
  | hstop d t d' ht hstop =>
    have hdeparts : Head.Departs o value ⟨tokens, d⟩ := by
      intro e hnext
      rw [next?_eq_some_iff ht, hstop] at hnext
      cases hnext
    have hstepHeads := stepHeads_recorded tokens d (hgroups t ht) (Head.quits_cons hdeparts past)
    rw [levelHeads_some ht, hstop, List.append_nil]
    exact .cons (countsOwn_of_tallies hcounts ht htallies) hstepHeads
  | hgo d t d' ht hgo ih =>
    have hnext := (next?_eq_some_iff ht).2 hgo
    have hcounts' := hcounts.goOn ht hgo
    rw [levelHeads_some ht, hgo]
    refine .cons (countsOwn_of_tallies hcounts ht htallies) ?_
    obtain hstays | hmoves := hcounts.stays_or_moves ht hgo
    · -- the visit goes on, with one more head and what was taken there
      rw [stepHeads_eq_nil hgo hstays.tokenIndex, List.nil_append]
      refine ih hcounts' (tallies_of_stays htallies hnext hstays) fun hnone => ?_
      rw [hstays.tokenIndex, ht] at hnone
      cases hnone
    · -- the visit ends here, and what the trials of the step record lies between it and the next
      have hdeparts : Head.Departs o value ⟨tokens, d⟩ := by
        intro e hnext'
        obtain rfl : d' = e := Step.goOn.inj (Option.some.inj (hnext.symm.trans hnext'))
        exact hmoves.tokenIndex
      have hstepHeads := stepHeads_recorded tokens d (hgroups t ht) (Head.quits_cons hdeparts past)
      exact hstepHeads.append (ih hcounts'
        (Head.tallies_of_quits hstepHeads.quits hmoves.repeats) fun _ => hstepHeads.quits)

/-- The heads in a fitting that starts from a clean draft are recorded after any others: the
induction is on the pattern, from the bodies of its groups to the whole. -/
theorem recordsHeads_heads (o : Options) (value : List Char) (tokens : List Token) :
    RecordsHeads o value (heads o value tokens) := by
  induction tokens using Token.groupInduction with
  | h tokens ih =>
    intro past d hclean hquits
    have hzero : d.enter.repeats = 0 := hclean.repeats
    exact levelHeads_recorded ih (.inl hzero) (Head.tallies_of_quits hquits hzero)
      fun _ => hquits

end Draft

/-- At each head of fitting a value to a mask, the count of matches is the current token's own; and
when all of the mask is satisfied, nothing is counted any more. -/
theorem Mask.countsOwn_at_heads {source : List Char} {o : Options} {m : Mask}
    (hm : Mask.ofSource source o = .ok m) (value : List Char) (start stop : Nat) :
    (∀ (i : Nat) (h : Head), (heads o value m.tokens (.ofSelection start stop))[i]? = some h →
      h.CountsOwn o value ((heads o value m.tokens (.ofSelection start stop)).take i).reverse) ∧
      ((m.passage value start stop).closing.complete = true →
        (m.passage value start stop).closing.repeats = 0) := by
  obtain ⟨-, hfitted, hclosing⟩ := Mask.passage_of_ofSource hm value start stop
  have hclean : (Draft.ofSelection start stop).Clean := ⟨rfl, rfl⟩
  constructor
  · intro i h hi
    have hquits : Head.Quits o value [] := by
      intro e he
      cases he
    have hrecorded := Draft.recordsHeads_heads o value m.tokens [] _ hclean hquits
    have hown := hrecorded.along.of_getElem? hi
    rwa [List.append_nil] at hown
  · rw [hclosing, hfitted]
    exact fun hcomplete => (Draft.satisfies_fit o value m.tokens _ hclean hcomplete).1.repeats

/-- In the second repetition of the group, its first token has taken two characters, and those that
it took in the first do not count. -/
theorem Mask.countsOwn_at_heads_repeated :
    ∃ m, Mask.ofSource "(d+-)+x".toList = .ok m ∧
      ∃ h, (heads {} "12-34-x".toList m.tokens (.ofSelection 0 0))[7]? = some h ∧
        h.draft.depth = 2 ∧ h.draft.text = "12-34".toList ∧ h.draft.repeats = 2 ∧
          h.CountsOwn {} "12-34-x".toList
            ((heads {} "12-34-x".toList m.tokens (.ofSelection 0 0)).take 7).reverse := by
  obtain ⟨m, hm, hrun⟩ := Mask.exists_of_ofSource
    (show (Mask.ofSource "(d+-)+x".toList).toOption.any (fun (m : Mask) =>
      (heads {} "12-34-x".toList m.tokens (.ofSelection 0 0))[7]?.any fun h => decide (
        h.draft.depth = 2 ∧ h.draft.text = "12-34".toList ∧ h.draft.repeats = 2)) = true by
          decide +kernel)
  obtain ⟨h, hi, hat⟩ := (Option.any_eq_true _ _).1 hrun
  obtain ⟨hdepth, htext, hrepeats⟩ := of_decide_eq_true hat
  exact ⟨m, hm, h, hi, hdepth, htext, hrepeats,
    (Mask.countsOwn_at_heads hm "12-34-x".toList 0 0).1 7 h hi⟩

end InputMask

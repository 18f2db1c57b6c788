import Mathlib.Data.List.Forall2
import InputMask.Proofs.HooklessMask
import InputMask.Proofs.Fitting.Heads

/-!
# Captures mirror the groups of a pattern

With the runs of characters left out, what is captured in a fitting is one slot for each group that
was passed, in order (`Draft.Captured`, kept from step to step by `Draft.Captured.goOn`).
`Token.HasSlot` says what the slot of a group may be: a group that may be left out need not have
matched, and a group that matched holds the slots of its body's groups, once for each time that the
body was satisfied. Trials of a body that fail leave nothing in a slot. Only a step that stops at a
group may leave a slot that is otherwise not allowed, and then as the last one
(`Outcome.MirrorsGroups`).
-/

set_option autoImplicit false

namespace InputMask

/-! ## Slots -/

namespace Capture

/-- Whether an entry is a run of characters, and not the slot of a group. -/
def isRun : Capture → Bool
  | run _ => true
  | unmatched | matched _ => false

/-- The slots among some entries, without the runs of characters. -/
def slots (entries : List Capture) : List Capture := entries.filter fun e => !e.isRun

/-- A slot is no run of characters, whether the group has matched or not. -/
theorem isRun_slot (captured : Option (List Capture)) : (slot captured).isRun = false := by
  cases captured <;> rfl

/-- The slots of two lists of entries are those of the first, then those of the second. -/
theorem slots_append (es fs : List Capture) : slots (es ++ fs) = slots es ++ slots fs :=
  List.filter_append _ _

end Capture

open Capture (slots)

namespace Token

/-- The groups among some tokens. -/
def groups (tokens : List Token) : List Token := tokens.filter isGroup

/-- What the slot of a group may be: unmatched if the group may be left out, or else with the slots
of the groups of its body, once for each time that the body was satisfied. -/
inductive HasSlot : Token → Capture → Prop
  | unmatched {body : List Token} {q : Quantifier} {s : Span} (hq : q.canBeAbsent = true) :
      HasSlot (.group body q s) .unmatched
  | once {body : List Token} {q : Quantifier} {s : Span} {entries : List Capture}
      (hq : q.repeats = false) (h : List.Forall₂ HasSlot (groups body) (slots entries)) :
      HasSlot (.group body q s) (.matched entries)
  | rounds {body : List Token} {q : Quantifier} {s : Span} {entries : List Capture}
      (rounds : List (List Capture)) (hq : q.repeats = true) (hne : rounds ≠ [])
      (h : ∀ round ∈ rounds, List.Forall₂ HasSlot (groups body) round)
      (hentries : slots entries = rounds.flatten) : HasSlot (.group body q s) (.matched entries)

/-- Some entries are the slots of the groups among some tokens, one for each group, in order. -/
def HaveSlots (tokens : List Token) (entries : List Capture) : Prop :=
  List.Forall₂ HasSlot (groups tokens) entries

/-- The slot of a group is no run of characters. -/
theorem HasSlot.isRun {t : Token} {e : Capture} (h : HasSlot t e) : e.isRun = false := by
  cases h with
  | unmatched => rfl
  | once => rfl
  | rounds => rfl

variable {tokens : List Token} {t : Token} {i : Nat}

/-- One more token adds its own group, if it is one. -/
theorem groups_take_succ (ht : tokens[i]? = some t) :
    groups (tokens.take (i + 1)) = groups (tokens.take i) ++ groups [t] := by
  rw [List.take_add_one, ht, Option.toList_some, groups, List.filter_append]
  rfl

/-- A token that is no group adds none. -/
theorem groups_take_leaf {l : Leaf} {q : Quantifier} {s : Span}
    (ht : tokens[i]? = some (.leaf l q s)) :
    groups (tokens.take (i + 1)) = groups (tokens.take i) :=
  (groups_take_succ ht).trans (List.append_nil _)

/-- Between a token and the place where reading is taken up after it, there is no group. -/
theorem groups_take_landing {start index : Nat} {c : Char}
    (h : landing? tokens start c = some index) :
    groups (tokens.take index) = groups (tokens.take start) := by
  obtain ⟨k, hk, rfl⟩ := Option.map_eq_some_iff.1 h
  obtain ⟨hlt, hfound, hbetween⟩ := List.findIdx?_eq_some_iff_getElem.1 hk
  have hnone : groups ((tokens.drop start).take k) = [] := by
    refine List.filter_eq_nil_iff.2 fun u hu hgroup => ?_
    obtain ⟨j, hj, rfl⟩ := List.mem_take_iff_getElem.1 hu
    have hjk : j < k := Nat.lt_of_lt_of_le hj (Nat.min_le_left _ _)
    exact hbetween j hjk (by rw [hgroup, Bool.true_or])
  rw [Nat.add_comm, List.take_add, groups, List.filter_append]
  exact (congrArg (_ ++ ·) hnone).trans (List.append_nil _)

/-- The groups before a token are the first ones of all. -/
theorem getElem?_groups_take {final : Nat} (hlt : i < (groups (tokens.take final)).length) :
    (groups (tokens.take final))[i]? = (groups tokens)[i]? := by
  have hall : groups tokens = groups (tokens.take final) ++ groups (tokens.drop final) := by
    rw [groups, groups, groups, ← List.filter_append, List.take_append_drop]
  rw [hall, List.getElem?_append_left hlt]

/-- In their places, the slots of some groups are ones that these may have. -/
theorem HaveSlots.hasSlot {entries : List Capture} {e : Capture} (h : HaveSlots tokens entries)
    (ht : (groups tokens)[i]? = some t) (he : entries[i]? = some e) : t.HasSlot e := by
  obtain ⟨hlt, rfl⟩ := List.getElem?_eq_some_iff.1 ht
  obtain ⟨hlt', rfl⟩ := List.getElem?_eq_some_iff.1 he
  exact List.Forall₂.get h hlt hlt'

/-- There are no runs of characters among the slots of some groups. -/
theorem HaveSlots.isRun {entries : List Capture} (h : HaveSlots tokens entries) :
    ∀ e ∈ entries, e.isRun = false := by
  unfold HaveSlots at h
  generalize groups tokens = ts at h
  induction h with
  | nil =>
    intro e he
    cases he
  | cons hslot h ih => exact List.forall_mem_cons.2 ⟨hslot.isRun, ih⟩

/-- The slots among some entries are those of the groups among some tokens, over and over; if the
tokens were matched, then at least once. -/
def HaveRounds (tokens : List Token) (matched : Bool) (entries : List Capture) : Prop :=
  ∃ rounds : List (List Capture), (matched = true → rounds ≠ []) ∧
    (∀ round ∈ rounds, HaveSlots tokens round) ∧ Capture.slots entries = rounds.flatten

/-- Where nothing was matched there need be no round. -/
theorem haveRounds_nil (tokens : List Token) : HaveRounds tokens false [] :=
  ⟨[], fun h => Bool.noConfusion h, List.forall_mem_nil _, rfl⟩

/-- One more match adds one more round. -/
theorem HaveRounds.append {matched : Bool} {entries recorded : List Capture}
    (h : HaveRounds tokens matched entries) (hslots : HaveSlots tokens (Capture.slots recorded)) :
    HaveRounds tokens true (entries ++ recorded) := by
  obtain ⟨rounds, -, hall, hflatten⟩ := h
  refine ⟨rounds ++ [Capture.slots recorded], fun _ => by simp, ?_, ?_⟩
  · exact List.forall_mem_append.2 ⟨hall, List.forall_mem_singleton.2 hslots⟩
  · rw [Capture.slots_append, hflatten, List.flatten_append, List.flatten_singleton]

/-- The rounds of a body make up the slot of a group that repeats. -/
theorem HaveRounds.hasSlot {q : Quantifier} {s : Span} {body : List Token} {entries : List Capture}
    (h : HaveRounds body true entries) (hq : q.repeats = true) :
    (group body q s).HasSlot (.matched entries) := by
  obtain ⟨rounds, hne, hall, hflatten⟩ := h
  exact .rounds rounds hq (hne rfl) hall hflatten

end Token

namespace Draft

variable {d d' : Draft} {o : Options} {value : List Char} {tokens : List Token}
  {earlier : List Capture} {q : Quantifier} {s : Span} {body : List Token}
  {fitBody : Draft → Draft}

/-! ## Runs of characters -/

/-- A draft has no captures that another does not have, but for runs of characters, which are kept
only within groups. -/
def AddsRuns (d d' : Draft) : Prop :=
  ∃ runs, d'.captures = d.captures ++ runs ∧ slots runs = [] ∧ (d.depth ≤ 1 → runs = [])

/-- Captures that are the same have no run added. -/
theorem addsRuns_of_eq (h : d'.captures = d.captures) : AddsRuns d d' :=
  ⟨[], h.trans (List.append_nil _).symm, rfl, fun _ => rfl⟩

/-- Whether runs were added goes by the captures alone. -/
theorem AddsRuns.congr {e : Draft} (h : AddsRuns d e) (hcaptures : d'.captures = e.captures) :
    AddsRuns d d' := by
  unfold AddsRuns
  rw [hcaptures]
  exact h

/-- Ending a capture adds at most a run, and only within a group. -/
theorem endCapture_addsRuns (d : Draft) : AddsRuns d d.endCapture := by
  unfold endCapture
  split
  · exact addsRuns_of_eq rfl
  · by_cases hdepth : 1 < d.depth
    · refine ⟨[.run d.pending], if_pos hdepth, rfl, fun hle => ?_⟩
      exact absurd hdepth (Nat.not_lt.2 hle)
    · exact addsRuns_of_eq (if_neg hdepth)

/-- Leaving a character out adds no more than a run. -/
theorem dropChar_addsRuns (d : Draft) (before : Bool) : AddsRuns d (d.dropChar before) := by
  unfold dropChar
  split <;> exact addsRuns_of_eq rfl

/-- Taking a character adds no more than a run. -/
theorem take_addsRuns (d : Draft) (c : Char) (l : Leaf) (q : Quantifier) :
    AddsRuns d ((d.take c l).passChar.afterMatch q) := by
  have htake : AddsRuns d (d.take c l) := by
    cases l with
    | ofClass k => exact addsRuns_of_eq rfl
    | literal b => exact (endCapture_addsRuns d).congr rfl
  unfold afterMatch
  split <;> exact htake.congr rfl

/-- Filling in a literal adds no more than a run. -/
theorem fill_addsRuns (d : Draft) (c : Char) (before : Bool) : AddsRuns d (d.fill c before) := by
  unfold fill
  split <;> exact (endCapture_addsRuns d).congr rfl

/-! ## The captures of the groups that were passed -/

/-- After earlier captures, a draft has entries whose slots are those of the groups that it has
passed. Outside of groups there are no other entries. -/
def Captured (tokens : List Token) (earlier : List Capture) (d : Draft) : Prop :=
  ∃ entries, d.captures = earlier ++ entries ∧
    Token.HaveSlots (tokens.take d.tokenIndex) (slots entries) ∧
      (d.depth ≤ 1 → slots entries = entries)

/-- Runs of characters and tokens that are no groups do not matter. -/
theorem Captured.addsRuns (h : Captured tokens earlier d) (hruns : AddsRuns d d')
    (hdepth : d'.depth = d.depth)
    (hgroups : Token.groups (tokens.take d'.tokenIndex) =
      Token.groups (tokens.take d.tokenIndex)) : Captured tokens earlier d' := by
  obtain ⟨entries, hentries, hslots, hbare⟩ := h
  obtain ⟨runs, hcaptures, hnone, htop⟩ := hruns
  have hsame : slots (entries ++ runs) = slots entries := by
    rw [Capture.slots_append, hnone, List.append_nil]
  refine ⟨entries ++ runs, by rw [hcaptures, hentries, List.append_assoc], ?_, fun hle => ?_⟩
  · rw [hsame]
    unfold Token.HaveSlots
    rwa [hgroups]
  · rw [hdepth] at hle
    rw [hsame, hbare hle, htop hle, List.append_nil]

/-- A draft that has passed a group has its slot after the others. -/
theorem Captured.group {e : Capture} (h : Captured tokens earlier d)
    (ht : tokens[d.tokenIndex]? = some (.group body q s)) (hdepth : d'.depth = d.depth)
    (hindex : d'.tokenIndex = d.tokenIndex + 1) (hcaptures : d'.captures = d.captures ++ [e])
    (he : (Token.group body q s).HasSlot e) : Captured tokens earlier d' := by
  obtain ⟨entries, hentries, hslots, hbare⟩ := h
  have hslot : slots [e] = [e] := by simp [slots, he.isRun]
  refine ⟨entries ++ [e], by rw [hcaptures, hentries, List.append_assoc], ?_, fun hle => ?_⟩
  · rw [hindex, Token.HaveSlots, Token.groups_take_succ ht, Capture.slots_append, hslot]
    exact List.rel_append hslots (.cons he .nil)
  · rw [hdepth] at hle
    rw [Capture.slots_append, hbare hle, hslot]

/-! ## The slot of a group -/

/-- A way to fit the body of a group that captures the slots of its groups wherever a trial
succeeds. -/
def Records (body : List Token) (fitBody : Draft → Draft) : Prop :=
  ∀ d : Draft, (d.trial fitBody).complete = true →
    ∃ entries, (d.trial fitBody).captures = d.captures ++ entries ∧
      Token.HaveSlots body (slots entries)

/-- What a single successful trial has captured is the slot of a group that does not repeat. -/
theorem tryOnce_hasSlot (hbody : Records body fitBody) (hcaptures : d.captures = [])
    (hq : q.repeats = false) {entries : List Capture}
    (h : (d.tryOnce fitBody).1 = some entries) :
    (Token.group body q s).HasSlot (.matched entries) := by
  cases hcomplete : (d.trial fitBody).complete with
  | true =>
    rw [tryOnce_pass hcomplete] at h
    obtain ⟨recorded, hrecorded, hslots⟩ := hbody d hcomplete
    rw [hcaptures, List.nil_append] at hrecorded
    obtain rfl : recorded = entries := hrecorded.symm.trans (Option.some.inj h)
    exact .once hq hslots
  | false =>
    rw [tryOnce_fail hcomplete] at h
    cases h

/-- Repeated trials capture the slots of the body's groups once for each success. -/
theorem tryRepeatedly_hasSlot (hbody : Records body fitBody) (hcaptures : d.captures = [])
    (hq : q.repeats = true) {entries : List Capture}
    (h : (tryRepeatedly value fitBody false d).1 = some entries) :
    (Token.group body q s).HasSlot (.matched entries) := by
  have hrounds : ∀ entries, (tryRepeatedly value fitBody false d).1 = some entries →
      Token.HaveRounds body true entries := by
    refine tryRepeatedly_induction
      (I := fun matched e => Token.HaveRounds body matched e.captures)
      (J := fun r => ∀ entries, r.1 = some entries → Token.HaveRounds body true entries)
      ?_ ?_ ?_ ?_
    · intro matched e he hcomplete
      obtain ⟨recorded, hrecorded, hslots⟩ := hbody e hcomplete
      rw [hrecorded]
      exact he.append hslots
    · intro matched e he hfails entries hentries
      cases matched with
      | true =>
        obtain rfl : e.captures = entries := Option.some.inj hentries
        exact he
      | false => cases hentries
    · intro e he entries hentries
      obtain rfl : e.captures = entries := Option.some.inj hentries
      exact he
    · rw [hcaptures]
      exact Token.haveRounds_nil body
  exact (hrounds entries h).hasSlot hq

/-- What is captured in trials that succeeded makes up the slot of a group. -/
theorem trials_hasSlot (hbody : Records body fitBody) (hcaptures : d.captures = [])
    {entries : List Capture} (h : (d.trials value fitBody q).1 = some entries) :
    (Token.group body q s).HasSlot (.matched entries) := by
  unfold trials at h
  by_cases hq : q.repeats = true
  · rw [if_pos hq] at h
    exact tryRepeatedly_hasSlot hbody hcaptures hq h
  · rw [if_neg hq] at h
    exact tryOnce_hasSlot hbody hcaptures (Bool.eq_false_iff.2 hq) h

/-- A step at a group that goes on leaves a slot that the group may have. -/
theorem Captured.fitGroup (hbody : Records body fitBody) (h : Captured tokens earlier d)
    (ht : tokens[d.tokenIndex]? = some (.group body q s))
    (hstep : d.fitGroup value fitBody q = .goOn d') (hdepth : d'.depth = d.depth) :
    Captured tokens earlier d' := by
  obtain ⟨hgoes, rfl⟩ := fitGroup_goOn hstep
  have houter : Captured tokens earlier d.endCapture :=
    h.addsRuns (endCapture_addsRuns d) endCapture_depth (by rw [endCapture_tokenIndex])
  refine houter.group (by rwa [endCapture_tokenIndex]) (hdepth.trans endCapture_depth.symm) rfl rfl
    ?_
  cases hmatched : (d.endCapture.openScope.trials value fitBody q).1 with
  | none =>
    rw [hmatched] at hgoes
    exact .unmatched (hgoes.resolve_left (by simp))
  | some entries => exact trials_hasSlot hbody rfl hmatched

/-! ## Steps -/

/-- A step that goes on keeps the captures those of the groups that were passed. -/
theorem Captured.goOn {t : Token} (h : Captured tokens earlier d)
    (ht : tokens[d.tokenIndex]? = some t)
    (hbody : ∀ body q s, t = .group body q s → Records body (fit o value body))
    (hstep : d.step o value tokens (Token.fitBody o value t) t = .goOn d') :
    Captured tokens earlier d' := by
  have hdepth : d'.depth = d.depth := step_goOn_depth hstep
  have hturn : Turn o value tokens (Token.fitBody o value t) d t _ := step_turn t
  rw [hstep] at hturn
  generalize hr : Step.goOn d' = r at hturn
  cases hturn with
  | discard =>
    cases hr
    exact h.addsRuns (dropChar_addsRuns d _) hdepth (by rw [dropChar_tokenIndex])
  | @take l q s c =>
    cases hr
    refine h.addsRuns (take_addsRuns d c l q) hdepth ?_
    unfold afterMatch
    split
    · exact congrArg (fun i => Token.groups (tokens.take i)) (take_tokenIndex c l)
    · refine Eq.trans ?_ (Token.groups_take_leaf ht)
      exact congrArg (fun i => Token.groups (tokens.take (i + 1))) (take_tokenIndex c l)
  | fill =>
    cases hr
    exact h.addsRuns (fill_addsRuns d _ _) hdepth
      (by rw [fill_tokenIndex, Token.groups_take_leaf ht])
  | skip _ _ hindex =>
    cases hr
    exact h.addsRuns (addsRuns_of_eq rfl) hdepth
      ((Token.groups_take_landing hindex).trans (Token.groups_take_leaf ht))
  | leave =>
    cases hr
    exact h.addsRuns (addsRuns_of_eq rfl) hdepth (Token.groups_take_leaf ht)
  | stop => cases hr
  | trial => exact h.fitGroup (hbody _ _ _ rfl) ht hr.symm hdepth

/-- A draft that has come past a group without a match, with the captures of the groups before
it. -/
def Stranded (tokens : List Token) (earlier : List Capture) (d : Draft) : Prop :=
  ∃ d' : Draft, Captured tokens earlier d' ∧ d.depth = d'.depth ∧
    (∃ body q s, tokens[d'.tokenIndex]? = some (.group body q s)) ∧
      d.tokenIndex = d'.tokenIndex + 1 ∧ d.captures = d'.captures ++ [.unmatched]

/-- A step that stops leaves the captures as they were, or adds the slot of a group that did not
match. -/
theorem Captured.stop {t : Token} (h : Captured tokens earlier d)
    (ht : tokens[d.tokenIndex]? = some t)
    (hstep : d.step o value tokens (Token.fitBody o value t) t = .stop d') :
    Captured tokens earlier d' ∨ Stranded tokens earlier d' := by
  have hdepth : (d.step o value tokens (Token.fitBody o value t) t).draft.depth = d.depth :=
    step_depth fun body q s _ => keepsLevel_fit o value body
  rw [hstep] at hdepth
  obtain rfl | ⟨body, q, s, rfl, hgroup⟩ := step_stop hstep
  · exact .inl h
  · obtain ⟨-, -, rfl⟩ := fitGroup_stop hgroup
    refine .inr ⟨d.endCapture, ?_, hdepth.trans endCapture_depth.symm, ⟨body, q, s, ?_⟩, rfl, rfl⟩
    · exact h.addsRuns (endCapture_addsRuns d) endCapture_depth (by rw [endCapture_tokenIndex])
    · rwa [endCapture_tokenIndex]

/-! ## Whole fittings -/

/-- Where stepping through tokens ends, the captures are those of the groups that were passed; where
it stops, the last of these may not have matched. -/
theorem walked_captured (o : Options) (value : List Char)
    (hbody : ∀ body q s, Token.group body q s ∈ tokens → Records body (fit o value body))
    (d : Draft) :
    Captured tokens d.captures (d.rewind.walked o value tokens).draft ∨
      (d.rewind.walked o value tokens).goesOn = false ∧
        Stranded tokens d.captures (d.rewind.walked o value tokens).draft := by
  refine walk_induction (I := Captured tokens d.captures)
    (J := fun r => Captured tokens d.captures r.draft ∨
      r.goesOn = false ∧ Stranded tokens d.captures r.draft) ?_ ?_ ?_ ?_
  · intro e t e' he ht hstep
    refine he.goOn ht (fun body q s hgroup => hbody body q s ?_) hstep
    exact List.mem_of_getElem? (hgroup ▸ ht)
  · intro e t e' he ht hstep
    exact (he.stop ht hstep).imp_right fun hstranded => ⟨rfl, hstranded⟩
  · intro e he ht
    exact .inl he
  · exact ⟨[], (List.append_nil _).symm, .nil, fun _ => rfl⟩

/-- A fitting that succeeds captures the slots of the groups of its tokens. -/
theorem records_fit (o : Options) (value : List Char) (tokens : List Token) :
    Records tokens (fit o value tokens) := by
  induction tokens using Token.groupInduction with
  | h tokens ih =>
    intro d hcomplete
    obtain ⟨hgoes, -, hlen⟩ := fit_complete_iff.1 hcomplete
    obtain hcaptured | ⟨hstops, -⟩ := walked_captured o value ih d
    · obtain ⟨entries, hentries, hslots, -⟩ :=
        hcaptured.addsRuns (endCapture_addsRuns _) endCapture_depth (by rw [endCapture_tokenIndex])
      rw [endCapture_tokenIndex, List.take_of_length_le hlen] at hslots
      exact ⟨entries, hentries, hslots⟩
    · rw [hgoes] at hstops
      cases hstops

end Draft

/-! ## The captures of an outcome -/

/-- The captures of an outcome mirror the groups of some tokens, of which those before a final one
were passed. -/
structure Outcome.MirrorsGroups (r : Outcome) (tokens : List Token) (final : Nat) : Prop where
  /-- There is no run of characters outside of a slot. -/
  slots : ∀ e ∈ r.captures, e.isRun = false
  /-- There are as many slots as groups before the final token. -/
  length : r.captures.length = (Token.groups (tokens.take final)).length
  /-- Where the pattern was satisfied, all of its groups have a slot. -/
  complete : r.complete = true → r.captures.length = (Token.groups tokens).length
  /-- A slot is one that the group in its place may have, unless the fitting stopped at that group:
  then it is the last one, and unmatched. -/
  slot : ∀ i t e, (Token.groups tokens)[i]? = some t → r.captures[i]? = some e →
    t.HasSlot e ∨ e = .unmatched ∧ i + 1 = r.captures.length ∧ r.complete = false

namespace Outcome

variable {r : Outcome} {tokens : List Token}

/-- Captures mirror the groups if they are the slots of those that were passed. -/
theorem mirrorsGroups_of_haveSlots {final : Nat}
    (h : Token.HaveSlots (tokens.take final) r.captures)
    (hcomplete : r.complete = true → tokens.length ≤ final) : r.MirrorsGroups tokens final := by
  have hlength : r.captures.length = (Token.groups (tokens.take final)).length :=
    (List.Forall₂.length_eq h).symm
  refine ⟨h.isRun, hlength, ?_, ?_⟩
  · intro hr
    rw [hlength, List.take_of_length_le (hcomplete hr)]
  · intro i t e ht he
    have hlt : i < r.captures.length := (List.getElem?_eq_some_iff.1 he).1
    rw [hlength] at hlt
    exact .inl (h.hasSlot ((Token.getElem?_groups_take hlt).trans ht) he)

/-- Captures mirror the groups also if the fitting stopped at a group that did not match. -/
theorem mirrorsGroups_of_unmatched {i : Nat} {body : List Token} {q : Quantifier} {s : Span}
    {entries : List Capture} (h : Token.HaveSlots (tokens.take i) entries)
    (ht : tokens[i]? = some (.group body q s)) (hcaptures : r.captures = entries ++ [.unmatched])
    (hcomplete : r.complete = false) : r.MirrorsGroups tokens (i + 1) := by
  have hentries : entries.length = (Token.groups (tokens.take i)).length :=
    (List.Forall₂.length_eq h).symm
  have hlength : r.captures.length = entries.length + 1 := by
    rw [hcaptures, List.length_append, List.length_singleton]
  refine ⟨?_, ?_, ?_, ?_⟩
  · rw [hcaptures]
    exact List.forall_mem_append.2 ⟨h.isRun, List.forall_mem_singleton.2 rfl⟩
  · rw [hlength, hentries, Token.groups_take_succ ht, List.length_append]
    rfl
  · intro hr
    rw [hcomplete] at hr
    cases hr
  · intro j t e ht' he
    rw [hcaptures] at he
    by_cases hlt : j < entries.length
    · rw [List.getElem?_append_left hlt] at he
      rw [hentries] at hlt
      exact .inl (h.hasSlot ((Token.getElem?_groups_take hlt).trans ht') he)
    · rw [List.getElem?_append_right (Nat.le_of_not_lt hlt)] at he
      obtain ⟨hlast, hunmatched⟩ := List.getElem?_eq_some_iff.1 he
      have hj : j + 1 = r.captures.length := by
        rw [List.length_singleton] at hlast
        omega
      refine .inr ⟨?_, hj, hcomplete⟩
      rw [← hunmatched, List.getElem_singleton]

end Outcome

/-- Outside of groups, what is captured from the first token on mirrors the groups that were
passed. -/
theorem Draft.mirrorsGroups_fit {o : Options} {value : List Char} {tokens : List Token} {d : Draft}
    (hdepth : d.depth = 0) (hcaptures : d.captures = []) :
    ((fit o value tokens d.rewind).outcome value).MirrorsGroups tokens
      (fit o value tokens d.rewind).tokenIndex := by
  have hlevel : (d.rewind.walked o value tokens).draft.depth ≤ 1 := by
    have hkept : (d.rewind.walked o value tokens).draft.depth - 1 = d.depth :=
      fit_depth.symm.trans (keepsLevel_fit o value tokens d.rewind)
    omega
  have hsame : ((fit o value tokens d.rewind).outcome value).captures =
      (d.rewind.walked o value tokens).draft.captures := by
    obtain ⟨runs, hruns, -, htop⟩ := endCapture_addsRuns (d.rewind.walked o value tokens).draft
    rw [htop hlevel, List.append_nil] at hruns
    exact hruns
  have hindex : (fit o value tokens d.rewind).tokenIndex =
      (d.rewind.walked o value tokens).draft.tokenIndex := endCapture_tokenIndex _
  rw [hindex]
  obtain ⟨entries, hentries, hslots, htop⟩ | ⟨hstops, e, ⟨entries, hentries, hslots, htop⟩, hlevel',
      ⟨body, q, s, ht⟩, hindex', hlast⟩ :=
    walked_captured o value (fun body q s _ => records_fit o value body) d
  · rw [hcaptures, List.nil_append] at hentries
    refine Outcome.mirrorsGroups_of_haveSlots ?_ fun hcomplete => (fit_complete_iff.1 hcomplete).2.2
    rwa [hsame, hentries, ← htop hlevel]
  · rw [hcaptures, List.nil_append] at hentries
    rw [hindex']
    rw [htop (hlevel' ▸ hlevel)] at hslots
    refine Outcome.mirrorsGroups_of_unmatched hslots ht ?_ ?_
    · rw [hsame, hlast, hentries]
    · refine Bool.eq_false_iff.2 fun hcomplete => ?_
      rw [(fit_complete_iff.1 hcomplete).1] at hstops
      cases hstops

/-- The captures of an outcome mirror the groups of the mask, up to the token at which the fitting
ended. -/
theorem Mask.captures_mirrorsGroups {source : List Char} {o : Options} {m : Mask}
    (hm : Mask.ofSource source o = .ok m) (value : List Char) (start stop : Nat) :
    (m.apply value start stop).MirrorsGroups m.tokens
      (m.passage value start stop).closing.tokenIndex := by
  obtain ⟨-, hfitted, hclosing⟩ := Mask.passage_of_ofSource hm value start stop
  rw [hclosing, hfitted, Mask.apply_of_ofSource hm]
  have hdepth : (Draft.ofSelection start stop).depth = 0 := rfl
  exact Draft.mirrorsGroups_fit hdepth rfl

/-- The first group matches twice, the group in it once; the second may be left out, and at the
third the fitting stops. -/
theorem Mask.captures_mirrorsGroups_repeated :
    ∃ m, Mask.ofSource "(d(x!)?-)+(d)*z(d)".toList = .ok m ∧
      (m.apply "5x-6-z".toList 0 0).captures =
        [.matched [.run ['5'], .matched [], .run ['6'], .unmatched], .unmatched, .unmatched] ∧
        (m.apply "5x-6-z".toList 0 0).MirrorsGroups m.tokens
          (m.passage "5x-6-z".toList 0 0).closing.tokenIndex := by
  obtain ⟨m, hm, hcaptures⟩ := Mask.exists_of_ofSource
    (show (Mask.ofSource "(d(x!)?-)+(d)*z(d)".toList).toOption.any
      (fun m => decide ((m.apply "5x-6-z".toList 0 0).captures =
        [.matched [.run ['5'], .matched [], .run ['6'], .unmatched], .unmatched, .unmatched])) =
          true by decide +kernel)
  exact ⟨m, hm, of_decide_eq_true hcaptures, Mask.captures_mirrorsGroups hm _ _ _⟩

end InputMask

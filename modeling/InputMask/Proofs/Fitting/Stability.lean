import InputMask.Proofs.Fitting.Rereading

/-!
# A complete text is stable

Fitting the text of a complete outcome again gives the same text, complete, where the pattern reads
what it writes. For then the text has a greedy reading, which is built from the end of the fitting
back to its start: `Draft.Resumes` says that what is still written from a draft on can be read from
there, and each turn that led to the draft adds what it wrote (`Draft.Resumes.step`). Where a leaf
was left for the value's next character, the text may have another one; `Foresees` says which.
-/

set_option autoImplicit false

namespace InputMask

variable {value rest w : List Char} {tokens ts body : List Token}
  {leaves ahead : List (Leaf × Quantifier)}
  {more : Bool} {n v : Nat}

/-- A text that may come after some tokens: its characters are accepted by the leaves ahead, and it
has some if text is sure to come. -/
structure Continues (ahead : List (Leaf × Quantifier)) (more : Bool) (rest : List Char) : Prop where
  acceptedBy : ∀ c ∈ rest, AcceptedBy ahead c
  ne_nil : more = true → rest ≠ []

/-- What is read, with what comes after it, may come after the tokens before. -/
theorem Continues.of_reading (h : Continues ahead more rest) (hread : Reading ts 0 w rest) :
    Continues (Token.leavesOf ts ++ ahead) (more || !Token.nullableOf ts) (w ++ rest) := by
  refine ⟨List.forall_mem_append.2 ⟨fun c hc => ?_, fun c hc => ?_⟩, fun hmore hnil => ?_⟩
  · exact (hread.acceptedBy c hc).mono (List.subset_append_left _ _)
  · exact (h.acceptedBy c hc).mono (List.subset_append_right _ _)
  · obtain ⟨rfl, rfl⟩ := List.append_eq_nil_iff.1 hnil
    rw [hread.nullableOf, Bool.not_true, Bool.or_false] at hmore
    exact h.ne_nil hmore rfl

/-- What is read with a group that repeats, with what comes after it, may come after its body. -/
theorem Continues.of_repetition {q : Quantifier} {s : Span} {u : List Char} (hq : q.repeats = true)
    (h : Continues ahead more rest) (hread : Reading ts 0 w rest)
    (hgroup : Reading (.group body q s :: ts) n (u ++ w) rest) :
    Continues (Token.beyond body q (Token.leavesOf ts ++ ahead)) (more || !Token.nullableOf ts)
      ((u ++ w) ++ rest) := by
  have hbeyond : Token.beyond body q (Token.leavesOf ts ++ ahead) =
      Token.leavesOf (.group body q s :: ts) ++ ahead := by
    rw [Token.beyond, if_pos hq, Token.leavesOf, Token.leaves, List.append_assoc]
  rw [hbeyond]
  refine ⟨List.forall_mem_append.2 ⟨fun c hc => ?_, fun c hc => ?_⟩, fun hmore hnil => ?_⟩
  · exact (hgroup.acceptedBy c hc).mono (List.subset_append_left _ _)
  · exact (h.acceptedBy c hc).mono (List.subset_append_right _ _)
  · rw [List.append_assoc] at hnil
    exact (h.of_reading hread).ne_nil hmore (List.append_eq_nil_iff.1 hnil).2

/-- Whether the next character of a text is the next one of the value, or one that some leaves
accept. -/
def Foresees (value : List Char) (leaves : List (Leaf × Quantifier)) (v : Nat) (w : List Char) :
    Prop :=
  ∀ c, w.head? = some c → value[v]? = some c ∨ AcceptedBy leaves c

/-- A text of characters that the leaves accept starts with a foreseen one. -/
theorem Foresees.of_acceptedBy (h : ∀ c ∈ w, AcceptedBy leaves c) : Foresees value leaves v w :=
  fun c hc => .inr (h c (List.mem_of_head? hc))

namespace Draft

variable {d d' : Draft} {o : Options} {t : Token} {l : Leaf} {q : Quantifier} {s : Span}
  {final : List Char}

/-- What is written from a draft on, up to a final text, can be read from there, whatever may come
after it; and unless the value's next character is rejected, its first character is foreseen. -/
def Resumes (o : Options) (value : List Char) (tokens : List Token)
    (ahead : List (Leaf × Quantifier)) (more : Bool) (final : List Char) (d : Draft) : Prop :=
  ∃ w, final = d.text ++ w ∧ ∀ rest, Continues ahead more rest →
    Reading (tokens.drop d.tokenIndex) d.repeats w rest ∧
      (d.repeats = 0 → d.rejects o tokens value[d.valueIndex]? = false →
        Foresees value (Token.substitutesOf ahead (tokens.drop d.tokenIndex)) d.valueIndex
          (w ++ rest))

/-! ## Turns at leaves -/

/-- The ways that a step at a leaf goes on, if no character is rejected and no token skipped: it
takes the character, leaves the leaf, or stays at it until it is written. -/
inductive LeafTurn (value : List Char) (l : Leaf) (q : Quantifier) (d : Draft) : Draft → Prop
  | take {c : Char} (hnext : value[d.valueIndex]? = some c) (hl : l.accepts c = true) :
      LeafTurn value l q d ((d.take c l).passChar.afterMatch q)
  | leave (hl : ∀ c, value[d.valueIndex]? = some c → l.accepts c = false)
      (hend : q.MayEnd d.repeats) : LeafTurn value l q d (d.leave q)
  | drop (before : Bool) (hstays : l.Stays q) : LeafTurn value l q d (d.dropChar before)
  | fill {c : Char} (before : Bool) (hl : l = .literal c) (hstays : l.Stays q) :
      LeafTurn value l q d (d.fill c before)

/-- To move on from a leaf is to leave it. -/
theorem moveOn_leafTurn (hl : ∀ c, value[d.valueIndex]? = some c → l.accepts c = false)
    (hmove : d.moveOn q = .goOn d') : LeafTurn value l q d d' := by
  by_cases hend : q.MayEnd d.repeats
  · rw [moveOn_of_mayEnd hend] at hmove
    obtain rfl := Step.goOn.inj hmove
    exact .leave hl hend
  · rw [moveOn_of_not_mayEnd hend] at hmove
    cases hmove

/-- A mismatch that skips nothing keeps the fitting at the leaf, with the character left out. -/
theorem onMismatch_leafTurn {c : Char} {before : Bool} (hstays : l.Stays q)
    (hstep : d.onMismatch o tokens c before = .goOn d') (hclean : d'.skipped = false) :
    LeafTurn value l q d d' := by
  unfold onMismatch at hstep
  split at hstep
  · cases hstep
    cases hclean
  · split at hstep <;> cases hstep
    exact .drop before hstays

/-- A step at a leaf that goes on, with nothing rejected or skipped, is one of its turns. -/
theorem step_leafTurn {fitBody : Draft → Draft}
    (hfree : d.rejects o tokens value[d.valueIndex]? = false)
    (hstep : d.step o value tokens fitBody (.leaf l q s) = .goOn d') (hclean : d'.skipped = false) :
    LeafTurn value l q d d' := by
  cases l with
  | ofClass k =>
    rw [step_class hfree] at hstep
    unfold fitClass at hstep
    split at hstep
    · next hnext =>
      refine moveOn_leafTurn (fun c hc => ?_) hstep
      rw [hnext] at hc
      cases hc
    · next c hnext =>
      split at hstep
      · next hk =>
        obtain rfl := Step.goOn.inj hstep
        exact .take (l := .ofClass k) hnext hk
      · next hk =>
        split at hstep
        · next hq =>
          exact onMismatch_leafTurn (hq.imp_right fun hrequired => ⟨hrequired, rfl⟩) hstep hclean
        · refine moveOn_leafTurn (fun b hb => ?_) hstep
          obtain rfl : c = b := Option.some.inj (hnext.symm.trans hb)
          exact Bool.eq_false_iff.2 hk
  | literal b =>
    rw [step_literal hfree] at hstep
    unfold fitLiteral at hstep
    split at hstep
    · next hnext =>
      obtain rfl := Step.goOn.inj hstep
      exact .take (l := .literal b) hnext (beq_self_eq_true b)
    · next hnext =>
      split at hstep
      · next hfill =>
        obtain rfl := Step.goOn.inj hstep
        exact .fill _ rfl (.inl hfill.1)
      · split at hstep
        · cases hstep
        · refine moveOn_leafTurn (fun c hc => beq_false_of_ne ?_) hstep
          rintro rfl
          exact hnext hc

/-- What can be resumed after a character is taken can be resumed before. -/
theorem Resumes.take {c : Char} (hcounts : Counts tokens d)
    (ht : tokens[d.tokenIndex]? = some (.leaf l q s)) (hnext : value[d.valueIndex]? = some c)
    (hl : l.accepts c = true)
    (h : Resumes o value tokens ahead more final ((d.take c l).passChar.afterMatch q)) :
    Resumes o value tokens ahead more final d := by
  obtain ⟨w, rfl, hrest⟩ := h
  refine ⟨c :: w, by simp [passChar], fun rest hcontinues => ⟨?_, fun _ _ b hb => .inl ?_⟩⟩
  · have hread := (hrest rest hcontinues).1
    rw [drop_eq_cons ht]
    cases hq : q.repeats with
    | true =>
      simp only [afterMatch, hq, if_true, passChar, take_tokenIndex, take_repeats] at hread
      rw [drop_eq_cons ht] at hread
      exact .again hq hl hread
    | false =>
      have hzero : d.repeats = 0 := hcounts.repeats_eq_zero ht (.inr hq)
      simp only [afterMatch, hq, passChar, passToken, take_tokenIndex, take_repeats, hzero] at hread
      rw [hzero]
      exact .once hq hl hread
  · obtain rfl : c = b := Option.some.inj hb
    exact hnext

/-- A character that a leaf does not accept is no more rejected after the leaf than at it. -/
theorem rejects_leave (ho : o.discard = true) (ht : tokens[d.tokenIndex]? = some (.leaf l q s))
    (hl : ∀ c, value[d.valueIndex]? = some c → l.accepts c = false) :
    (d.leave q).rejects o tokens value[(d.leave q).valueIndex]? =
      d.rejects o tokens value[d.valueIndex]? := by
  have hindex : (d.leave q).valueIndex = d.valueIndex := rfl
  have htoken : (d.leave q).tokenIndex = d.tokenIndex + 1 := rfl
  have hdepth : (d.leave q).depth = d.depth := rfl
  unfold rejects
  rw [hindex, htoken, hdepth, ho, drop_eq_cons ht]
  cases hnext : value[d.valueIndex]? with
  | none => rfl
  | some c =>
    rw [Option.any_some, Option.any_some, admission_leaf, hl c hnext]
    rfl

/-- What can be resumed after a leaf is left can be resumed before, as the next character is none of
the leaf's. -/
theorem Resumes.leave (ho : o.discard = true) (hcounts : Counts tokens d)
    (ht : tokens[d.tokenIndex]? = some (.leaf l q s))
    (hfaithful : Token.FaithfulOf ahead more tokens)
    (hl : ∀ c, value[d.valueIndex]? = some c → l.accepts c = false) (hend : q.MayEnd d.repeats)
    (hfree : d.rejects o tokens value[d.valueIndex]? = false)
    (h : Resumes o value tokens ahead more final (d.leave q)) :
    Resumes o value tokens ahead more final d := by
  obtain ⟨w, hfinal, hrest⟩ := h
  refine ⟨w, hfinal, fun rest hcontinues => ?_⟩
  obtain ⟨hread, hforesees⟩ := hrest rest hcontinues
  have hzero : (d.leave q).repeats = 0 := hcounts.repeats_leave ht
  rw [hzero] at hread
  replace hforesees := hforesees hzero ((rejects_leave ho ht hl).trans hfree)
  obtain ⟨hapart, hanchored⟩ := hfaithful.of_getElem? ht
  have hnext : ∀ c, (w ++ rest).head? = some c → l.accepts c = false := by
    intro c hc
    obtain hvalue | hwritten := hforesees c hc
    · exact hl c hvalue
    · exact hwritten.accepts_eq_false (hapart hend.varies)
  rw [drop_eq_cons ht]
  refine ⟨.leave hend hnext (fun hliteral => ?_) hread, fun hrepeats _ => ?_⟩
  · exact (hcontinues.of_reading hread).ne_nil (hanchored hliteral)
  · have habsent : q.canBeAbsent = true := (hrepeats ▸ hend).canBeAbsent
    have hstays : ¬l.Stays q := fun hstays => by
      rw [hstays.canBeAbsent] at habsent
      cases habsent
    rw [Token.substitutesOf, Token.substitutes, if_neg hstays, if_pos habsent]
    exact hforesees

/-- The next character that is written at a leaf that stays is one that this leaf accepts. -/
theorem foresees_of_stays (hstays : l.Stays q) (hread : Reading (.leaf l q s :: ts) n w rest) :
    Foresees value (Token.substitutesOf ahead (.leaf l q s :: ts)) v (w ++ rest) := by
  rw [Token.substitutesOf, Token.substitutes, if_pos hstays]
  intro c hc
  right
  cases hread with
  | again hq hl hread =>
    rw [hstays.repeats] at hq
    cases hq
  | once hq hl hread =>
    obtain rfl := Option.some.inj hc
    exact ⟨(l, q), List.mem_singleton.2 rfl, hl⟩
  | leave hend hl hmore hread =>
    obtain habsent | ⟨rfl, -⟩ := hend
    · rw [hstays.canBeAbsent] at habsent
      cases habsent
    · exact absurd hstays.repeats Bool.noConfusion

/-- What can be resumed after a character is left out can be resumed before. -/
theorem Resumes.stay (ht : tokens[d.tokenIndex]? = some (.leaf l q s)) (hstays : l.Stays q)
    {before : Bool} (h : Resumes o value tokens ahead more final (d.dropChar before)) :
    Resumes o value tokens ahead more final d := by
  obtain ⟨w, hfinal, hrest⟩ := h
  rw [dropChar_text] at hfinal
  refine ⟨w, hfinal, fun rest hcontinues => ?_⟩
  have hread := (hrest rest hcontinues).1
  rw [dropChar_tokenIndex, dropChar_repeats] at hread
  refine ⟨hread, fun _ _ => ?_⟩
  rw [drop_eq_cons ht] at hread ⊢
  exact foresees_of_stays hstays hread

/-- What can be resumed after a literal is filled in can be resumed before. -/
theorem Resumes.fill {c : Char} (hcounts : Counts tokens d)
    (ht : tokens[d.tokenIndex]? = some (.leaf (.literal c) q s))
    (hstays : (Leaf.literal c).Stays q) {before : Bool}
    (h : Resumes o value tokens ahead more final (d.fill c before)) :
    Resumes o value tokens ahead more final d := by
  obtain ⟨w, hfinal, hrest⟩ := h
  rw [fill_text, List.append_assoc] at hfinal
  refine ⟨c :: w, hfinal, fun rest hcontinues => ?_⟩
  have hzero : d.repeats = 0 := hcounts.repeats_eq_zero ht (.inr hstays.repeats)
  have hread := (hrest rest hcontinues).1
  rw [fill_tokenIndex, fill_repeats, hzero] at hread
  have hread' : Reading (tokens.drop d.tokenIndex) d.repeats (c :: w) rest := by
    rw [drop_eq_cons ht, hzero]
    exact .once hstays.repeats (beq_self_eq_true c) hread
  refine ⟨hread', fun _ _ => ?_⟩
  rw [drop_eq_cons ht] at hread' ⊢
  exact foresees_of_stays hstays hread'

/-- A character that is rejected and left out changes nothing for the text. -/
theorem Resumes.drop_rejected {before : Bool}
    (hrejects : d.rejects o tokens value[d.valueIndex]? = true)
    (h : Resumes o value tokens ahead more final (d.dropChar before)) :
    Resumes o value tokens ahead more final d := by
  obtain ⟨w, hfinal, hrest⟩ := h
  rw [dropChar_text] at hfinal
  refine ⟨w, hfinal, fun rest hcontinues => ⟨?_, fun _ hfree => ?_⟩⟩
  · have hread := (hrest rest hcontinues).1
    rwa [dropChar_tokenIndex, dropChar_repeats] at hread
  · rw [hrejects] at hfree
    cases hfree

/-! ## Trials of a body -/

/-- A way to fit whose successful trials write texts that can be read. -/
def Rereads (value : List Char) (tokens : List Token) (ahead : List (Leaf × Quantifier))
    (more : Bool) (fitBody : Draft → Draft) : Prop :=
  ∀ d : Draft, d.Clean → d.depth ≠ 0 → (d.trial fitBody).complete = true →
    ∃ w, (d.trial fitBody).text = d.text ++ w ∧ ∀ rest, Continues ahead more rest →
      Reading tokens 0 w rest ∧
        Foresees value (Token.substitutesOf ahead tokens) d.valueIndex (w ++ rest)

/-- What trials of a group have written from a draft on can be read with the group, which has
matched a number of times, ahead of what is read after it. -/
def TrialsReread (value : List Char) (body : List Token) (q : Quantifier) (s : Span)
    (ts : List Token) (ahead : List (Leaf × Quantifier)) (more : Bool) (n : Nat)
    (d after : Draft) : Prop :=
  ∃ u, after.text = d.text ++ u ∧ ∀ w rest, Continues ahead more rest → Reading ts 0 w rest →
    Reading (.group body q s :: ts) n (u ++ w) rest ∧
      (n = 0 → Foresees value (Token.substitutesOf ahead (.group body q s :: ts)) d.valueIndex
        (u ++ w ++ rest))

section Trials

variable (hfaithful : (Token.group body q s).Faithful (Token.leavesOf ts ++ ahead)
  (Token.substitutesOf ahead ts) (more || !Token.nullableOf ts))

include hfaithful

/-- Trials that end without a success can be read, where the group may end. -/
theorem trialsReread_quit (hend : q.MayEnd n) {after : Draft} (htext : after.text = d.text) :
    TrialsReread value body q s ts ahead more n d after := by
  obtain ⟨-, -, hdemand⟩ := hfaithful
  have hdemand' : ∃ l ∈ Token.demandsOf body, ∀ x ∈ Token.leavesOf ts ++ ahead,
      l.meets x.1 = false := by
    refine hdemand.resolve_left ?_
    rintro (rfl | rfl) <;> simp [Quantifier.MayEnd, Quantifier.canBeAbsent] at hend
  refine ⟨[], by rw [htext, List.append_nil], fun w rest hcontinues hread => ?_⟩
  have hahead := (hcontinues.of_reading hread).acceptedBy
  obtain ⟨l, hl, hapart⟩ := hdemand'
  refine ⟨.quit hend ⟨l, hl, fun c hc => (hahead c hc).accepts_eq_false hapart⟩ hread, fun hn => ?_⟩
  have habsent : q.canBeAbsent = true := (hn ▸ hend).canBeAbsent
  rw [Token.substitutesOf, Token.substitutes, habsent, if_pos rfl]
  exact .of_acceptedBy fun c hc => (hahead c hc).mono (List.subset_append_right _ _)

variable (hbody : Rereads value body (Token.beyond body q (Token.leavesOf ts ++ ahead))
    (more || !Token.nullableOf ts) (fit o value body))
  (hclean : d.Clean) (hdepth : d.depth ≠ 0)

include hbody hclean hdepth

/-- A successful trial has written something, which can be read ahead of what may come after it. -/
theorem trial_rereads (hcomplete : (d.trial (fit o value body)).complete = true) :
    ∃ u, (d.trial (fit o value body)).text = d.text ++ u ∧
      ∀ r, Continues (Token.beyond body q (Token.leavesOf ts ++ ahead))
        (more || !Token.nullableOf ts) r →
          u ≠ [] ∧ Reading body 0 u r ∧
            Foresees value (Token.substitutesOf ahead (.group body q s :: ts)) d.valueIndex
              (u ++ r) := by
  obtain ⟨-, hnullable, -⟩ := hfaithful
  obtain ⟨u, htext, hread⟩ := hbody d hclean hdepth hcomplete
  refine ⟨u, htext, fun r hcontinues => ?_⟩
  obtain ⟨hread, hforesees⟩ := hread r hcontinues
  refine ⟨?_, hread, fun c hc => (hforesees c hc).imp_right fun hwritten => ?_⟩
  · rintro rfl
    rw [hread.nullableOf] at hnullable
    cases hnullable
  · rw [Token.substitutesOf, Token.substitutes]
    exact hwritten.mono (List.subset_append_left _ _)

/-- What a single trial has written can be read, if the fitting goes on after it. -/
theorem tryOnce_rereads (hq : q.repeats = false)
    (hgoes : (d.tryOnce (fit o value body)).1.isSome = true ∨ q.canBeAbsent = true) :
    TrialsReread value body q s ts ahead more 0 d (d.tryOnce (fit o value body)).2 := by
  cases hcomplete : (d.trial (fit o value body)).complete with
  | true =>
    obtain ⟨u, htext, hread⟩ := trial_rereads hfaithful hbody hclean hdepth hcomplete
    rw [tryOnce_pass hcomplete]
    refine ⟨u, htext, fun w rest hcontinues hreadAfter => ?_⟩
    have hcontinues' : Continues (Token.beyond body q (Token.leavesOf ts ++ ahead))
        (more || !Token.nullableOf ts) (w ++ rest) := by
      rw [Token.beyond, hq]
      exact hcontinues.of_reading hreadAfter
    obtain ⟨hu, hread, hforesees⟩ := hread _ hcontinues'
    refine ⟨.pass hq hu hread hreadAfter, fun _ => ?_⟩
    rw [List.append_assoc]
    exact hforesees
  | false =>
    rw [tryOnce_fail hcomplete] at hgoes ⊢
    obtain hsome | habsent := hgoes
    · cases hsome
    · exact trialsReread_quit hfaithful (.inl habsent) rfl

/-- What repeated trials have written can be read, if the fitting goes on after them. -/
theorem tryRepeatedly_rereads (hq : q.repeats = true) {matched : Bool}
    (hmatched : matched = true → 0 < n)
    (hgoes : (tryRepeatedly value (fit o value body) matched d).1.isSome = true ∨
      q.canBeAbsent = true) :
    TrialsReread value body q s ts ahead more n d
      (tryRepeatedly value (fit o value body) matched d).2 := by
  induction matched, d using trialInduction value (fit o value body) generalizing n with
  | hfail matched d hfails =>
    rw [tryRepeatedly_fail hfails] at hgoes ⊢
    refine trialsReread_quit hfaithful ?_ rfl
    obtain hsome | habsent := hgoes
    · have hpos : 0 < n := by
        cases matched with
        | true => exact hmatched rfl
        | false => cases hsome
      cases q with
      | zeroOrMore => exact .inl rfl
      | oneOrMore => exact .inr ⟨rfl, hpos⟩
      | once => cases hq
      | optional => cases hq
      | required => cases hq
    · exact .inl habsent
  | hmore matched d hcomplete hadvances ih =>
    obtain ⟨u, htext, hread⟩ := trial_rereads hfaithful hbody hclean hdepth hcomplete
    obtain ⟨hclean', -⟩ := satisfies_fit o value body d hclean hcomplete
    have hdepth' : (d.trial (fit o value body)).depth ≠ 0 := by
      rwa [show (d.trial (fit o value body)).depth = d.depth from keepsLevel_fit o value body _]
    rw [tryRepeatedly_more hcomplete hadvances] at hgoes ⊢
    obtain ⟨u', htext', hreads⟩ := @ih (n + 1) hclean' hdepth' (fun _ => n.succ_pos) hgoes
    have htexts : (tryRepeatedly value (fit o value body) true
        (d.trial (fit o value body))).2.text = d.text ++ (u ++ u') := by
      rw [htext', htext, List.append_assoc]
    refine ⟨u ++ u', htexts, fun w rest hcontinues hreadAfter => ?_⟩
    have hreadMore := (hreads w rest hcontinues hreadAfter).1
    have hcontinues' := hcontinues.of_repetition hq hreadAfter hreadMore
    obtain ⟨hu, hread, hforesees⟩ := hread _ hcontinues'
    rw [List.append_assoc u]
    refine ⟨.more hq hu hread hreadMore, fun _ => ?_⟩
    rw [List.append_assoc]
    exact hforesees
  | hlast matched d hcomplete hstays =>
    -- a success reads a character of the value, so that it is not the last
    obtain ⟨-, -, hdemand⟩ := hfaithful
    obtain ⟨l, hl, -⟩ := hdemand.resolve_left (by rintro (rfl | rfl) <;> cases hq)
    exact absurd (advances_of_demands hclean hl hcomplete) hstays

/-- What the trials that a quantifier asks for have written can be read, if the fitting goes on. -/
theorem trials_rereads (hgoes : (d.trials value (fit o value body) q).1.isSome = true ∨
      q.canBeAbsent = true) :
    TrialsReread value body q s ts ahead more 0 d (d.trials value (fit o value body) q).2 := by
  unfold trials at hgoes ⊢
  cases hq : q.repeats with
  | true =>
    rw [hq] at hgoes
    exact tryRepeatedly_rereads hfaithful hbody hclean hdepth hq (fun h => by cases h) hgoes
  | false =>
    rw [hq] at hgoes
    exact tryOnce_rereads hfaithful hbody hclean hdepth hq hgoes

end Trials

/-- What can be resumed after a group can be resumed before it. -/
theorem Resumes.group (hcounts : Counts tokens d)
    (ht : tokens[d.tokenIndex]? = some (.group body q s))
    (hfaithful : Token.FaithfulOf ahead more tokens)
    (hbody : ∀ ahead more, Token.FaithfulOf ahead more body →
      Rereads value body ahead more (fit o value body))
    (hdepth : d.depth ≠ 0) (hstep : d.fitGroup value (fit o value body) q = .goOn d')
    (h : Resumes o value tokens ahead more final d') :
    Resumes o value tokens ahead more final d := by
  have hgroup := hfaithful.of_getElem? ht
  have hzero : d.repeats = 0 := hcounts.repeats_eq_zero ht (.inl rfl)
  have hclean : d.endCapture.openScope.Clean := ⟨rfl, rfl⟩
  have hdepth' : d.endCapture.openScope.depth ≠ 0 := fun hnone =>
    hdepth (endCapture_depth.symm.trans hnone)
  obtain ⟨hgoes, rfl⟩ := fitGroup_goOn hstep
  obtain ⟨u, htext, hreads⟩ := trials_rereads hgroup (hbody _ _ hgroup.1) hclean hdepth' hgoes
  obtain ⟨w, hfinal, hrest⟩ := h
  have htext' : (d.endCapture.openScope.trials value (fit o value body) q).2.text = d.text ++ u :=
    htext.trans (congrArg (· ++ u) endCapture_text)
  refine ⟨u ++ w, ?_, fun rest hcontinues => ?_⟩
  · rw [← List.append_assoc, ← htext']
    exact hfinal
  · have hread : Reading (tokens.drop (d.endCapture.tokenIndex + 1)) d.endCapture.repeats w rest :=
      (hrest rest hcontinues).1
    rw [endCapture_tokenIndex, endCapture_repeats, hzero] at hread
    obtain ⟨hreadGroup, hforesees⟩ := hreads w rest hcontinues hread
    rw [drop_eq_cons ht, hzero]
    refine ⟨hreadGroup, fun _ _ => ?_⟩
    rw [← endCapture_valueIndex d]
    exact hforesees rfl

/-! ## Whole fittings -/

/-- What a step has written can be read, if what was written after it can. -/
theorem Resumes.step (ho : o.discard = true) (hcounts : Counts tokens d)
    (ht : tokens[d.tokenIndex]? = some t) (hfaithful : Token.FaithfulOf ahead more tokens)
    (hbody : ∀ body q s, t = .group body q s → ∀ ahead more, Token.FaithfulOf ahead more body →
      Rereads value body ahead more (fit o value body))
    (hdepth : d.depth ≠ 0)
    (hstep : d.step o value tokens (Token.fitBody o value t) t = .goOn d')
    (hclean : d'.skipped = false) (h : Resumes o value tokens ahead more final d') :
    Resumes o value tokens ahead more final d := by
  cases hfree : d.rejects o tokens value[d.valueIndex]? with
  | true =>
    rw [step_rejected hfree, if_pos ho] at hstep
    obtain rfl := Step.goOn.inj hstep
    exact h.drop_rejected hfree
  | false =>
    cases t with
    | leaf l q s =>
      obtain ⟨hnext, hl⟩ | ⟨hl, hend⟩ | ⟨before, hstays⟩ | ⟨before, rfl, hstays⟩ :=
        step_leafTurn hfree hstep hclean
      · exact h.take hcounts ht hnext hl
      · exact h.leave ho hcounts ht hfaithful hl hend hfree
      · exact h.stay ht hstays
      · exact h.fill hcounts ht hstays
    | group body q s =>
      rw [step_group hfree] at hstep
      exact h.group hcounts ht hfaithful (hbody body q s rfl) hdepth hstep

/-- What is written from a draft on where stepping to the end succeeds can be read from there. -/
theorem resumes_of_succeeds (ho : o.discard = true) (hfaithful : Token.FaithfulOf ahead more tokens)
    (hbody : ∀ body q s, Token.group body q s ∈ tokens → ∀ ahead more,
      Token.FaithfulOf ahead more body → Rereads value body ahead more (fit o value body))
    (hcounts : Counts tokens d) (hdepth : d.depth ≠ 0) (h : Succeeds o value tokens d) :
    Resumes o value tokens ahead more
      (walk o value tokens (fitBodies o value tokens) d).draft.text d := by
  induction h using Succeeds.induction with
  | hend d h ht =>
    have hlength := List.getElem?_eq_none_iff.1 ht
    rw [walk_none ht]
    refine ⟨[], (List.append_nil _).symm, fun rest hcontinues => ?_⟩
    rw [List.drop_of_length_le hlength, hcounts.repeats_of_none ht]
    exact ⟨.done, fun _ _ => .of_acceptedBy hcontinues.acceptedBy⟩
  | hgo d t d' h h' ht hstep ih =>
    have hclean := h'.not_skipped
    have hmem := List.mem_of_getElem? ht
    have hdepth' : d'.depth ≠ 0 := by rwa [step_goOn_depth hstep]
    rw [walk_goOn ht hstep]
    exact (ih (hcounts.goOn ht hstep) hdepth').step ho hcounts ht hfaithful
      (fun body q s hgroup => hbody body q s (hgroup ▸ hmem)) hdepth hstep hclean

/-- What a fitting has written where it succeeds can be read from its first step on. -/
theorem resumes_fit (ho : o.discard = true) (hfaithful : Token.FaithfulOf ahead more tokens)
    (hbody : ∀ body q s, Token.group body q s ∈ tokens → ∀ ahead more,
      Token.FaithfulOf ahead more body → Rereads value body ahead more (fit o value body))
    (hclean : d.Clean) (hcomplete : (d.trial (fit o value tokens)).complete = true) :
    Resumes o value tokens ahead more (d.trial (fit o value tokens)).text d.rewind.enter := by
  have hcounts : Counts tokens d.rewind.enter := .inl hclean.repeats
  have hdepth : d.rewind.enter.depth ≠ 0 := Nat.succ_ne_zero d.depth
  rw [trial, fit_text]
  exact resumes_of_succeeds ho hfaithful hbody hcounts hdepth
    (fit_complete_iff_succeeds.1 hcomplete)

/-- A fitting to a faithful pattern that succeeds has written a text that can be read. -/
theorem rereads_fit (ho : o.discard = true) (tokens : List Token) :
    ∀ ahead more, Token.FaithfulOf ahead more tokens →
      Rereads value tokens ahead more (fit o value tokens) := by
  induction tokens using Token.groupInduction with
  | h tokens ih =>
    intro ahead more hfaithful d hclean hdepth hcomplete
    obtain ⟨w, htext, hrest⟩ := resumes_fit ho hfaithful ih hclean hcomplete
    refine ⟨w, htext, fun rest hcontinues => ?_⟩
    have hzero : d.rewind.enter.repeats = 0 := hclean.repeats
    -- only at the level of the whole pattern is a character rejected
    have hfree : d.rewind.enter.rejects o tokens value[d.rewind.enter.valueIndex]? = false := by
      have hne : d.rewind.enter.depth ≠ 1 := fun hone => hdepth (Nat.succ.inj hone)
      simp [rejects, hne]
    obtain ⟨hread, hforesees⟩ := hrest rest hcontinues
    rw [hzero] at hread
    exact ⟨hread, hforesees hzero hfree⟩

/-- The text of a fitting to a faithful pattern that succeeds is fitted as it is. -/
theorem fit_stable (ho : o.discard = true) (hfaithful : Token.FaithfulOf [] false tokens)
    {start stop : Nat} (hcomplete : (fit o value tokens (.ofSelection start stop)).complete = true)
    {text : List Char} (htext : (fit o value tokens (.ofSelection start stop)).text = text)
    (start' stop' : Nat) :
    (fit o text tokens (.ofSelection start' stop')).complete = true ∧
      (fit o text tokens (.ofSelection start' stop')).text = text ∧
        text.drop (fit o text tokens (.ofSelection start' stop')).valueIndex = [] := by
  have hclean : ∀ i j, (ofSelection i j).Clean := fun i j => ⟨rfl, rfl⟩
  obtain ⟨w, hw, hrest⟩ := resumes_fit ho hfaithful (fun body q s _ => rereads_fit ho body)
    (hclean start stop) hcomplete
  have hnothing : Continues [] false [] :=
    ⟨fun c hc => absurd hc List.not_mem_nil, fun hmore => Bool.noConfusion hmore⟩
  have hread : Reading tokens 0 w [] := (hrest [] hnothing).1
  obtain rfl : text = w := htext.symm.trans hw
  obtain ⟨hcomplete', hkeeps, hrest'⟩ := retold_fit ho tokens (ofSelection start' stop') text []
    (hclean start' stop') (fun _ => rfl) (List.append_nil _).symm hread
  refine ⟨hcomplete', ?_, hrest'⟩
  have hsame := hkeeps.text
  rw [hrest', List.append_nil] at hsame
  exact hsame

end Draft

/-- What a complete outcome has as its text comes out of the mask unchanged, complete and with
nothing left of it, if the mask reads what it writes and characters that fit nowhere are
discarded. -/
theorem Mask.stable_of_complete {source : List Char} {o : Options} {m : Mask}
    (hm : Mask.ofSource source o = .ok m) (ho : o.discard = true)
    (hfaithful : Token.FaithfulOf [] false m.tokens) {value : List Char} {start stop : Nat}
    (hcomplete : (m.apply value start stop).complete = true) (start' stop' : Nat) :
    (m.apply (m.apply value start stop).text start' stop').text = (m.apply value start stop).text ∧
      (m.apply (m.apply value start stop).text start' stop').complete = true ∧
        (m.apply (m.apply value start stop).text start' stop').remainder = none := by
  rw [Mask.apply_of_ofSource hm value] at hcomplete ⊢
  rw [Mask.apply_of_ofSource hm]
  obtain ⟨hcomplete', htext, hrest⟩ := Draft.fit_stable ho hfaithful hcomplete rfl start' stop'
  refine ⟨htext, hcomplete', ?_⟩
  have hnone : ∀ text : List Char,
      text.drop (fit o text m.tokens (.ofSelection start' stop')).valueIndex = [] →
        ((fit o text m.tokens (.ofSelection start' stop')).outcome text).remainder = none := by
    intro text hdrop
    simp only [Draft.outcome, hdrop]
  exact hnone _ hrest

/-- Here characters are left out, literals are filled in, and the last trial of a group is taken
back. -/
theorem Mask.stable_of_complete_repeated :
    ∃ m, Mask.ofSource "a?(d-)*bx+".toList = .ok m ∧
      (m.apply "7%8q9x".toList 0 0).text = "7-8-9-bx".toList ∧
        (m.apply "7-8-9-bx".toList 0 0).text = "7-8-9-bx".toList ∧
          (m.apply "7-8-9-bx".toList 0 0).complete = true := by
  obtain ⟨m, hm, hrun⟩ := Mask.exists_of_ofSource
    (show (Mask.ofSource "a?(d-)*bx+".toList).toOption.any (fun (m : Mask) => decide (
      Token.FaithfulOf [] false m.tokens ∧ (m.apply "7%8q9x".toList 0 0).complete = true ∧
        (m.apply "7%8q9x".toList 0 0).text = "7-8-9-bx".toList)) = true by decide +kernel)
  obtain ⟨hfaithful, hcomplete, htext⟩ := of_decide_eq_true hrun
  obtain ⟨hsame, hcomplete', -⟩ := Mask.stable_of_complete hm rfl hfaithful hcomplete 0 0
  rw [htext] at hsame hcomplete'
  exact ⟨m, hm, htext, hsame, hcomplete'⟩

/-- A literal that was filled in is taken by the class before it when the text is fitted again, and
filled in once more. -/
theorem Mask.unstable_of_complete :
    ∃ m, Mask.ofSource "d*1x".toList = .ok m ∧
      (m.apply "x".toList 0 0).complete = true ∧ (m.apply "x".toList 0 0).text = "1x".toList ∧
        (m.apply "1x".toList 0 0).text = "11x".toList := by
  obtain ⟨m, hm, hrun⟩ := Mask.exists_of_ofSource
    (show (Mask.ofSource "d*1x".toList).toOption.any (fun (m : Mask) => decide (
      (m.apply "x".toList 0 0).complete = true ∧ (m.apply "x".toList 0 0).text = "1x".toList ∧
        (m.apply "1x".toList 0 0).text = "11x".toList)) = true by decide +kernel)
  exact ⟨m, hm, of_decide_eq_true hrun⟩

-- Among the masks that read what they write are those for dates, telephone numbers and lists.
example : ["dd?//dd?//dddd", "/(ddd/) ddd-dddd", "d*-*d*", "(d+)?-", "(d-)+x!", "((d)-d)*"].all
    (fun source => (Mask.ofSource source.toList).toOption.any
      fun m => decide (Token.FaithfulOf [] false m.tokens)) = true := by decide +kernel

end InputMask

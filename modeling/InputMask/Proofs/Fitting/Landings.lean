import InputMask.Proofs.Fitting.Conformity
import InputMask.Proofs.Fitting.Strictness
import InputMask.Proofs.Fitting.Trials

/-!
# Where tokens are skipped

`admission` and `landing?` read a pattern from the left, each in its own way, with one character in
mind. Where characters are discarded they agree: what is said of the character from some place on is
what is said of it from the token at which reading can be taken up again
(`admission_drop_of_landing?`), and nothing is settled if there is no such token.

So a character for which tokens are skipped is not rejected where they are skipped to. `Head.Jumps`
says that the step at a head skips tokens, and `Draft.jump_of_mem_levelHeads` follows it to the next
head.
-/

set_option autoImplicit false

namespace InputMask

variable {tokens : List Token} {t : Token} {c : Char} {start index : Nat}

/-! ## Two ways to look for a character -/

/-- Where characters are discarded, a leaf that does not take a character leaves it to the tokens
after it. -/
theorem admission_cons_of_passed (hgroup : t.isGroup = false) (haccepts : t.accepts c = false)
    (ts : List Token) : admission true c (t :: ts) = admission true c ts := by
  cases t with
  | group body q s => cases hgroup
  | leaf l q s =>
    rw [admission_leaf]
    exact if_neg (Bool.eq_false_iff.1 haccepts)

/-- A character that no token takes is left to what follows, if there are no groups. -/
theorem admission_of_findIdx?_eq_none
    (h : tokens.findIdx? (fun t => t.isGroup || t.accepts c) = none) :
    admission true c tokens = .deferred := by
  induction tokens with
  | nil => rfl
  | cons t ts ih =>
    obtain ⟨ht, hts⟩ := List.forall_mem_cons.1 (List.findIdx?_eq_none_iff.1 h)
    obtain ⟨hgroup, haccepts⟩ := Bool.or_eq_false_iff.1 ht
    rw [admission_cons_of_passed hgroup haccepts]
    exact ih (List.findIdx?_eq_none_iff.2 hts)

/-- The tokens before the first that takes a character or is a group have no say. -/
theorem admission_drop_of_findIdx?
    (h : tokens.findIdx? (fun t => t.isGroup || t.accepts c) = some index) :
    admission true c tokens = admission true c (tokens.drop index) := by
  induction tokens generalizing index with
  | nil => cases h
  | cons t ts ih =>
    rw [List.findIdx?_cons] at h
    split at h
    · obtain rfl : 0 = index := Option.some.inj h
      rfl
    · next ht =>
      obtain ⟨index, hindex, rfl⟩ := Option.map_eq_some_iff.1 h
      obtain ⟨hgroup, haccepts⟩ := Bool.or_eq_false_iff.1 (Bool.eq_false_iff.2 ht)
      rw [admission_cons_of_passed hgroup haccepts]
      exact ih hindex

/-- Where there is no token to go on at, the character is left to what follows. -/
theorem admission_drop_of_landing?_eq_none (h : landing? tokens start c = none) :
    admission true c (tokens.drop start) = .deferred :=
  admission_of_findIdx?_eq_none (Option.map_eq_none_iff.1 h)

/-- What is said of a character from a place on is what is said of it from where reading can be
taken up again with it. -/
theorem admission_drop_of_landing? (h : landing? tokens start c = some index) :
    admission true c (tokens.drop start) = admission true c (tokens.drop index) := by
  obtain ⟨i, hi, rfl⟩ := Option.map_eq_some_iff.1 h
  rw [admission_drop_of_findIdx? hi, List.drop_drop, Nat.add_comm]

/-! ## Jumps -/

/-- The step at a head skips tokens, up to the first after the current one that takes the next
character or is a group. -/
structure Head.Jumps (o : Options) (value : List Char) (c : Char) (index : Nat) (h : Head) :
    Prop where
  next : value[h.draft.valueIndex]? = some c
  lands : landing? h.tokens (h.draft.tokenIndex + 1) c = some index
  goesOn : h.draft.next? o value h.tokens = some (.goOn (h.draft.skipTo index))

/-- Whether the step at a head skips tokens is decided by what comes next there. -/
instance (o : Options) (value : List Char) (c : Char) (index : Nat) :
    DecidablePred (Head.Jumps o value c index) := fun h =>
  decidable_of_iff (value[h.draft.valueIndex]? = some c ∧
    landing? h.tokens (h.draft.tokenIndex + 1) c = some index ∧
      h.draft.next? o value h.tokens = some (.goOn (h.draft.skipTo index)))
    ⟨fun ⟨hnext, hlands, hgo⟩ => ⟨hnext, hlands, hgo⟩, fun h => ⟨h.next, h.lands, h.goesOn⟩⟩

namespace Draft

variable {d : Draft} {o : Options} {value : List Char}

/-- Where a step skips tokens, the next character is not rejected. -/
theorem not_rejects_of_skips {fitBody : Draft → Draft} (ho : o.discard = true)
    (hstep : d.step o value tokens fitBody t = .goOn (d.skipTo index)) :
    d.rejects o tokens value[d.valueIndex]? = false := by
  rw [← Bool.not_eq_true]
  intro hrejects
  rw [step_rejected hrejects, if_pos ho, Step.goOn.injEq] at hstep
  have hvalue := congrArg Draft.valueIndex hstep
  simp [skipTo] at hvalue

/-- Tokens are skipped at a leaf that does not take the next character. -/
theorem passed_of_skips {fitBody : Draft → Draft} (ho : o.discard = true)
    (hnext : value[d.valueIndex]? = some c)
    (hstep : d.step o value tokens fitBody t = .goOn (d.skipTo index)) :
    t.isGroup = false ∧ t.accepts c = false := by
  have hfree := not_rejects_of_skips ho hstep
  cases t with
  | leaf l q s =>
    refine ⟨rfl, ?_⟩
    rw [← Bool.not_eq_true]
    intro haccepts
    rw [step_take hfree hnext haccepts, Step.goOn.injEq] at hstep
    have hvalue := congrArg Draft.valueIndex hstep
    simp [skipTo, passChar] at hvalue
  | group body q s =>
    -- a step at a group adds its slot to the captures, and skipping leaves them alone
    have hcaptures := fitGroup_captures d value fitBody q
    rw [← step_group hfree body, hstep, endCapture_eq] at hcaptures
    have hlength := congrArg List.length hcaptures
    simp only [Step.draft, skipTo, List.length_append, List.length_singleton] at hlength
    omega

/-- The head after one whose step skips tokens is where they are skipped to, and there the character
is not rejected. -/
theorem jump_of_levelHeads (ho : o.discard = true) (ht : tokens[d.tokenIndex]? = some t)
    (hjumps : Head.Jumps o value c index ⟨tokens, d⟩) :
    [⟨tokens, d⟩, ⟨tokens, d.skipTo index⟩] <+: levelHeads o value tokens d ∧
      ¬Head.Rejects o value ⟨tokens, d.skipTo index⟩ := by
  obtain ⟨hnext, hlands, hgo⟩ := hjumps
  dsimp only at hnext hlands hgo
  have hstep : d.step o value tokens (Token.fitBody o value t) t = .goOn (d.skipTo index) :=
    (next?_eq_some_iff ht).1 hgo
  obtain ⟨hgroup, haccepts⟩ := passed_of_skips ho hnext hstep
  constructor
  · obtain ⟨u, hu⟩ : ∃ u, tokens[(d.skipTo index).tokenIndex]? = some u :=
      ⟨_, List.getElem?_eq_getElem (landing?_lt hlands)⟩
    cases t with
    | group body q s => cases hgroup
    | leaf l q s =>
      rw [levelHeads_some ht, hstep]
      dsimp only [stepHeads]
      rw [List.nil_append, levelHeads_some hu]
      exact ⟨_, rfl⟩
  · have hfree := not_rejects_of_skips ho hstep
    have hadmission : admission true c (tokens.drop d.tokenIndex) =
        admission true c (tokens.drop index) := by
      rw [drop_eq_cons ht, admission_cons_of_passed hgroup haccepts,
        admission_drop_of_landing? hlands]
    simp only [rejects, hnext, ho, Option.any_some, hadmission] at hfree
    simp only [Head.Rejects, rejects, skipTo, hnext, ho, Option.any_some, hfree,
      Bool.false_eq_true, not_false_eq_true]

/-- On the level of a whole pattern, the head after one whose step skips tokens is where they are
skipped to, and there the character is not rejected. -/
theorem jump_of_mem_levelHeads (ho : o.discard = true) (d : Draft) :
    ∀ h ∈ levelHeads o value tokens d, h.draft.depth = d.depth → h.Jumps o value c index →
      [h, ⟨h.tokens, h.draft.skipTo index⟩] <:+: levelHeads o value tokens d ∧
        ¬Head.Rejects o value ⟨h.tokens, h.draft.skipTo index⟩ := by
  -- the heads in a step are on levels further down
  have hdeeper : ∀ (e : Draft) (t : Token),
      ∀ h ∈ e.stepHeads o value tokens (Token.bodyHeads o value t) t, e.depth < h.draft.depth :=
    fun e t => depth_lt_of_mem_stepHeads fun body q s _ e => depth_lt_of_mem_heads o value body e
  induction d using stepInduction o value tokens with
  | hend d ht =>
    rw [levelHeads_none ht]
    intro h hh
    cases hh
  | hstop d t d' ht hstop =>
    intro h hh hdepth hjumps
    rw [levelHeads_some ht, hstop, List.append_nil] at hh
    obtain rfl | hh := List.mem_cons.1 hh
    · exact (jump_of_levelHeads ho ht hjumps).imp_left List.IsPrefix.isInfix
    · exact absurd hdepth (Nat.ne_of_gt (hdeeper d t h hh))
  | hgo d t d' ht hstep ih =>
    intro h hh hdepth hjumps
    have hlist : levelHeads o value tokens d =
        ⟨tokens, d⟩ :: (d.stepHeads o value tokens (Token.bodyHeads o value t) t ++
          levelHeads o value tokens d') := by
      rw [levelHeads_some ht, hstep]
    rw [hlist] at hh
    obtain rfl | hh := List.mem_cons.1 hh
    · exact (jump_of_levelHeads ho ht hjumps).imp_left List.IsPrefix.isInfix
    · obtain hh | hh := List.mem_append.1 hh
      · exact absurd hdepth (Nat.ne_of_gt (hdeeper d t h hh))
      · obtain ⟨hadjacent, hrejects⟩ := ih h hh (hdepth.trans (step_goOn_depth hstep).symm) hjumps
        refine ⟨?_, hrejects⟩
        rw [hlist]
        exact hadjacent.trans ((List.suffix_append _ _).trans (List.suffix_cons _ _)).isInfix

end Draft

/-- Where characters are discarded, the two ways to look for a character agree: from any place on, a
pattern says of the character what it says from where reading can be taken up again, or leaves it to
what follows if there is no such place. So whatever draft a value is fitted to a mask from, a
character for which tokens of the whole pattern are skipped is not rejected at the next head. -/
theorem admission_at_landing :
    (∀ (tokens : List Token) (start : Nat) (c : Char),
      (landing? tokens start c = none → admission true c (tokens.drop start) = .deferred) ∧
        ∀ index, landing? tokens start c = some index →
          admission true c (tokens.drop start) = admission true c (tokens.drop index)) ∧
      ∀ (m : Mask) (value : List Char) (d : Draft), m.options.discard = true →
        ∀ h ∈ heads m.options value m.tokens d, h.draft.depth = d.depth + 1 →
          ∀ c index, h.Jumps m.options value c index →
            [h, ⟨h.tokens, h.draft.skipTo index⟩] <:+: heads m.options value m.tokens d ∧
              ¬Head.Rejects m.options value ⟨h.tokens, h.draft.skipTo index⟩ := by
  refine ⟨fun tokens start c => ⟨?_, fun index => admission_drop_of_landing?⟩, ?_⟩
  · exact admission_drop_of_landing?_eq_none
  · intro m value d ho h hh hdepth c index hjumps
    exact Draft.jump_of_mem_levelHeads ho d.enter h hh hdepth hjumps

/-- Tokens are skipped up to a group that does not take the character, which the token after it
does. -/
theorem admission_at_landing_grouped :
    ∃ m, Mask.ofSource "dd(a)?x".toList = .ok m ∧ landing? m.tokens 1 'x' = some 2 ∧
      admission true 'x' (m.tokens.drop 2) = .accepted ∧
        admission true 'x' (m.tokens.drop 1) = admission true 'x' (m.tokens.drop 2) ∧
        ∃ h ∈ heads m.options "x".toList m.tokens (.ofSelection 0 0), h.draft.depth = 1 ∧
          h.Jumps m.options "x".toList 'x' 2 ∧
            [h, ⟨h.tokens, h.draft.skipTo 2⟩] <:+:
              heads m.options "x".toList m.tokens (.ofSelection 0 0) ∧
            ¬Head.Rejects m.options "x".toList ⟨h.tokens, h.draft.skipTo 2⟩ := by
  obtain ⟨m, hm, hrun⟩ := Mask.exists_of_ofSource
    (show (Mask.ofSource "dd(a)?x".toList).toOption.any (fun (m : Mask) => decide (
      m.options.discard = true ∧ landing? m.tokens 1 'x' = some 2 ∧
        admission true 'x' (m.tokens.drop 2) = .accepted ∧
        ∃ h ∈ heads m.options "x".toList m.tokens (.ofSelection 0 0), h.draft.depth = 1 ∧
          h.Jumps m.options "x".toList 'x' 2)) = true by decide +kernel)
  obtain ⟨ho, hlands, hverdict, h, hh, hdepth, hjumps⟩ := of_decide_eq_true hrun
  obtain ⟨hagrees, hruns⟩ := admission_at_landing
  obtain ⟨hadjacent, hrejects⟩ := hruns m "x".toList (.ofSelection 0 0) ho h hh hdepth 'x' 2 hjumps
  exact ⟨m, hm, hlands, hverdict, (hagrees m.tokens 1 'x').2 2 hlands, h, hh, hdepth, hjumps,
    hadjacent, hrejects⟩

end InputMask

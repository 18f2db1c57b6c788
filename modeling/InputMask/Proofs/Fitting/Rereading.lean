import InputMask.Proofs.Fitting.Satisfaction
import InputMask.Proofs.Fitting.Conformity
import InputMask.Proofs.Fitting.Heads
import InputMask.Proofs.Fitting.Demands

/-!
# A text that can be read greedily is left as it is

Fitting a text takes the way of its greedy reading: a leaf takes the next character if it can, and a
group is tried again for as long as the reading repeats it. `Draft.Retells` says of a draft that it
is on that way. Every step keeps to it (`Draft.Retells.step`), also one at a group, whose trials
fail where the reading quits the group (`Draft.trials_retold`). So a fitting succeeds with the text
as it is (`Draft.retold_fit`).
-/

set_option autoImplicit false

namespace InputMask

namespace Draft

variable {d d₀ d₁ d' : Draft} {o : Options} {value rest w : List Char} {tokens ts body : List Token}
  {t : Token} {l : Leaf} {q : Quantifier} {s : Span} {n : Nat}

/-! ## Drafts that write what they read -/

/-- A draft that since an earlier one has written what it has read, on the same level. -/
structure Balances (value : List Char) (d₀ d : Draft) : Prop where
  text : d.text ++ value.drop d.valueIndex = d₀.text ++ value.drop d₀.valueIndex
  selection : d.selection = d₀.selection
  depth : d.depth = d₀.depth

/-- What has been written and read adds up over two parts of a way. -/
theorem Balances.trans (h : Balances value d₀ d₁) (h' : Balances value d₁ d) :
    Balances value d₀ d :=
  ⟨h'.text.trans h.text, h'.selection.trans h.selection, h'.depth.trans h.depth⟩

/-- A draft that keeps up with the reading has written what it has read. -/
theorem Keeps.balances (h : Keeps value d₀ d) : Balances value d₀ d :=
  ⟨h.text, h.selection, h.depth⟩

/-- A trial that is taken back leaves nothing written. -/
theorem balances_revertTo (o : Options) (value : List Char) (body : List Token) (d : Draft) :
    Balances value d ((d.trial (fit o value body)).revertTo d) :=
  ⟨rfl, rfl, keepsLevel_fit o value body d.rewind⟩

/-- A draft that is on the way of a greedy reading, since an earlier draft. -/
structure Retells (value : List Char) (tokens : List Token) (rest : List Char) (d₀ d : Draft) : Prop
    extends Keeps value d₀ d where
  reading : ∃ w, value.drop d.valueIndex = w ++ rest ∧
    Reading (tokens.drop d.tokenIndex) d.repeats w rest
  counts : Counts tokens d

/-- A way to fit that takes the way of a greedy reading, where there is one. -/
def Retold (value : List Char) (tokens : List Token) (fitBody : Draft → Draft) : Prop :=
  ∀ (d : Draft) (w rest : List Char), d.Clean → (d.depth = 0 → rest = []) →
    value.drop d.valueIndex = w ++ rest → Reading tokens 0 w rest →
      (d.trial fitBody).complete = true ∧ Keeps value d (d.trial fitBody) ∧
        value.drop (d.trial fitBody).valueIndex = rest

/-! ## Steps at leaves -/

/-- The character that the rest of a text starts with is the one at its place. -/
theorem getElem?_of_drop {c : Char} {r : List Char} {v : Nat} (h : value.drop v = c :: r) :
    value[v]? = some c ∧ value.drop (v + 1) = r := by
  have hnext : value[v]? = some c := by
    rw [← List.head?_drop, h]
    rfl
  rw [drop_eq_cons hnext] at h
  exact ⟨hnext, (List.cons.inj h).2⟩

/-- On its way, a fitting of the whole pattern meets no character that is rejected. -/
theorem Retells.not_rejects (h : Retells value tokens rest d₀ d)
    (ht : tokens[d.tokenIndex]? = some t) (ho : o.discard = true) (htop : d.depth = 1 → rest = []) :
    d.rejects o tokens value[d.valueIndex]? = false := by
  cases hnext : value[d.valueIndex]? with
  | none => simp [rejects]
  | some c =>
    by_cases hdepth : d.depth = 1
    · obtain ⟨w, hvalue, hreading⟩ := h.reading
      rw [htop hdepth, List.append_nil, drop_eq_cons hnext] at hvalue
      rw [← hvalue, drop_eq_cons ht] at hreading
      have hadmitted := hreading.admission_eq fun u hu hgroup => by
        obtain rfl : t = u := Option.some.inj hu
        exact h.counts.repeats_eq_zero ht (.inl hgroup)
      simp [rejects, ho, drop_eq_cons ht, hadmitted]
    · simp [rejects, hdepth]

/-- A step at a leaf goes the way of the reading. -/
theorem Retells.step_leaf {fitBody : Draft → Draft} (h : Retells value tokens rest d₀ d)
    (ht : tokens[d.tokenIndex]? = some (.leaf l q s))
    (hfree : d.rejects o tokens value[d.valueIndex]? = false) :
    ∃ d', d.step o value tokens fitBody (.leaf l q s) = .goOn d' ∧
      Retells value tokens rest d₀ d' := by
  obtain ⟨w, hvalue, hreading⟩ := h.reading
  rw [drop_eq_cons ht] at hreading
  generalize hn : d.repeats = n at hreading
  cases hreading with
  | @again _ _ _ _ _ c w _ hq hl hreading =>
    obtain ⟨hnext, hvalue⟩ := getElem?_of_drop hvalue
    refine ⟨_, step_take hfree hnext hl, h.toKeeps.trans (keeps_take hnext), ⟨w, ?_, ?_⟩,
      h.counts.afterMatch ht⟩
    · simpa [passChar] using hvalue
    · simpa [afterMatch, hq, passChar, drop_eq_cons ht, hn] using hreading
  | @once _ _ _ _ c w _ hq hl hreading =>
    obtain ⟨hnext, hvalue⟩ := getElem?_of_drop hvalue
    refine ⟨_, step_take hfree hnext hl, h.toKeeps.trans (keeps_take hnext), ⟨w, ?_, ?_⟩,
      h.counts.afterMatch ht⟩
    · simpa [passChar] using hvalue
    · simpa [afterMatch, hq, passChar, passToken, hn] using hreading
  | leave hend hl hmore hreading =>
    have hzero : (d.leave q).repeats = 0 := h.counts.repeats_leave ht
    rw [← hvalue, List.head?_drop] at hl
    refine ⟨_, step_leave hfree hl (hn ▸ hend) ?_, h.toKeeps.trans keeps_leave, ⟨w, hvalue, ?_⟩,
      .inl hzero⟩
    · intro hliteral
      have hne := hmore hliteral
      rw [← hvalue] at hne
      rw [Option.isSome_iff_ne_none, Ne, List.getElem?_eq_none_iff]
      exact fun hle => hne (List.drop_of_length_le hle)
    · rw [hzero]
      exact hreading

/-! ## Trials -/

/-- A successful trial that has read something moves on in the value. -/
theorem advances_of_drop {u r : List Char} {v v' : Nat} (hv : value.drop v = u ++ r) (hu : u ≠ [])
    (hv' : value.drop v' = r) : v < v' := by
  have hlength := congrArg List.length hv
  have hlength' := congrArg List.length hv'
  have hpos := List.length_pos_iff.2 hu
  rw [List.length_drop, List.length_append] at hlength
  rw [List.length_drop] at hlength'
  omega

section Trials

variable (hbody : Retold value body (fit o value body)) (hclean : d.Clean) (hdepth : d.depth ≠ 0)

include hbody hclean hdepth

/-- Where a trial succeeds, the reading goes on with the group: it has not quit it, as the body
could not be satisfied then. -/
theorem reads_on (hq : q.repeats = true) (hvalue : value.drop d.valueIndex = w ++ rest)
    (hreading : Reading (.group body q s :: ts) n w rest)
    (hcomplete : (d.trial (fit o value body)).complete = true) :
    ∃ u w', u ≠ [] ∧ value.drop d.valueIndex = u ++ (w' ++ rest) ∧
      Keeps value d (d.trial (fit o value body)) ∧
        value.drop (d.trial (fit o value body)).valueIndex = w' ++ rest ∧
          Reading (.group body q s :: ts) (n + 1) w' rest := by
  cases hreading with
  | pass hrepeats hu hread hreading =>
    rw [hq] at hrepeats
    cases hrepeats
  | @more _ _ _ _ _ u w _ _ hu hread hreading =>
    rw [List.append_assoc] at hvalue
    obtain ⟨-, hkeeps, hvalue'⟩ := hbody d u _ hclean (fun h => absurd h hdepth) hvalue hread
    exact ⟨u, w, hu, hvalue, hkeeps, hvalue', hreading⟩
  | quit hend hbars hreading =>
    rw [← hvalue] at hbars
    rw [not_complete_of_bars hclean hbars] at hcomplete
    cases hcomplete

/-- Repeated trials end where the reading quits the group. -/
theorem tryRepeatedly_retold {matched : Bool} (hmatched : 0 < n → matched = true)
    (hq : q.repeats = true) (hvalue : value.drop d.valueIndex = w ++ rest)
    (hreading : Reading (.group body q s :: ts) n w rest) :
    ((tryRepeatedly value (fit o value body) matched d).1.isSome = true ∨ q.canBeAbsent = true) ∧
      Balances value d (tryRepeatedly value (fit o value body) matched d).2 ∧
        ∃ w', value.drop (tryRepeatedly value (fit o value body) matched d).2.valueIndex =
          w' ++ rest ∧ Reading ts 0 w' rest := by
  induction matched, d using trialInduction value (fit o value body) generalizing n w with
  | hfail matched d hfails =>
    cases hreading with
    | pass hrepeats hu hread hreading =>
      rw [hq] at hrepeats
      cases hrepeats
    | @more _ _ _ _ _ u w _ _ hu hread hreading =>
      rw [List.append_assoc] at hvalue
      obtain ⟨hcomplete, -, -⟩ := hbody d u _ hclean (fun h => absurd h hdepth) hvalue hread
      rw [hfails] at hcomplete
      cases hcomplete
    | quit hend hbars hreading =>
      rw [tryRepeatedly_fail hfails]
      refine ⟨?_, balances_revertTo o value body d, w, hvalue, hreading⟩
      obtain habsent | ⟨-, hpos⟩ := hend
      · exact .inr habsent
      · left
        rw [hmatched hpos]
        rfl
  | hmore matched d hcomplete hadvances ih =>
    obtain ⟨-, w', -, -, hkeeps, hvalue', hreading'⟩ :=
      reads_on hbody hclean hdepth hq hvalue hreading hcomplete
    obtain ⟨hclean', -⟩ := satisfies_fit o value body d hclean hcomplete
    obtain ⟨hgoes, hbalances, hrest⟩ := ih hclean' (hkeeps.depth ▸ hdepth) (fun _ => rfl) hvalue'
      hreading'
    rw [tryRepeatedly_more hcomplete hadvances]
    exact ⟨hgoes, hkeeps.balances.trans hbalances, hrest⟩
  | hlast matched d hcomplete hstays =>
    -- what the reading goes on with is not empty, so that this success is not the last
    obtain ⟨u, w', hu, hparts, -, hvalue', -⟩ :=
      reads_on hbody hclean hdepth hq hvalue hreading hcomplete
    have hlt := advances_of_drop hparts hu hvalue'
    have hle : d.valueIndex ≤ value.length := by
      by_contra hgt
      rw [List.drop_of_length_le (Nat.le_of_not_le hgt)] at hparts
      exact hu (List.append_eq_nil_iff.1 hparts.symm).1
    exact absurd ⟨hlt, fit_valueIndex_le_length o body hle⟩ hstays

/-- Trials end where the reading has passed the group. -/
theorem trials_retold (hvalue : value.drop d.valueIndex = w ++ rest)
    (hreading : Reading (.group body q s :: ts) 0 w rest) :
    ((d.trials value (fit o value body) q).1.isSome = true ∨ q.canBeAbsent = true) ∧
      Balances value d (d.trials value (fit o value body) q).2 ∧
        ∃ w', value.drop (d.trials value (fit o value body) q).2.valueIndex = w' ++ rest ∧
          Reading ts 0 w' rest := by
  unfold trials
  by_cases hq : q.repeats = true
  · simp only [if_pos hq]
    exact tryRepeatedly_retold hbody hclean hdepth (fun h => absurd h (Nat.lt_irrefl 0)) hq hvalue
      hreading
  · simp only [if_neg hq]
    cases hreading with
    | @pass _ _ _ _ u w _ hrepeats hu hread hreading =>
      rw [List.append_assoc] at hvalue
      obtain ⟨hcomplete, hkeeps, hvalue'⟩ :=
        hbody d u _ hclean (fun h => absurd h hdepth) hvalue hread
      rw [tryOnce_pass hcomplete]
      exact ⟨.inl rfl, ⟨hkeeps.text, hkeeps.selection, hkeeps.depth⟩, w, hvalue', hreading⟩
    | more hrepeats => exact absurd hrepeats hq
    | quit hend hbars hreading =>
      rw [← hvalue] at hbars
      rw [tryOnce_fail (not_complete_of_bars hclean hbars)]
      exact ⟨.inr hend.canBeAbsent, balances_revertTo o value body d, w, hvalue, hreading⟩

end Trials

/-- A step at a group goes the way of the reading. -/
theorem Retells.step_group (h : Retells value tokens rest d₀ d)
    (ht : tokens[d.tokenIndex]? = some (.group body q s))
    (hfree : d.rejects o tokens value[d.valueIndex]? = false) (hdepth : d.depth ≠ 0)
    (hbody : Retold value body (fit o value body)) :
    ∃ d', d.step o value tokens (fit o value body) (.group body q s) = .goOn d' ∧
      Retells value tokens rest d₀ d' := by
  obtain ⟨w, hvalue, hreading⟩ := h.reading
  have hzero : d.repeats = 0 := h.counts.repeats_eq_zero ht (.inl rfl)
  rw [drop_eq_cons ht, hzero] at hreading
  have hclean : d.endCapture.openScope.Clean := ⟨rfl, rfl⟩
  obtain ⟨hgoes, hbalances, w', hvalue', hreading'⟩ :=
    trials_retold hbody hclean (fun hdepth' => hdepth (endCapture_depth.symm.trans hdepth'))
      ((endCapture_valueIndex d).symm ▸ hvalue) hreading
  refine ⟨(d.endCapture.openScope.trials value (fit o value body) q).2.closeScope d.endCapture
    (d.endCapture.openScope.trials value (fit o value body) q).1, ?_,
    h.toKeeps.trans ⟨?_, ?_, ?_, ?_⟩, ⟨w', hvalue', ?_⟩, ?_⟩
  · rw [Draft.step_group hfree, fitGroup_eq]
    exact if_pos hgoes
  · exact hbalances.text.trans (by simp [openScope])
  · exact hbalances.selection.trans endCapture_selection
  · exact endCapture_skipped
  · exact hbalances.depth.trans endCapture_depth
  · simpa [closeScope, hzero] using hreading'
  · exact .inl (endCapture_repeats.trans hzero)

/-! ## Whole fittings -/

/-- Every step goes the way of the reading, if the bodies of groups are fitted so. -/
theorem Retells.step (h : Retells value tokens rest d₀ d) (ht : tokens[d.tokenIndex]? = some t)
    (ho : o.discard = true) (hdepth : d.depth ≠ 0) (htop : d.depth = 1 → rest = [])
    (hbody : ∀ body q s, Token.group body q s ∈ tokens → Retold value body (fit o value body)) :
    ∃ d', d.step o value tokens (Token.fitBody o value t) t = .goOn d' ∧
      Retells value tokens rest d₀ d' := by
  have hfree := h.not_rejects ht ho htop
  cases t with
  | leaf l q s => exact h.step_leaf ht hfree
  | group body q s =>
    exact h.step_group ht hfree hdepth (hbody body q s (List.mem_of_getElem? ht))

/-- Stepping through a pattern goes the way of a reading until the tokens run out. -/
theorem walked_retells (ho : o.discard = true) (hclean : d.Clean) (htop : d.depth = 0 → rest = [])
    (hvalue : value.drop d.valueIndex = w ++ rest) (hreading : Reading tokens 0 w rest)
    (hbody : ∀ body q s, Token.group body q s ∈ tokens → Retold value body (fit o value body)) :
    (d.rewind.walked o value tokens).goesOn = true ∧
      tokens[(d.rewind.walked o value tokens).draft.tokenIndex]? = none ∧
        Retells value tokens rest d.rewind.enter (d.rewind.walked o value tokens).draft := by
  have hstep : ∀ (e : Draft) (t : Token), Retells value tokens rest d.rewind.enter e →
      tokens[e.tokenIndex]? = some t →
      ∃ e', e.step o value tokens (Token.fitBody o value t) t = .goOn e' ∧
        Retells value tokens rest d.rewind.enter e' := by
    intro e t he ht
    have hdepth : e.depth = d.depth + 1 := he.depth
    refine he.step ht ho ?_ ?_ hbody
    · omega
    · intro hone
      exact htop (by omega)
  refine walk_induction (I := Retells value tokens rest d.rewind.enter)
    (J := fun r => r.goesOn = true ∧ tokens[r.draft.tokenIndex]? = none ∧
      Retells value tokens rest d.rewind.enter r.draft) ?_ ?_ ?_ ?_
  · intro e t e' he ht hgo
    obtain ⟨e'', hgo', he'⟩ := hstep e t he ht
    obtain rfl : e' = e'' := Step.goOn.inj (hgo.symm.trans hgo')
    exact he'
  · intro e t e' he ht hstop
    obtain ⟨e'', hgo, -⟩ := hstep e t he ht
    rw [hstop] at hgo
    cases hgo
  · intro e he ht
    exact ⟨rfl, ht, he⟩
  · have hzero : d.rewind.enter.repeats = 0 := hclean.repeats
    have hopening :
        Reading (tokens.drop d.rewind.enter.tokenIndex) d.rewind.enter.repeats w rest := by
      rw [hzero]
      exact hreading
    exact ⟨.refl _, ⟨w, hvalue, hopening⟩, .inl hzero⟩

/-- A fitting of a text that can be read greedily succeeds and takes the way of the reading. -/
theorem retold_fit (ho : o.discard = true) (tokens : List Token) :
    Retold value tokens (fit o value tokens) := by
  induction tokens using Token.groupInduction with
  | h tokens ih =>
    intro d w rest hclean htop hvalue hreading
    obtain ⟨hgoes, hend, hretells⟩ := walked_retells ho hclean htop hvalue hreading ih
    have hskipped : (d.rewind.walked o value tokens).draft.skipped = false :=
      hretells.skipped.trans hclean.skipped
    have hlength := List.getElem?_eq_none_iff.1 hend
    refine ⟨fit_complete_iff.2 ⟨hgoes, hskipped, hlength⟩, ⟨?_, ?_, ?_, ?_⟩, ?_⟩
    · rw [trial, fit_text, fit_valueIndex]
      exact hretells.text
    · exact fit_selection.trans hretells.selection
    · exact fit_skipped.trans hretells.skipped
    · exact fit_depth.trans (congrArg (· - 1) hretells.depth)
    · obtain ⟨w', hvalue', hreading'⟩ := hretells.reading
      rw [List.drop_of_length_le hlength] at hreading'
      rw [trial, fit_valueIndex, hvalue', hreading'.eq_nil]
      rfl

end Draft

end InputMask

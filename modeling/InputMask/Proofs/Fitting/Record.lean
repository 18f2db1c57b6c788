import InputMask.Proofs.Fitting.Replay
import InputMask.Proofs.HooklessMask

/-!
# What an outcome keeps of a value

Applying a mask comes down to a course of events from the start of the value to the index at which
the fitting ended (`Mask.exists_course`). So every character before that index was either written or
left out, in the order of the value, whatever else was written are literals of the mask, and the
characters from the index on are the remainder (`Outcome.AccountedBy`).
-/

set_option autoImplicit false

namespace InputMask

namespace Mask

variable {source : List Char} {o : Options} {m : Mask}

/-- The events of applying a mask lead from the start of the value to where the fitting ends, and
are the same for every selection. -/
theorem exists_course (hm : ofSource source o = .ok m) (value : List Char) :
    ∃ (es : List Event) (v : Nat), Course o value (Token.leavesOf m.tokens) 0 es v ∧
      ∀ start stop, (m.passage value start stop).closing.valueIndex = v ∧
        (m.passage value start stop).closing.sheet =
          replay value es (Draft.ofSelection start stop).sheet := by
  obtain ⟨es, hcourse, hreplay⟩ := Draft.fit_retraces o value m.tokens (.ofSelection 0 0)
  refine ⟨es, _, hcourse, fun start stop => ?_⟩
  obtain ⟨-, hfitted, hclosing⟩ := passage_of_ofSource hm value start stop
  have hfit : (m.passage value start stop).closing = _ :=
    (hclosing.trans hfitted).trans (hreplay (Draft.ofSelection start stop).sheet)
  rw [hfit]
  exact ⟨rfl, rfl⟩

end Mask

/-- The remainder is what the value has from the final index on, if it has anything there. -/
theorem Draft.outcome_remainder (d : Draft) (value : List Char) :
    (d.outcome value).remainder.map Remainder.value =
      if d.valueIndex < value.length then some (value.drop d.valueIndex) else none := by
  unfold outcome
  by_cases h : d.valueIndex < value.length
  · rw [if_pos h]
    have hne : value.drop d.valueIndex ≠ [] := fun hnil =>
      Nat.not_le.2 h (List.drop_eq_nil_iff.1 hnil)
    dsimp only
    split
    · next hnil => exact absurd hnil hne
    · rfl
  · rw [if_neg h, List.drop_eq_nil_iff.2 (Nat.le_of_not_lt h)]
    rfl

/-- Events that account for an outcome: which characters of a value, up to a final index, are in its
text, which were left out, and what else is in the text. -/
structure Outcome.AccountedBy (r : Outcome) (m : Mask) (value : List Char) (final : Nat)
    (es : List Event) : Prop where
  /-- The final index is one up to the end of the value. -/
  final_le : final ≤ value.length
  /-- Each character before the final index is met once, in the order of the value. -/
  indices : es.filterMap Event.index? = List.range final
  /-- The text is what was taken and filled in. -/
  text : r.text = es.filterMap (Event.output value)
  /-- A character that was taken is one that a leaf of the mask accepts. -/
  taken : ∀ i, .take i ∈ es → ∃ c l q, value[i]? = some c ∧
    (l, q) ∈ Token.leavesOf m.tokens ∧ l.accepts c = true
  /-- What was filled in is a literal of the mask that has no mark. -/
  filled : ∀ c i, .fill c i ∈ es → (.literal c, .once) ∈ Token.leavesOf m.tokens
  /-- Nothing is left out unless the options allow it. -/
  dropped : m.options.discard = false → ∀ i, .drop i ∉ es
  /-- The remainder has the characters from the final index on, if there are any. -/
  remainder : r.remainder.map Remainder.value =
    if final < value.length then some (value.drop final) else none

/-- No character of a value is lost, doubled or moved: some events account for the outcome of
applying a mask, up to the index in the value at which the fitting ended. -/
theorem Mask.exists_accountedBy {source : List Char} {o : Options} {m : Mask}
    (hm : Mask.ofSource source o = .ok m) (value : List Char) (start stop : Nat) :
    ∃ es, (m.apply value start stop).AccountedBy m value
      (m.passage value start stop).closing.valueIndex es := by
  obtain ⟨es, v, hcourse, hclosing⟩ := Mask.exists_course hm value
  obtain ⟨hindex, hsheet⟩ := hclosing start stop
  refine ⟨es, ?_, ?_, ?_, ?_, ?_, ?_, ?_⟩
  · rw [hindex]
    exact hcourse.le_length (Nat.zero_le _)
  · have hindices := hcourse.indices.2
    rwa [Nat.sub_zero, ← List.range_eq_range', ← hindex] at hindices
  · calc (m.apply value start stop).text
        = (m.passage value start stop).closing.sheet.text := rfl
      _ = es.filterMap (Event.output value) := by
        rw [hsheet, replay_text]
        rfl
  · intro i hi
    obtain ⟨j, c, l, q, he, hc, hl, haccepts⟩ | ⟨j, he, -⟩ | ⟨c, j, he, -⟩ :=
      hcourse.mem_cases hi
    · cases he
      exact ⟨c, l, q, hc, hl, haccepts⟩
    · cases he
    · cases he
  · intro c i hi
    obtain ⟨j, b, l, q, he, -⟩ | ⟨j, he, -⟩ | ⟨b, j, he, hl⟩ := hcourse.mem_cases hi
    · cases he
    · cases he
    · cases he
      exact hl
  · intro ho i hi
    have hoptions : m.options = o := (Mask.eq_of_ofSource hm).2.1
    obtain ⟨j, b, l, q, he, -⟩ | ⟨j, he, ho'⟩ | ⟨b, j, he, -⟩ := hcourse.mem_cases hi
    · cases he
    · rw [← hoptions, ho] at ho'
      cases ho'
    · cases he
  · have hvalue : (m.passage value start stop).value = value :=
      (Mask.passage_of_ofSource hm value start stop).1
    rw [Mask.apply, Passage.outcome, hvalue]
    exact Draft.outcome_remainder _ _

/-- In this value a character is left out, a literal is filled in, and what the last repetition of
the group took is given back before it fails. -/
theorem Mask.exists_accountedBy_repeated :
    ∃ m, Mask.ofSource "<(d-!)*d>x!".toList = .ok m ∧
      (m.apply "5-?6-7>y".toList 1 2).text = "<5-6-7>".toList ∧
        ∃ es, (m.apply "5-?6-7>y".toList 1 2).AccountedBy m "5-?6-7>y".toList
          (m.passage "5-?6-7>y".toList 1 2).closing.valueIndex es := by
  obtain ⟨m, hm, htext⟩ := Mask.exists_of_ofSource
    (show (Mask.ofSource "<(d-!)*d>x!".toList).toOption.any
      (fun m => decide ((m.apply "5-?6-7>y".toList 1 2).text = "<5-6-7>".toList)) = true by
        decide +kernel)
  exact ⟨m, hm, of_decide_eq_true htext, Mask.exists_accountedBy hm _ _ _⟩

end InputMask

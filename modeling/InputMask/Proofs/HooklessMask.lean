import InputMask.Mask

/-!
# Masks without hooks

A mask that is read from a source has no hooks, so applying it is fitting the value to its tokens
from the selection that was given (`Mask.apply_of_ofSource`).
-/

set_option autoImplicit false

namespace InputMask

namespace Mask

variable {source : List Char} {o : Options} {m : Mask}

/-- A mask that was read has the tokens of its source, the options that were given, and no hooks. -/
theorem eq_of_ofSource (h : ofSource source o = .ok m) :
    Pattern.read source = .ok m.tokens ∧ m.options = o ∧ m.before = none ∧ m.after = none := by
  unfold ofSource at h
  split at h
  · next hread =>
    cases h
    exact ⟨hread, rfl, rfl, rfl⟩
  · cases h

/-- The options make no difference to the tokens. -/
theorem tokens_eq_of_ofSource {o' : Options} {m' : Mask} (h : ofSource source o = .ok m)
    (h' : ofSource source o' = .ok m') : m'.tokens = m.tokens := by
  have hread := (eq_of_ofSource h).1
  rw [(eq_of_ofSource h').1] at hread
  exact Except.ok.inj hread

/-- Without hooks, the value is fitted as it is given, and the draft that this leaves is the
last. -/
theorem passage_of_ofSource (h : ofSource source o = .ok m) (value : List Char) (start stop : Nat) :
    (m.passage value start stop).value = value ∧
      (m.passage value start stop).fitted = fit o value m.tokens (.ofSelection start stop) ∧
        (m.passage value start stop).closing = (m.passage value start stop).fitted := by
  obtain ⟨-, hoptions, hbefore, hafter⟩ := eq_of_ofSource h
  refine ⟨?_, ?_, ?_⟩
  · simp only [passage, hbefore]
  · simp only [passage, hbefore, hoptions]
  · simp only [passage, hafter]

/-- Without hooks, the outcome is that of fitting the value from the selection. -/
theorem apply_of_ofSource (h : ofSource source o = .ok m) (value : List Char) (start stop : Nat) :
    m.apply value start stop =
      (fit o value m.tokens (.ofSelection start stop)).outcome value := by
  obtain ⟨hvalue, hfitted, hclosing⟩ := passage_of_ofSource h value start stop
  rw [apply, Passage.outcome, hvalue, hclosing, hfitted]

/-- A source that reads as a mask with some property gives such a mask. -/
theorem exists_of_ofSource {p : Mask → Bool} (h : (ofSource source o).toOption.any p = true) :
    ∃ m, ofSource source o = .ok m ∧ p m = true := by
  cases hread : ofSource source o with
  | error e => rw [hread] at h; cases h
  | ok m => exact ⟨m, rfl, by simpa [hread, Except.toOption] using h⟩

end Mask

end InputMask

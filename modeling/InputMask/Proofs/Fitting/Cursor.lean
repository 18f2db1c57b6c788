import InputMask.Proofs.Fitting.Record

/-!
# Where the selection goes

The events of applying a mask are the same for every selection, so what becomes of a selection is a
matter of replaying them. Replaying moves both ends alike (`replay_extent`), keeps one selection
behind another (`Sheet.Behind.replay`), and keeps a selection that starts at the end of the value or
after it as far from the end of the text as it was from the place in the value
(`Course.replay_start`).
-/

set_option autoImplicit false

namespace InputMask

variable {s s' : Sheet} {value : List Char}

namespace Sheet

/-- The text precedes the selection if it ends before its start, or right there when no input is
left. -/
theorem precedes_iff (s : Sheet) (inputLeft : Bool) :
    s.precedes inputLeft = true ↔
      (s.length : Int) < s.selection.start ∨
        inputLeft = false ∧ (s.length : Int) = s.selection.start := by
  simp [precedes]

/-- How far an event moves the selection. -/
def move (value : List Char) (s : Sheet) : Event → Int
  | .take _ => 0
  | .drop _ => if s.precedes true then -1 else 0
  | .fill _ i => if s.precedes value[i]?.isSome then 1 else 0

/-- An event moves both ends of the selection alike. -/
theorem after_selection (value : List Char) (s : Sheet) (e : Event) :
    (s.after value e).selection = s.selection.shift (s.move value e) := by
  have hzero : s.selection.shift 0 = s.selection := by simp [Selection.shift]
  cases e with
  | take i => cases h : value[i]? <;> simp [after, move, write, hzero, h]
  | drop i =>
    simp only [after, move]
    split
    · rfl
    · exact hzero.symm
  | fill c i =>
    simp only [after, move]
    split
    · rfl
    · exact hzero.symm

/-- An event moves the start of the selection by as much as it moves the selection. -/
theorem after_start (value : List Char) (s : Sheet) (e : Event) :
    (s.after value e).selection.start = s.selection.start + s.move value e := by
  rw [after_selection]
  rfl

/-! ## Two selections -/

/-- A sheet with as much text as another, and a selection that does not start after the other's. -/
structure Behind (s s' : Sheet) : Prop where
  length : s.length = s'.length
  start : s.selection.start ≤ s'.selection.start

/-- If the text ends before the selection on one sheet, so it does where the selection starts
later. -/
theorem Behind.precedes (h : Behind s s') {inputLeft : Bool}
    (hprecedes : s.precedes inputLeft = true) : s'.precedes inputLeft = true := by
  have hlength := h.length
  have hstart := h.start
  rw [precedes_iff] at hprecedes ⊢
  rcases hprecedes with hlt | ⟨hleft, heq⟩
  · left
    omega
  · rcases Int.lt_or_eq_of_le hstart with hlt | heq'
    · left
      omega
    · right
      exact ⟨hleft, by omega⟩

/-- One event keeps a selection behind another. Only the later one may be moved back alone, and then
the text of both ends between the two. -/
theorem Behind.after (h : Behind s s') (e : Event) :
    Behind (s.after value e) (s'.after value e) := by
  have hstart := h.start
  refine ⟨by rw [after_length, after_length, h.length], ?_⟩
  rw [after_start, after_start]
  cases e with
  | take i =>
    simp only [move]
    omega
  | drop i =>
    simp only [move]
    by_cases hs : s.precedes true = true
    · rw [if_pos hs, if_pos (h.precedes hs)]
      omega
    · rw [if_neg hs]
      split
      · next hs' =>
        rw [precedes_iff] at hs hs'
        have hlength := h.length
        have hbetween : s.selection.start ≤ s.length ∧ (s.length : Int) < s'.selection.start := by
          simp at hs hs'
          omega
        omega
      · omega
  | fill c i =>
    simp only [move]
    by_cases hs : s.precedes value[i]?.isSome = true
    · rw [if_pos hs, if_pos (h.precedes hs)]
      omega
    · rw [if_neg hs]
      split <;> omega

/-- A selection that starts no later than another does so after any events. -/
theorem Behind.replay (h : Behind s s') (es : List Event) :
    Behind (InputMask.replay value es s) (InputMask.replay value es s') := by
  induction es generalizing s s' with
  | nil => exact h
  | cons e es ih => exact ih (h.after e)

end Sheet

/-- The two ends of a selection stay as far apart as they were. -/
theorem replay_extent (value : List Char) (es : List Event) (s : Sheet) :
    (replay value es s).selection.stop - (replay value es s).selection.start =
      s.selection.stop - s.selection.start := by
  induction es generalizing s with
  | nil => rfl
  | cons e es ih =>
    refine (ih (s.after value e)).trans ?_
    rw [Sheet.after_selection]
    simp only [Selection.shift]
    omega

/-! ## A selection at the end of the value -/

/-- A selection that starts at an index from which the value has no more characters stays as far
from the end of the text as that index is from the place in the value. -/
theorem Course.replay_start {o : Options} {leaves : List (Leaf × Quantifier)} {v v' p : Nat}
    {es : List Event} (h : Course o value leaves v es v') (hp : value.length ≤ p)
    (hv : v ≤ value.length) (hstart : s.selection.start + v = s.length + p) :
    (replay value es s).selection.start + v' = (replay value es s).length + p := by
  induction h generalizing s with
  | nil v => exact hstart
  | @take v v' es c l q hc hl haccepts h ih =>
    have hlt : v < value.length := (List.getElem?_eq_some_iff.1 hc).1
    refine ih hlt ?_
    rw [Sheet.after_start, Sheet.after_length]
    simp only [Sheet.move, Event.output, hc, Option.toList_some, List.length_singleton]
    omega
  | @drop v v' es c hc ho h ih =>
    have hlt : v < value.length := (List.getElem?_eq_some_iff.1 hc).1
    have hprecedes : s.precedes true = true := by
      rw [Sheet.precedes_iff]
      left
      omega
    refine ih hlt ?_
    rw [Sheet.after_start, Sheet.after_length]
    simp only [Sheet.move, if_pos hprecedes, Event.output, Option.toList_none, List.length_nil]
    omega
  | @fill v v' es c hl hfill h ih =>
    have hprecedes : s.precedes value[v]?.isSome = true := by
      rw [Sheet.precedes_iff]
      by_cases hlt : v < value.length
      · left
        omega
      · -- without input left, a selection right at the end of the text is after it as well
        have hnone : value[v]?.isSome = false := by simp [Nat.le_of_not_lt hlt]
        rcases Nat.lt_or_eq_of_le hp with hlt' | heq
        · left
          omega
        · right
          exact ⟨hnone, by omega⟩
    refine ih hv ?_
    rw [Sheet.after_start, Sheet.after_length]
    simp only [Sheet.move, if_pos hprecedes, Event.output, Option.toList_some,
      List.length_singleton]
    omega

/-! ## The selection of an outcome -/

namespace Mask

variable {source : List Char} {o : Options} {m : Mask}

/-- The start of an outcome's selection is that of the sheet at the end, brought into the text. -/
theorem apply_start (m : Mask) (value : List Char) (start stop : Nat) :
    (m.apply value start stop).start =
      min (m.passage value start stop).closing.sheet.selection.start.toNat
        (m.passage value start stop).closing.sheet.length := rfl

/-- The selection of an outcome stops where that of the last draft does, brought into the text. -/
theorem apply_stop (m : Mask) (value : List Char) (start stop : Nat) :
    (m.apply value start stop).stop =
      min (m.passage value start stop).closing.sheet.selection.stop.toNat
        (m.passage value start stop).closing.sheet.length := rfl

/-- A selection that starts at the end of the value or after it comes to start at the end of the
text. -/
theorem start_of_length_le (hm : ofSource source o = .ok m) {value : List Char} {start : Nat}
    (stop : Nat) (hlength : value.length ≤ Selection.greatest) (hstart : value.length ≤ start) :
    (m.apply value start stop).start = (m.apply value start stop).text.length := by
  obtain ⟨es, v, hcourse, hclosing⟩ := exists_course hm value
  obtain ⟨-, hsheet⟩ := hclosing start stop
  have hend : v ≤ value.length := hcourse.le_length (Nat.zero_le _)
  have hopening : (Draft.ofSelection start stop).sheet.selection.start + (0 : Nat) =
      (Draft.ofSelection start stop).sheet.length + (min start Selection.greatest : Nat) := by
    simp only [Draft.sheet, Draft.ofSelection, Selection.between]
    omega
  have hcarried := hcourse.replay_start (le_min hstart hlength) (Nat.zero_le _) hopening
  have htext : (m.apply value start stop).text.length =
      (replay value es (Draft.ofSelection start stop).sheet).length := by
    calc (m.apply value start stop).text.length
        = (m.passage value start stop).closing.sheet.text.length := rfl
      _ = (replay value es (Draft.ofSelection start stop).sheet).length := by
        rw [hsheet, replay_length rfl]
  rw [apply_start, htext, hsheet]
  omega

/-- A selection that does not start after another comes not to start after it either. -/
theorem start_le_start (hm : ofSource source o = .ok m) (value : List Char) {start start' : Nat}
    (stop stop' : Nat) (h : start ≤ start') :
    (m.apply value start stop).start ≤ (m.apply value start' stop').start := by
  obtain ⟨es, v, -, hclosing⟩ := exists_course hm value
  have hbehind : Sheet.Behind (Draft.ofSelection start stop).sheet
      (Draft.ofSelection start' stop').sheet := by
    refine ⟨rfl, ?_⟩
    simp only [Draft.sheet, Draft.ofSelection, Selection.between]
    omega
  have hreplay : Sheet.Behind (replay value es _) (replay value es _) := hbehind.replay es
  rw [apply_start, apply_start, (hclosing start stop).2, (hclosing start' stop').2,
    hreplay.length]
  exact min_le_min_right _ (Int.toNat_le_toNat hreplay.start)

/-- The two ends of a selection stay in order. -/
theorem start_le_stop (hm : ofSource source o = .ok m) (value : List Char) {start stop : Nat}
    (h : start ≤ stop) : (m.apply value start stop).start ≤ (m.apply value start stop).stop := by
  obtain ⟨es, v, -, hclosing⟩ := exists_course hm value
  have hextent := replay_extent value es (Draft.ofSelection start stop).sheet
  have hopening : (Draft.ofSelection start stop).sheet.selection.start ≤
      (Draft.ofSelection start stop).sheet.selection.stop := by
    simp only [Draft.sheet, Draft.ofSelection, Selection.between]
    omega
  rw [apply_start, apply_stop, (hclosing start stop).2]
  refine min_le_min_right _ (Int.toNat_le_toNat ?_)
  omega

end Mask

/-- How the selection of an outcome depends on the one that was given: it starts at the end of the
text if the given one starts at the end of the value or after it, it starts no later than for one
that starts no later, and its ends stay in order. Only the first needs offsets to be exact; they are
up to `Selection.greatest`, which no value in memory is longer than. -/
theorem Mask.selection_of_apply {source : List Char} {o : Options} {m : Mask}
    (hm : Mask.ofSource source o = .ok m) (value : List Char) :
    (∀ start stop, value.length ≤ Selection.greatest → value.length ≤ start →
      (m.apply value start stop).start = (m.apply value start stop).text.length) ∧
      (∀ start start' stop stop', start ≤ start' →
        (m.apply value start stop).start ≤ (m.apply value start' stop').start) ∧
        ∀ start stop, start ≤ stop →
          (m.apply value start stop).start ≤ (m.apply value start stop).stop := by
  refine ⟨?_, ?_, ?_⟩
  · intro start stop hreach hstart
    exact Mask.start_of_length_le hm stop hreach hstart
  · intro start start' stop stop' h
    exact Mask.start_le_start hm value stop stop' h
  · intro start stop h
    exact Mask.start_le_stop hm value h

/-- In this value a character is left out and a group is given back, and literals are filled in
before and after the end of the value. -/
theorem Mask.selection_of_apply_repeated :
    let value := "5-?6-7".toList
    ∃ m, Mask.ofSource "<(d-!)*d>x".toList { appendLiterals := true } = .ok m ∧
      ((m.apply value 6 9).text = "<5-6-7>x".toList ∧ (m.apply value 6 9).start = 8) ∧
        ((m.apply value 2 3).start = 3 ∧ (m.apply value 2 3).stop = 4) ∧
          (m.apply value 4 5).start = 4 ∧
        (m.apply value 6 9).start = (m.apply value 6 9).text.length ∧
          (m.apply value 2 3).start ≤ (m.apply value 4 5).start ∧
            (m.apply value 2 3).start ≤ (m.apply value 2 3).stop := by
  intro value
  obtain ⟨m, hm, hrun⟩ := Mask.exists_of_ofSource
    (show (Mask.ofSource "<(d-!)*d>x".toList { appendLiterals := true }).toOption.any
      (fun m => decide (
        ((m.apply value 6 9).text = "<5-6-7>x".toList ∧ (m.apply value 6 9).start = 8) ∧
          ((m.apply value 2 3).start = 3 ∧ (m.apply value 2 3).stop = 4) ∧
            (m.apply value 4 5).start = 4)) = true by decide +kernel)
  obtain ⟨hend, hselected, hlater⟩ := of_decide_eq_true hrun
  obtain ⟨hfar, hmono, hordered⟩ := Mask.selection_of_apply hm value
  exact ⟨m, hm, hend, hselected, hlater, hfar 6 9 (by decide) (by decide),
    hmono 2 4 3 5 (by decide), hordered 2 3 (by decide)⟩

end InputMask

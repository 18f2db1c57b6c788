import Mathlib.Data.List.Basic
import Mathlib.Data.List.TakeWhile
import InputMask.CommandLine.Program
import InputMask.Proofs.HooklessMask
import InputMask.Proofs.Text.Quoting

/-!
# What the command shows of values

An outcome is shown without loss and on one line: whichever characters are written by number, the
line tells the text, the numbers, the captures at any depth and the remainder
(`Outcome.render_injective`), and there is no end of a line in it (`Outcome.onOneLine_render`). So
the output of the command has one line for each value that it answers, in their order, and tells all
of their outcomes.
-/

set_option autoImplicit false

namespace InputMask

variable {byNumber : Char → Bool} {x y : List Char}

/-! ## Captures -/

namespace Capture

/-- Induction on captures: what holds of a group that matched if it holds of all its entries, and
holds of runs and of groups without a match, holds of every capture. -/
theorem entriesInduction {motive : Capture → Prop} (run : ∀ text, motive (run text))
    (unmatched : motive unmatched)
    (matched : ∀ entries, (∀ e ∈ entries, motive e) → motive (matched entries)) (e : Capture) :
    motive e :=
  match e with
  | .run text => run text
  | .unmatched => unmatched
  | .matched entries => matched entries fun e _ => entriesInduction run unmatched matched e

/-- Captures are written one after another, with a comma and a space before each but the first. -/
theorem renderList_cons (byNumber : Char → Bool) (e : Capture) (es : List Capture) :
    renderList byNumber (e :: es) =
      render byNumber e ++ es.flatMap fun e => [',', ' '] ++ render byNumber e := by
  induction es generalizing e with
  | nil => rw [renderList, List.flatMap_nil, List.append_nil]
  | cons e' es ih => rw [renderList, ih, List.flatMap_cons, List.append_assoc, List.append_assoc]

/-- No capture in writing starts like the end of a list. -/
theorem render_append_ne (byNumber : Char → Bool) (e : Capture) (x y : List Char) :
    render byNumber e ++ x ≠ ']' :: y := by
  cases e <;> simp [render, Quoted.between]

/-- A list of captures is read back up to the bracket that closes it, if its entries are. -/
theorem renderList_append_inj {es es' : List Capture} (h : ∀ e ∈ es, ReadsBack (render byNumber) e)
    (heq : renderList byNumber es ++ ']' :: x = renderList byNumber es' ++ ']' :: y) :
    es = es' ∧ x = y := by
  cases es with
  | nil =>
    cases es' with
    | nil => exact ⟨rfl, (List.cons.inj heq).2⟩
    | cons e' es' =>
      rw [renderList_cons, List.append_assoc] at heq
      exact absurd heq.symm (render_append_ne _ _ _ _)
  | cons e es =>
    obtain ⟨he, hes⟩ := List.forall_mem_cons.1 h
    cases es' with
    | nil =>
      rw [renderList_cons, List.append_assoc] at heq
      exact absurd heq (render_append_ne _ _ _ _)
    | cons e' es' =>
      rw [renderList_cons, renderList_cons, List.append_assoc, List.append_assoc] at heq
      obtain ⟨rfl, hrest⟩ := he _ _ _ heq
      have hmore : ∀ e ∈ es, ReadsBack (fun e => [',', ' '] ++ render byNumber e) e :=
        fun e hmem => (hes e hmem).append_left _
      obtain ⟨rfl, hxy⟩ := flatMap_append_inj hmore (by simp) hrest
      exact ⟨rfl, hxy⟩

/-- A capture in writing is read back, whatever follows it. -/
theorem prefixFree_render (byNumber : Char → Bool) : PrefixFree (render byNumber) := by
  intro e
  -- the three kinds of captures start with different characters
  induction e using entriesInduction with
  | run text =>
    intro e' x y heq
    cases e' with
    | run text' =>
      obtain ⟨rfl, hxy⟩ := Quoted.prefixFree_between byNumber text text' x y heq
      exact ⟨rfl, hxy⟩
    | unmatched => simp [render, Quoted.between] at heq
    | matched entries => simp [render, Quoted.between] at heq
  | unmatched =>
    intro e' x y heq
    cases e' with
    | run text => simp [render, Quoted.between] at heq
    | unmatched => exact ⟨rfl, (List.cons.inj heq).2⟩
    | matched entries => simp [render] at heq
  | matched entries ih =>
    intro e' x y heq
    cases e' with
    | run text => simp [render, Quoted.between] at heq
    | unmatched => simp [render] at heq
    | matched entries' =>
      simp only [render, List.cons_append, List.append_assoc, List.cons.injEq, true_and,
        List.nil_append] at heq
      obtain ⟨rfl, hxy⟩ := renderList_append_inj ih heq
      exact ⟨rfl, hxy⟩

/-- Captures that are each written on one line are so together. -/
theorem onOneLine_renderList {es : List Capture} (h : ∀ e ∈ es, OnOneLine (render byNumber e)) :
    OnOneLine (renderList byNumber es) := by
  cases es with
  | nil => exact List.forall_mem_nil _
  | cons e es =>
    obtain ⟨he, hes⟩ := List.forall_mem_cons.1 h
    rw [renderList_cons]
    refine he.append fun c hc => ?_
    obtain ⟨e', hmem, hc⟩ := List.mem_flatMap.1 hc
    exact OnOneLine.append (by decide) (hes e' hmem) c hc

/-- A capture is written on one line. -/
theorem onOneLine_render (byNumber : Char → Bool) (e : Capture) :
    OnOneLine (render byNumber e) := by
  induction e using entriesInduction with
  | run text => exact onOneLine_between byNumber text
  | unmatched => exact (by decide : OnOneLine ['-'])
  | matched entries ih =>
    have hopened : OnOneLine (['['] ++ renderList byNumber entries) :=
      OnOneLine.append (by decide) (onOneLine_renderList ih)
    exact hopened.append (by decide)

end Capture

/-! ## Outcomes -/

namespace Outcome

variable {captures captures' : List Capture} {remainder remainder' : Option Remainder}

/-- Neither word for whether a pattern was satisfied starts with the other. -/
theorem prefixFree_completeness : PrefixFree completeness := by
  intro complete complete' x y h
  cases complete <;> cases complete' <;> simp [completeness] at h
  · exact ⟨rfl, h⟩
  · exact ⟨rfl, h⟩

/-- Where nothing is left of the value, nothing is written for it. -/
theorem renderRemainder_none : renderRemainder byNumber none = [] := rfl

/-- A remainder is written as its text in quotes and its cursor. -/
theorem renderRemainder_some (byNumber : Char → Bool) (r : Remainder) :
    renderRemainder byNumber (some r) = " truncated=".toList ++
      (Quoted.between byNumber '"' r.value ++ '@' :: Nat.toDigits 10 r.cursor) := rfl

/-- A remainder in writing does not start like captures. -/
theorem renderRemainder_ne (byNumber : Char → Bool) (remainder : Option Remainder) (x : List Char) :
    renderRemainder byNumber remainder ≠ " groups=[".toList ++ x := by
  cases remainder with
  | none => simp [renderRemainder_none]
  | some r => simp [renderRemainder_some]

/-- What is written for the remainder tells it. -/
theorem renderRemainder_injective (byNumber : Char → Bool) :
    Function.Injective (renderRemainder byNumber) := by
  rintro (_ | ⟨value, cursor⟩) (_ | ⟨value', cursor'⟩) h
  · rfl
  · simp [renderRemainder_none, renderRemainder_some] at h
  · simp [renderRemainder_none, renderRemainder_some] at h
  · rw [renderRemainder_some, renderRemainder_some, List.append_cancel_left_eq] at h
    obtain ⟨rfl, hcursor⟩ := Quoted.prefixFree_between byNumber _ _ _ _ h
    obtain rfl := toDigits_injective (by decide) (by decide) (List.cons.inj hcursor).2
    rfl

/-- Captures and a remainder in writing are read back, though both may be missing. -/
theorem renderCaptures_append_inj
    (h : renderCaptures byNumber captures ++ renderRemainder byNumber remainder =
      renderCaptures byNumber captures' ++ renderRemainder byNumber remainder') :
    captures = captures' ∧ remainder = remainder' := by
  cases captures with
  | nil =>
    cases captures' with
    | nil => exact ⟨rfl, renderRemainder_injective byNumber h⟩
    | cons e' es' =>
      simp only [renderCaptures, List.nil_append, List.append_assoc] at h
      exact absurd h (renderRemainder_ne _ _ _)
  | cons e es =>
    cases captures' with
    | nil =>
      simp only [renderCaptures, List.nil_append, List.append_assoc] at h
      exact absurd h.symm (renderRemainder_ne _ _ _)
    | cons e' es' =>
      simp only [renderCaptures, List.append_assoc, List.append_cancel_left_eq,
        List.singleton_append] at h
      obtain ⟨hcaptures, hremainder⟩ :=
        Capture.renderList_append_inj (fun e _ => Capture.prefixFree_render byNumber e) h
      exact ⟨hcaptures, renderRemainder_injective byNumber hremainder⟩

/-- What is written after the number of the selection's end does not look like more of it. -/
theorem endsNumber_renderCaptures (byNumber : Char → Bool) (captures : List Capture)
    (remainder : Option Remainder) :
    EndsNumber (renderCaptures byNumber captures ++ renderRemainder byNumber remainder) := by
  cases captures with
  | nil =>
    cases remainder with
    | none => exact nofun
    | some r =>
      intro c hc
      obtain rfl : ' ' = c := Option.some.inj hc
      rfl
  | cons e es =>
    intro c hc
    obtain rfl : ' ' = c := Option.some.inj hc
    rfl

/-- Outcomes that are written alike are the same, whichever characters are written by number. -/
theorem render_injective (byNumber : Char → Bool) : Function.Injective (render byNumber) := by
  rintro ⟨text, complete, start, stop, captures, remainder⟩
    ⟨text', complete', start', stop', captures', remainder'⟩ h
  have hdots : ∀ x, EndsNumber ('.' :: x) := fun x c hc => Option.some.inj hc ▸ rfl
  simp only [render, List.append_assoc, List.cons_append, List.nil_append] at h
  obtain ⟨rfl, hcomplete⟩ := Quoted.prefixFree_between byNumber _ _ _ _ h
  obtain ⟨rfl, hcursor⟩ := prefixFree_completeness _ _ _ _ (List.cons.inj hcomplete).2
  obtain ⟨rfl, hstop⟩ := toDigits_append_inj (by decide) (by decide) (hdots _) (hdots _)
    (List.append_cancel_left hcursor)
  obtain ⟨rfl, hcaptures⟩ := toDigits_append_inj (by decide) (by decide)
    (endsNumber_renderCaptures _ _ _) (endsNumber_renderCaptures _ _ _)
    (List.cons.inj (List.cons.inj hstop).2).2
  obtain ⟨rfl, rfl⟩ := renderCaptures_append_inj hcaptures
  rfl

/-- The word for whether a pattern was satisfied has no line feed. -/
theorem onOneLine_completeness (complete : Bool) : OnOneLine (completeness complete) := by
  cases complete <;> decide

/-- The captures of an outcome are written on one line. -/
theorem onOneLine_renderCaptures (byNumber : Char → Bool) (captures : List Capture) :
    OnOneLine (renderCaptures byNumber captures) := by
  cases captures with
  | nil => exact List.forall_mem_nil _
  | cons e es =>
    have hentries : OnOneLine (Capture.renderList byNumber (e :: es)) :=
      Capture.onOneLine_renderList fun e _ => Capture.onOneLine_render byNumber e
    exact (OnOneLine.append (by decide) hentries).append (by decide)

/-- The remainder of an outcome is written on one line. -/
theorem onOneLine_renderRemainder (byNumber : Char → Bool) (remainder : Option Remainder) :
    OnOneLine (renderRemainder byNumber remainder) := by
  cases remainder with
  | none => exact List.forall_mem_nil _
  | some r =>
    have hcursor : OnOneLine (['@'] ++ Nat.toDigits 10 r.cursor) :=
      OnOneLine.append (by decide) (onOneLine_toDigits (by decide) (by decide) _)
    exact (OnOneLine.append (by decide) (onOneLine_between byNumber r.value)).append hcursor

/-- An outcome in writing has no end of a line in it. -/
theorem onOneLine_render (byNumber : Char → Bool) (r : Outcome) :
    OnOneLine (r.render byNumber) := by
  have hcomplete : OnOneLine ([' '] ++ completeness r.complete) :=
    OnOneLine.append (by decide) (onOneLine_completeness r.complete)
  have hnumber : ∀ n, OnOneLine (Nat.toDigits 10 n) := onOneLine_toDigits (by decide) (by decide)
  have hword : OnOneLine " cursor=".toList := by decide
  have hdots : OnOneLine ['.', '.'] := by decide
  exact (onOneLine_between byNumber r.text).append hcomplete |>.append hword |>.append (hnumber _)
    |>.append hdots |>.append (hnumber _) |>.append (onOneLine_renderCaptures byNumber r.captures)
    |>.append (onOneLine_renderRemainder byNumber r.remainder)

end Outcome

/-! ## The output of the command -/

namespace CommandLine.Invocation

variable {i : Invocation}

/-- The outcomes of the values that the command answers, which are all before the first that takes
the selection out of range. -/
def outcomes (i : Invocation) (m : Mask) (values : List (List Char)) : List Outcome :=
  (values.takeWhile fun value => m.staysInRange value i.cursor i.selectionEnd).map
    fun value => m.apply value i.cursor i.selectionEnd

/-- Where values are masked, the output has the line of each outcome in turn. -/
theorem lines_output (hmasks : Flag.check ∉ i.flags) (m : Mask) (values : List (List Char)) :
    lines (i.output m values) =
      values.map fun value => (m.apply value i.cursor i.selectionEnd).line := by
  induction values with
  | nil => rfl
  | cons value values ih =>
    have hline : i.line m value = (m.apply value i.cursor i.selectionEnd).line :=
      if_neg fun h => hmasks (List.contains_iff_mem.1 h)
    have honeLine : OnOneLine (i.line m value) := hline ▸ Outcome.onOneLine_render _ _
    rw [output, List.flatMap_cons, List.append_assoc, List.singleton_append, lines_append honeLine,
      List.map_cons, hline]
    exact congrArg _ ih

/-- The report has the output for the values up to the first that has no line. -/
theorem report_output (i : Invocation) (m : Mask) (values : List (List Char)) :
    (i.report m values).output = i.output m (values.takeWhile (i.answers m)) := by
  unfold report
  split
  · next hall =>
    rw [List.takeWhile_eq_self_iff.2 (List.all_eq_true.1 hall)]
  · rfl

/-- The lines of a report are those of the outcomes up to there. -/
theorem lines_report (hmasks : Flag.check ∉ i.flags) (m : Mask) (values : List (List Char)) :
    lines (i.report m values).output = (i.outcomes m values).map Outcome.line := by
  have hanswers : i.answers m = fun value => m.staysInRange value i.cursor i.selectionEnd := by
    funext value
    have hcheck : i.flags.contains .check = false :=
      Bool.eq_false_iff.2 fun h => hmasks (List.contains_iff_mem.1 h)
    rw [answers, hcheck, Bool.false_or]
  rw [report_output, lines_output hmasks, outcomes, List.map_map, hanswers]
  rfl

/-- Every value has an outcome exactly if none takes the selection out of range. -/
theorem length_outcomes_eq_iff (i : Invocation) (m : Mask) (values : List (List Char)) :
    (i.outcomes m values).length = values.length ↔
      ∀ value ∈ values, m.staysInRange value i.cursor i.selectionEnd = true := by
  rw [outcomes, List.length_map, ← List.takeWhile_eq_self_iff]
  exact ⟨(List.takeWhile_prefix _).eq_of_length, congrArg List.length⟩

/-- Outcomes that are shown alike are the same, an outcome is shown without a line feed, and the
command has a line for each value, in order, up to the first that takes the selection out of range.
Its output tells the outcomes of all these values. -/
theorem report_tells_outcomes (i : Invocation) (m : Mask) (values : List (List Char))
    (hmasks : Flag.check ∉ i.flags) :
    (∀ byNumber, Function.Injective (Outcome.render byNumber)) ∧
      (∀ byNumber r, '\n' ∉ Outcome.render byNumber r) ∧
        lines (i.report m values).output = (i.outcomes m values).map Outcome.line ∧
          ((lines (i.report m values).output).length = values.length ↔
            ∀ value ∈ values, m.staysInRange value i.cursor i.selectionEnd = true) ∧
          ((∀ value ∈ values, m.staysInRange value i.cursor i.selectionEnd = true) →
            i.outcomes m values = values.map fun value => m.apply value i.cursor i.selectionEnd) ∧
          ∀ (i' : Invocation) (m' : Mask) (values' : List (List Char)), Flag.check ∉ i'.flags →
            (i'.report m' values').output = (i.report m values).output →
              i'.outcomes m' values' = i.outcomes m values := by
  refine ⟨Outcome.render_injective, fun byNumber r h => ?_, lines_report hmasks m values, ?_,
    fun hstays => ?_, fun i' m' values' hmasks' h => ?_⟩
  · exact (Outcome.onOneLine_render byNumber r _ h).1 rfl
  · rw [lines_report hmasks, List.length_map, length_outcomes_eq_iff]
  · rw [outcomes, List.takeWhile_eq_self_iff.2 hstays]
  · have hlines := lines_report hmasks' m' values'
    rw [h, lines_report hmasks] at hlines
    exact (List.map_injective_iff.2 (Outcome.render_injective _) hlines).symm

/-- Captures of a group in a group, a quotation mark in one of them, and a remainder that looks like
captures. A flag that is for the log leaves the output as it is. -/
theorem report_tells_outcomes_quoted :
    let i : Invocation :=
      ⟨"(d(.x)?)*".toList, ["1\"x2".toList, "5ax] groups=[7".toList], [], 0, 0⟩
    let verbose : Invocation := { i with flags := [.verbose] }
    let shown : List (List Char) :=
      ["\"1\\\"x2\" complete cursor=0..0 groups=[[\"1\", [\"\\\"\"], \"2\", -]]".toList,
        "\"5ax\" complete cursor=0..0 groups=[[\"5\", [\"a\"]]] truncated=\"] groups=[7\"@0".toList]
    ∃ m, Mask.ofSource i.mask = .ok m ∧ Flag.check ∉ i.flags ∧ Flag.check ∉ verbose.flags ∧
      lines (i.report m i.values).output = shown ∧
        (verbose.report m i.values).output = (i.report m i.values).output ∧
          verbose.outcomes m i.values = i.outcomes m i.values := by
  intro i verbose shown
  obtain ⟨m, hm, hcheck⟩ := Mask.exists_of_ofSource
    (show (Mask.ofSource i.mask).toOption.any (fun m =>
      decide ((i.outcomes m i.values).map Outcome.line = shown ∧
        (verbose.report m i.values).output = (i.report m i.values).output)) = true by
          decide +kernel)
  obtain ⟨hlines, houtput⟩ := of_decide_eq_true hcheck
  have hplain : Flag.check ∉ i.flags := by decide
  have hverbose : Flag.check ∉ verbose.flags := by decide
  obtain ⟨-, -, hreport, -, -, htells⟩ := report_tells_outcomes i m i.values hplain
  have htold := htells verbose m i.values hverbose houtput
  exact ⟨m, hm, hplain, hverbose, hreport.trans hlines, houtput, htold⟩

/-- The literal that is filled in takes the selection out of range, and so the command has no line
for the value. -/
theorem report_without_line_at_greatest :
    let i : Invocation := ⟨"xd".toList, ["5".toList], [], Selection.greatest, Selection.greatest⟩
    Request.ofArguments (["-c", "9223372036854775807", "xd", "5"].map String.toList) = .mask i ∧
      ∃ m, Mask.ofSource i.mask i.options = .ok m ∧
        (lines (i.report m i.values).output).length ≠ i.values.length ∧
          lines (i.report m i.values).output ≠
            i.values.map (fun value => (m.apply value i.cursor i.selectionEnd).line) ∧
          (i.report m i.values).exitCode = 101 := by
  intro i
  obtain ⟨m, hm, hcheck⟩ := Mask.exists_of_ofSource
    (show (Mask.ofSource i.mask i.options).toOption.any (fun m =>
      decide ((lines (i.report m i.values).output).length ≠ i.values.length ∧
        lines (i.report m i.values).output ≠
          i.values.map (fun value => (m.apply value i.cursor i.selectionEnd).line) ∧
        (i.report m i.values).exitCode = 101)) = true by decide +kernel)
  exact ⟨rfl, m, hm, of_decide_eq_true hcheck⟩

end CommandLine.Invocation

end InputMask

import InputMask.Proofs.Fitting.Arrivals

/-!
# Where the selection is on the way

What moves the selection is asked of the text and the selection alone: whether the text still ends
before it. The answer is the same as that of another question, whether the place in the value is
still before the cursor that the selection started from (`Sheet.Tracks.precedes_iff_lt`). Before
that cursor, the selection is as far from the end of the text as the cursor is from the place in the
value; from there on, it is in the text (`Sheet.Tracks`). Each event keeps it so (`Course.tracks`),
so it is so at every head, in trials as well, and after each step (`Mask.keepsTrack_at_heads`).

This goes by the start of the selection. Its end moves along with it, and so it can come to lie
before the text if the selection was given in reverse.
-/

set_option autoImplicit false

namespace InputMask

/-! ## A cursor in the value -/

/-- At a place in the value, a sheet keeps track of a cursor in the value: before it, the selection
starts as far after the text as the cursor is ahead, and from there on it starts in the text. -/
structure Sheet.Tracks (cursor v : Nat) (s : Sheet) : Prop where
  ahead : v < cursor → s.selection.start = s.length + ((cursor : Int) - v)
  within : cursor ≤ v → 0 ≤ s.selection.start ∧ s.selection.start ≤ s.length

namespace Sheet.Tracks

variable {cursor v : Nat} {s : Sheet}

/-- A selection that keeps track does not start before the text. -/
theorem nonneg (h : s.Tracks cursor v) : 0 ≤ s.selection.start := by
  rcases Nat.lt_or_ge v cursor with hlt | hge
  · have hahead := h.ahead hlt
    omega
  · exact (h.within hge).1

/-- While there is input, the text ends before the selection exactly before the cursor. -/
theorem precedes_iff_lt (h : s.Tracks cursor v) : s.precedes true = true ↔ v < cursor := by
  have hprecedes : s.precedes true = true ↔ (s.length : Int) < s.selection.start := by
    simp [precedes]
  rw [hprecedes]
  rcases Nat.lt_or_ge v cursor with hlt | hge
  · have hahead := h.ahead hlt
    omega
  · have hwithin := h.within hge
    omega

/-- Taking a character keeps track, one place on in the value. -/
theorem take (h : s.Tracks cursor v) (c : Char) : (s.write c).Tracks cursor (v + 1) := by
  obtain ⟨hahead, hwithin⟩ := h
  constructor <;>
  · simp only [write]
    omega

/-- Leaving a character out keeps track, as it draws the selection back exactly before the
cursor. -/
theorem drop (h : s.Tracks cursor v) :
    (if s.precedes true then s.shift (-1) else s).Tracks cursor (v + 1) := by
  have hprecedes := h.precedes_iff_lt
  obtain ⟨hahead, hwithin⟩ := h
  split
  · next hbefore =>
    have hlt := hprecedes.1 hbefore
    constructor <;>
    · simp only [shift, Selection.shift]
      omega
  · next hafter =>
    have hge : cursor ≤ v := Nat.le_of_not_lt fun hlt => hafter (hprecedes.2 hlt)
    constructor <;> omega

/-- A literal that is filled in takes the selection along before the cursor. After it, the selection
is taken along only from the end of the text, where no input is left. -/
theorem fill (h : s.Tracks cursor v) (c : Char) (inputLeft : Bool) :
    (if s.precedes inputLeft then (s.write c).shift 1 else s.write c).Tracks cursor v := by
  have hprecedes : s.precedes inputLeft = true ↔ (s.length : Int) < s.selection.start ∨
      inputLeft = false ∧ (s.length : Int) = s.selection.start := by
    simp [precedes]
  obtain ⟨hahead, hwithin⟩ := h
  split
  · next hbefore =>
    rw [hprecedes] at hbefore
    constructor <;>
    · simp only [write, shift, Selection.shift]
      omega
  · next hafter =>
    rw [hprecedes] at hafter
    constructor <;>
    · simp only [write]
      omega

end Sheet.Tracks

/-- Events keep track of a cursor. -/
theorem Course.tracks {o : Options} {value : List Char} {leaves : List (Leaf × Quantifier)}
    {v v' cursor : Nat} {es : List Event} {s : Sheet} (h : Course o value leaves v es v')
    (hs : s.Tracks cursor v) : (replay value es s).Tracks cursor v' := by
  induction h generalizing s with
  | nil v => exact hs
  | @take v v' es c l q hv hl hc h ih =>
    have hafter : s.after value (.take v) = s.write c := by simp [Sheet.after, hv]
    exact ih (hafter ▸ hs.take c)
  | drop hv ho h ih => exact ih hs.drop
  | @fill v v' es c hl hv h ih => exact ih (hs.fill c value[v]?.isSome)

namespace Draft

variable {d d' : Draft} {o : Options} {value : List Char} {tokens : List Token} {cursor : Nat}
  {leaves : List (Leaf × Quantifier)}

/-- A draft keeps track of a cursor in the value. -/
def Tracks (cursor : Nat) (d : Draft) : Prop := d.sheet.Tracks cursor d.valueIndex

/-- At the outset, the selection keeps track of the cursor that it was given, capped. -/
theorem tracks_ofSelection (start stop : Nat) :
    (ofSelection start stop).Tracks (min start Selection.greatest) := by
  constructor <;>
  · simp only [sheet, ofSelection, Selection.between]
    omega

/-- A draft that was led to from one that keeps track keeps track. -/
theorem Leads.tracks (h : Leads o value leaves d d') (hd : d.Tracks cursor) : d'.Tracks cursor := by
  obtain ⟨es, hcourse, hsheet⟩ := h
  rw [Tracks, hsheet]
  exact hcourse.tracks hd

/-! ## Characters that are left out -/

/-- Leaving a character out draws the selection back by one before it, and not at all after. -/
theorem dropChar_start (d : Draft) (before : Bool) :
    (d.dropChar before).selection.start = d.selection.start + if before then -1 else 0 := by
  cases before with
  | true => rfl
  | false => exact (Int.add_zero _).symm

/-- The selection tells how a character was left out. -/
theorem dropChar_inj {before before' : Bool} (h : d.dropChar before = d.dropChar before') :
    before = before' := by
  have hstart := congrArg (fun e => e.selection.start) h
  simp only [dropChar_start] at hstart
  have hmoved := Int.add_left_cancel hstart
  revert hmoved
  cases before <;> cases before' <;> decide

/-- A step that leaves out a character asks whether the text ends before the selection. -/
theorem before_of_next {before : Bool}
    (h : d.next? o value tokens = some (.goOn (d.dropChar before))) :
    d.precedesSelection true = before := by
  obtain ⟨t, ht, hstep⟩ := Option.map_eq_some_iff.1 h
  have hturn : Turn o value tokens (Token.fitBody o value t) d t _ := step_turn t
  rw [hstep] at hturn
  have htoken : (d.dropChar before).tokenIndex = d.tokenIndex := dropChar_tokenIndex before
  have htext : (d.dropChar before).text = d.text := dropChar_text before
  generalize hr : Step.goOn (d.dropChar before) = r at hturn
  cases hturn with
  | discard hnext ho =>
    exact (dropChar_inj (Step.goOn.inj hr)).symm
  | take hnext hl =>
    rw [Step.goOn.inj hr] at htext
    simp [passChar] at htext
  | fill h =>
    rw [Step.goOn.inj hr] at htext
    simp at htext
  | skip ho hnext hindex =>
    have hge := landing?_ge hindex
    rw [Step.goOn.inj hr] at htoken
    simp only [skipTo] at htoken
    omega
  | leave h =>
    rw [Step.goOn.inj hr] at htoken
    simp [leave, passToken] at htoken
  | stop => cases hr
  | trial =>
    obtain ⟨-, hd'⟩ := fitGroup_goOn hr.symm
    rw [hd'] at htoken
    simp [closeScope] at htoken

end Draft

/-- What holds at a head of a fitting that keeps track of a cursor in the value. -/
structure Head.KeepsTrack (o : Options) (value : List Char) (cursor : Nat) (h : Head) : Prop where
  /-- The draft keeps track of the cursor. -/
  tracks : h.draft.Tracks cursor
  /-- The length that this goes by is that of the text. -/
  length : h.draft.length = h.draft.text.length
  /-- The draft that the step leaves keeps track as well. -/
  next : ∀ r, h.draft.next? o value h.tokens = some r → r.draft.Tracks cursor
  /-- The selection never starts before the text. -/
  nonneg : 0 ≤ h.draft.selection.start
  /-- A character that is left out moves the selection exactly if it stands before the cursor. -/
  discard : ∀ before, h.draft.next? o value h.tokens = some (.goOn (h.draft.dropChar before)) →
    (before = true ↔ h.draft.valueIndex < cursor)

namespace Draft

/-- Wherever events lead from the opening of a fitting, track is kept of the cursor. -/
theorem Leads.keepsTrack {o : Options} {value : List Char} {leaves : List (Leaf × Quantifier)}
    {start stop : Nat} {h : Head}
    (hleads : Leads o value leaves (ofSelection start stop) h.draft) :
    h.KeepsTrack o value (min start Selection.greatest) := by
  have htracks : h.draft.Tracks (min start Selection.greatest) :=
    hleads.tracks (tracks_ofSelection start stop)
  refine ⟨htracks, ?_, ?_, htracks.nonneg, ?_⟩
  · obtain ⟨es, -, hsheet⟩ := hleads
    have hlength : (replay value es (ofSelection start stop).sheet).length =
        (replay value es (ofSelection start stop).sheet).text.length := replay_length rfl
    rwa [← hsheet] at hlength
  · intro r hr
    obtain ⟨t, ht, rfl⟩ := Option.map_eq_some_iff.1 hr
    exact (step_leads (List.mem_of_getElem? ht) h.draft).tracks htracks
  · intro before hnext
    rw [← before_of_next hnext]
    exact htracks.precedes_iff_lt

end Draft

/-- Fitting a value to a mask keeps track of the cursor that was given, at each head, in trials as
well, and at the end. The selection's other end is not before the text either, unless the two were
given in reverse. -/
theorem Mask.keepsTrack_at_heads {source : List Char} {o : Options} {m : Mask}
    (hm : Mask.ofSource source o = .ok m) (value : List Char) (start stop : Nat) :
    (∀ h ∈ heads o value m.tokens (.ofSelection start stop),
      h.KeepsTrack o value (min start Selection.greatest) ∧
        (start ≤ stop → 0 ≤ h.draft.selection.stop)) ∧
      (m.passage value start stop).closing.Tracks (min start Selection.greatest) := by
  obtain ⟨-, hfitted, hclosing⟩ := Mask.passage_of_ofSource hm value start stop
  refine ⟨fun h hh => ?_, ?_⟩
  · have hleads := Draft.leads_to_heads o value m.tokens (.ofSelection start stop) h hh
    have hkeeps := hleads.keepsTrack
    refine ⟨hkeeps, fun horder => ?_⟩
    have hextent := hleads.extent
    have hnonneg := hkeeps.nonneg
    simp only [Draft.ofSelection, Selection.between] at hextent
    omega
  · rw [hclosing, hfitted]
    exact (Draft.fit_leads o value m.tokens _).tracks (Draft.tracks_ofSelection start stop)

/-- In the trial of the group, which fails, a letter that stands before the cursor is left out. -/
theorem Mask.keepsTrack_at_heads_discarding :
    ∃ m, Mask.ofSource "(d-d)?d".toList = .ok m ∧
      (m.apply "5-a".toList 3 3).captures = [.unmatched] ∧
        ∃ h ∈ heads {} "5-a".toList m.tokens (.ofSelection 3 3), h.draft.depth = 2 ∧
          h.draft.next? {} "5-a".toList h.tokens = some (.goOn (h.draft.dropChar true)) ∧
            h.draft.valueIndex = 2 ∧ h.KeepsTrack {} "5-a".toList 3 := by
  obtain ⟨m, hm, hrun⟩ := Mask.exists_of_ofSource
    (show (Mask.ofSource "(d-d)?d".toList).toOption.any (fun (m : Mask) => decide (
      (m.apply "5-a".toList 3 3).captures = [.unmatched] ∧
        ∃ h ∈ heads {} "5-a".toList m.tokens (.ofSelection 3 3), h.draft.depth = 2 ∧
          h.draft.next? {} "5-a".toList h.tokens = some (.goOn (h.draft.dropChar true)) ∧
            h.draft.valueIndex = 2)) = true by decide +kernel)
  obtain ⟨hcaptures, h, hh, hdepth, hnext, hindex⟩ := of_decide_eq_true hrun
  have hkeeps := ((Mask.keepsTrack_at_heads hm "5-a".toList 3 3).1 h hh).1
  exact ⟨m, hm, hcaptures, h, hh, hdepth, hnext, hindex, hkeeps⟩

/-- The end of a selection that was given in reverse can come to lie before the text: the letter
stands before its start, and moves both ends when it is left out. -/
theorem Mask.negative_stop_of_reversed :
    ∃ m, Mask.ofSource "ddd".toList = .ok m ∧
      ∃ h ∈ heads {} "a5".toList m.tokens (.ofSelection 1 0), h.draft.valueIndex = 1 ∧
        h.draft.selection.start = 0 ∧ h.draft.selection.stop = -1 := by
  obtain ⟨m, hm, hrun⟩ := Mask.exists_of_ofSource
    (show (Mask.ofSource "ddd".toList).toOption.any (fun (m : Mask) => decide (
      ∃ h ∈ heads {} "a5".toList m.tokens (.ofSelection 1 0), h.draft.valueIndex = 1 ∧
        h.draft.selection.start = 0 ∧ h.draft.selection.stop = -1)) = true by decide +kernel)
  exact ⟨m, hm, of_decide_eq_true hrun⟩

end InputMask

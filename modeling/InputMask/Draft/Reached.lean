import InputMask.Draft.Fitting

/-!
# The steps of a fitting, and the selections that it reaches

A fitting takes its steps one by one, at the level of the whole pattern and, in the trials of a
group's body, at the levels below. `heads` lists where: the tokens and the draft before every step,
in order, also of steps in trials that fail and are taken back.

A selection is fitted with exact numbers here, while a program keeps its ends in signed numbers of
64 bits and cannot go on where one leaves their range. `reached` lists the selections that a fitting
comes to, so whether it can be carried out with such numbers is whether all of them are in range
(`staysInRange`).
-/

set_option autoImplicit false

namespace InputMask

/-- Where a step is taken: the tokens of its level, and the draft before it. -/
structure Head where
  tokens : List Token
  draft : Draft

namespace Draft

/-- The heads in the trials of a body, given those of one fitting of it: in the first trial and,
where trials repeat, in those after a success that took something from the value. -/
def trialHeads (value : List Char) (fitBody : Draft → Draft) (bodyHeads : Draft → List Head)
    (repeats : Bool) (d : Draft) : List Head :=
  let after := fitBody { d with tokenIndex := 0 }
  bodyHeads { d with tokenIndex := 0 } ++
    if _h : (repeats = true ∧ after.complete = true) ∧
        d.valueIndex < after.valueIndex ∧ after.valueIndex ≤ value.length then
      trialHeads value fitBody bodyHeads repeats after
    else []
termination_by value.length - d.valueIndex
decreasing_by exact Nat.sub_lt_sub_left (Nat.lt_of_lt_of_le _h.2.1 _h.2.2) _h.2.1

/-- The heads in a step at a token: those in the trials that it makes if the token is a group. -/
def stepHeads (o : Options) (value : List Char) (tokens : List Token)
    (bodyHeads : Draft → List Head) (d : Draft) : Token → List Head
  | .leaf .. => []
  | .group body q _ =>
    if d.rejects o tokens value[d.valueIndex]? then []
    else trialHeads value (fit o value body) bodyHeads q.repeats d.endCapture.openScope

/-- The heads in stepping through tokens, each followed by those in its step. The list `bodyHeads`
has, token by token, the heads in fitting a group's body. -/
def walkHeads (o : Options) (value : List Char) (tokens : List Token)
    (bodyHeads : List (Draft → List Head)) (d : Draft) : List Head :=
  match _ht : tokens[d.tokenIndex]? with
  | none => []
  | some t =>
    ⟨tokens, d⟩ :: (d.stepHeads o value tokens (bodyHeads[d.tokenIndex]?.getD fun _ => []) t ++
      match _h : d.step o value tokens (Token.fitBody o value t) t with
      | .stop _ => []
      | .goOn d' => walkHeads o value tokens bodyHeads d')
termination_by remaining value tokens d
decreasing_by exact remaining_lt (List.getElem?_eq_some_iff.1 _ht).1 (step_advances _h)

end Draft

mutual

/-- The heads in fitting the body of a group. -/
def Token.bodyHeads (o : Options) (value : List Char) : Token → Draft → List Head
  | .leaf .., _ => []
  | .group body _ _, d =>
    Draft.walkHeads o value body (bodiesHeads o value body) { d with depth := d.depth + 1 }

/-- The heads in fitting the bodies of some tokens. -/
def bodiesHeads (o : Options) (value : List Char) : List Token → List (Draft → List Head)
  | [] => []
  | t :: ts => Token.bodyHeads o value t :: bodiesHeads o value ts

end

/-- The heads in fitting a value to a list of tokens. -/
def heads (o : Options) (value : List Char) (tokens : List Token) (d : Draft) : List Head :=
  Draft.walkHeads o value tokens (bodiesHeads o value tokens) { d with depth := d.depth + 1 }

/-! ## Selections -/

/-- Whether both ends of a selection are signed numbers of 64 bits. -/
def Selection.inRange (s : Selection) : Bool :=
  decide (-Selection.greatest - 1 ≤ s.start ∧ s.start ≤ Selection.greatest) &&
    decide (-Selection.greatest - 1 ≤ s.stop ∧ s.stop ≤ Selection.greatest)

/-- The selections that a fitting reaches: the one that it starts from, and those after its steps,
also in trials that are taken back. -/
def reached (o : Options) (value : List Char) (tokens : List Token) (d : Draft) : List Selection :=
  d.selection :: (heads o value tokens d).filterMap fun h =>
    (h.draft.next? o value h.tokens).map fun r => r.draft.selection

/-- Whether all selections that a fitting reaches are in range. -/
def staysInRange (o : Options) (value : List Char) (tokens : List Token) (d : Draft) : Bool :=
  (reached o value tokens d).all Selection.inRange

end InputMask

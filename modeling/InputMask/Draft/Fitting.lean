import InputMask.Pattern.Admission
import InputMask.Draft.Basic

/-!
# Fitting a value to a pattern

A value is fitted to a list of tokens one step at a time. A step looks at the current token and at
the next character of the value, and either goes on with a changed draft or stops with it.
Characters that match are written, missing literals are filled in, and a character that fits nowhere
is met by skipping tokens or by leaving it out, as the options say. Stepping goes on when the value
is used up, so that literals at the end can still be filled in.

A group is fitted by fitting its body, on trial: once (`tryOnce`), or as long as it keeps being
satisfied and takes something from the value (`tryRepeatedly`). How a body is fitted is a parameter
of `step`, `walk` and `fitWith`; `Token.fitBody` supplies it by recursion on the token tree, and
`fit_eq` states the result: a list of tokens is fitted with its groups' bodies fitted alike.

`step_advances` is why stepping ends: each step moves on in the pattern, or keeps its place there
and moves on in the value. `Draft.walk_fitBodies` gives the whole of it in terms of one next step.
-/

set_option autoImplicit false

namespace InputMask

/-- What is done about characters that do not match, and about literals after the value's end. -/
structure Options where
  /-- Skip to a later token that takes the character. -/
  lookahead : Bool := true
  /-- Leave out a character that fits nowhere, instead of stopping there. -/
  discard : Bool := true
  /-- Keep filling in literals after the value's end. -/
  appendLiterals : Bool := false
  deriving DecidableEq

/-- The end of a step: a draft to go on from, or one to stop with. -/
inductive Step where
  | goOn (d : Draft)
  | stop (d : Draft)
  deriving DecidableEq

namespace Step

/-- The draft that a step ends with. -/
def draft : Step → Draft
  | goOn d | stop d => d

/-- Whether there is more to do. -/
def goesOn : Step → Bool
  | goOn _ => true
  | stop _ => false

end Step

namespace Draft

/-! ## Leaves -/

/-- After a match: stays on a token that repeats and counts the match, or else moves on. -/
def afterMatch (d : Draft) (q : Quantifier) : Draft :=
  if q.repeats then { d with repeats := d.repeats + 1 } else d.passToken

/-- Leaves a token that has nothing more to match, unless it still needs a match. -/
def moveOn (d : Draft) : Quantifier → Step
  | .optional => .goOn d.passToken
  | .zeroOrMore => .goOn { d with repeats := 0 }.passToken
  | .oneOrMore => if 0 < d.repeats then .goOn { d with repeats := 0 }.passToken else .stop d
  | .once | .required => .stop d

/-- Meets a character that the current token needs to match and does not. -/
def onMismatch (d : Draft) (o : Options) (tokens : List Token) (c : Char) (before : Bool) : Step :=
  match if o.lookahead then landing? tokens (d.tokenIndex + 1) c else none with
  | some index => .goOn (d.skipTo index)
  | none => if o.discard then .goOn (d.dropChar before) else .stop d

/-- A step at a class, given the next character of the value, if there is one. -/
def fitClass (d : Draft) (o : Options) (tokens : List Token) (k : CharClass) (q : Quantifier)
    (next : Option Char) (before : Bool) : Step :=
  match next with
  | none => d.moveOn q
  | some c =>
    if k.accepts c then .goOn ((d.capture c).passChar.afterMatch q)
    else if q = .once ∨ q = .required then d.onMismatch o tokens c before
    else d.moveOn q

/-- A step at a literal, given the next character of the value, if there is one. -/
def fitLiteral (d : Draft) (o : Options) (c : Char) (q : Quantifier) (next : Option Char)
    (before : Bool) : Step :=
  if next = some c then .goOn ((d.endCapture.write c).passChar.afterMatch q)
  else if q = .once ∧ (next.isSome ∨ o.appendLiterals) then
    let filled := (d.endCapture.write c).passToken
    .goOn (if before then filled.shift 1 else filled)
  else if q = .optional ∧ next.isNone then .stop d
  else d.moveOn q

/-! ## Groups -/

/-- Fits a group's body once. Without success the draft is taken back. -/
def tryOnce (d : Draft) (fitBody : Draft → Draft) : Option (List Capture) × Draft :=
  let after := fitBody { d with tokenIndex := 0 }
  if after.complete then (some after.captures, { after with captures := [] })
  else (none, after.revertTo d)

/-- Fits a group's body for as long as it succeeds, and ends where the last success ended, with the
captures made up to there. A success that takes nothing from the value is the last. The flag says
whether there was a success already. -/
def tryRepeatedly (value : List Char) (fitBody : Draft → Draft) (matched : Bool) (d : Draft) :
    Option (List Capture) × Draft :=
  let after := fitBody { d with tokenIndex := 0 }
  if !after.complete then (if matched then some d.captures else none, after.revertTo d)
  else if _h : d.valueIndex < after.valueIndex ∧ after.valueIndex ≤ value.length then
    tryRepeatedly value fitBody true after
  else (some after.captures, after.revertTo after)
termination_by value.length - d.valueIndex
decreasing_by exact Nat.sub_lt_sub_left (Nat.lt_of_lt_of_le _h.1 _h.2) _h.1

/-- A step at a group: its body is fitted in a scope of its own. -/
def fitGroup (d : Draft) (value : List Char) (fitBody : Draft → Draft) (q : Quantifier) : Step :=
  let outer := d.endCapture
  let trial :=
    if q.repeats then tryRepeatedly value fitBody false outer.openScope
    else outer.openScope.tryOnce fitBody
  let after := trial.2.closeScope outer trial.1
  if trial.1.isSome ∨ q.canBeAbsent then .goOn after else .stop after

/-! ## One step -/

/-- Whether, at the level of the whole pattern, a character cannot come next. -/
def rejects (d : Draft) (o : Options) (tokens : List Token) (next : Option Char) : Bool :=
  d.depth == 1 &&
    next.any fun c => admission o.discard c (tokens.drop d.tokenIndex) == .rejected

/-- One step at a token, the current one of some tokens; `fitBody` fits its body if it is a
group. -/
def step (d : Draft) (o : Options) (value : List Char) (tokens : List Token)
    (fitBody : Draft → Draft) (t : Token) : Step :=
  let next := value[d.valueIndex]?
  let before := d.precedesSelection next.isSome
  if d.rejects o tokens next then if o.discard then .goOn (d.dropChar before) else .stop d
  else
    match t with
    | .leaf (.ofClass k) q _ => d.fitClass o tokens k q next before
    | .leaf (.literal c) q _ => d.fitLiteral o c q next before
    | .group _ q _ => d.fitGroup value fitBody q

/-! ## Steps advance -/

section Advancing

variable {d d' : Draft} {o : Options} {value : List Char} {tokens : List Token}

/-- A draft is further on in the pattern than another, or as far on there and further on in the
value, by one character that the value has. -/
def Advances (value : List Char) (d d' : Draft) : Prop :=
  d.tokenIndex < d'.tokenIndex ∨
    d'.tokenIndex = d.tokenIndex ∧ d'.valueIndex = d.valueIndex + 1 ∧
      d.valueIndex < value.length

/-- Ending a capture keeps the place in the pattern. -/
@[simp] theorem endCapture_tokenIndex (d : Draft) : d.endCapture.tokenIndex = d.tokenIndex := by
  unfold endCapture
  split <;> rfl

/-- Ending a capture keeps the place in the value. -/
@[simp] theorem endCapture_valueIndex (d : Draft) : d.endCapture.valueIndex = d.valueIndex := by
  unfold endCapture
  split <;> rfl

/-- Where there is a next character, the value has not ended. -/
theorem valueIndex_lt {c : Char} (h : value[d.valueIndex]? = some c) :
    d.valueIndex < value.length := (List.getElem?_eq_some_iff.1 h).1

/-- A token that is left is passed. -/
theorem moveOn_advances {q : Quantifier} (h : d.moveOn q = .goOn d') : Advances value d d' := by
  unfold moveOn at h
  split at h
  · cases h
    exact .inl (Nat.lt_succ_self _)
  · cases h
    exact .inl (Nat.lt_succ_self _)
  · split at h <;> cases h
    exact .inl (Nat.lt_succ_self _)
  · cases h
  · cases h

/-- A character that is left out is passed. -/
theorem dropChar_advances (before : Bool) (h : d.valueIndex < value.length) :
    Advances value d (d.dropChar before) := by
  unfold dropChar
  split <;> exact .inr ⟨rfl, rfl, h⟩

/-- A match moves on in the value, at a token that repeats, or else in the pattern. -/
theorem afterMatch_advances {e : Draft} (q : Quantifier) (htoken : e.tokenIndex = d.tokenIndex)
    (hvalue : e.valueIndex = d.valueIndex) (h : d.valueIndex < value.length) :
    Advances value d (e.passChar.afterMatch q) := by
  unfold afterMatch
  split
  · exact .inr ⟨htoken, congrArg (· + 1) hvalue, h⟩
  · exact .inl (htoken ▸ Nat.lt_succ_self _)

/-- A mismatch that does not stop the fitting moves on in the pattern or in the value. -/
theorem onMismatch_advances {c : Char} {before : Bool} (hlt : d.valueIndex < value.length)
    (h : d.onMismatch o tokens c before = .goOn d') : Advances value d d' := by
  unfold onMismatch at h
  split at h
  · next index hindex =>
    cases h
    split at hindex
    · exact .inl (landing?_ge hindex)
    · cases hindex
  · split at h <;> cases h
    exact dropChar_advances before hlt

/-- A step at a class that goes on gets further. -/
theorem fitClass_advances {k : CharClass} {q : Quantifier} {before : Bool}
    (h : d.fitClass o tokens k q value[d.valueIndex]? before = .goOn d') :
    Advances value d d' := by
  unfold fitClass at h
  split at h
  · exact moveOn_advances h
  · next c hc =>
    have hlt := valueIndex_lt hc
    split at h
    · cases h
      exact afterMatch_advances q rfl rfl hlt
    · split at h
      · exact onMismatch_advances hlt h
      · exact moveOn_advances h

/-- A step at a literal that goes on gets further. -/
theorem fitLiteral_advances {c : Char} {q : Quantifier} {before : Bool}
    (h : d.fitLiteral o c q value[d.valueIndex]? before = .goOn d') : Advances value d d' := by
  unfold fitLiteral at h
  split at h
  · next hc =>
    cases h
    exact afterMatch_advances q d.endCapture_tokenIndex d.endCapture_valueIndex (valueIndex_lt hc)
  · split at h
    · cases h
      refine .inl (Nat.lt_of_lt_of_eq (Nat.lt_succ_self _) ?_)
      split <;> exact congrArg (· + 1) d.endCapture_tokenIndex.symm
    · split at h
      · cases h
      · exact moveOn_advances h

/-- A step at a group that goes on moves past the group, whatever became of its body. -/
theorem fitGroup_advances {fitBody : Draft → Draft} {q : Quantifier}
    (h : d.fitGroup value fitBody q = .goOn d') : Advances value d d' := by
  unfold fitGroup at h
  extract_lets outer trial after at h
  have htoken : after.tokenIndex = d.tokenIndex + 1 :=
    congrArg (· + 1) d.endCapture_tokenIndex
  split at h
  · rw [Step.goOn.injEq] at h
    rw [← h]
    exact .inl (Nat.lt_of_lt_of_eq (Nat.lt_succ_self _) htoken.symm)
  · cases h

/-- A step that goes on moves on in the pattern, or keeps its place there and moves on by one
character of the value. -/
theorem step_advances {fitBody : Draft → Draft} {t : Token}
    (h : d.step o value tokens fitBody t = .goOn d') : Advances value d d' := by
  unfold step at h
  simp only at h
  split at h
  · next hrejects =>
    have hlt : d.valueIndex < value.length := by
      obtain ⟨c, hc, _⟩ := (Option.any_eq_true _ _).1 (Bool.and_eq_true_iff.1 hrejects).2
      exact valueIndex_lt hc
    split at h <;> cases h
    exact dropChar_advances _ hlt
  · split at h
    · exact fitClass_advances h
    · exact fitLiteral_advances h
    · exact fitGroup_advances h

/-- How much is left to do at most: every token that is left may read all of the value. -/
def remaining (value : List Char) (tokens : List Token) (d : Draft) : Nat :=
  (tokens.length - d.tokenIndex) * (value.length + 1) + (value.length - d.valueIndex)

/-- What gets further, with a token to be fitted, leaves less to do. -/
theorem remaining_lt (hlt : d.tokenIndex < tokens.length) (h : Advances value d d') :
    remaining value tokens d' < remaining value tokens d := by
  unfold remaining
  rcases h with htoken | ⟨htoken, hvalue, hmore⟩
  · have hle : tokens.length - d'.tokenIndex + 1 ≤ tokens.length - d.tokenIndex := by omega
    have hmul := Nat.mul_le_mul_right (value.length + 1) hle
    rw [Nat.succ_mul] at hmul
    omega
  · rw [htoken, hvalue]
    omega

end Advancing

/-! ## Fitting a list of tokens -/

/-- Steps through the tokens from the current one until they run out, which ends with `goOn`, or
until a step stops. The list `fitBodies` says, token by token, how a group's body is fitted. -/
def walk (o : Options) (value : List Char) (tokens : List Token)
    (fitBodies : List (Draft → Draft)) (d : Draft) : Step :=
  match _ht : tokens[d.tokenIndex]? with
  | none => .goOn d
  | some t =>
    match _h : d.step o value tokens (fitBodies[d.tokenIndex]?.getD id) t with
    | .stop d' => .stop d'
    | .goOn d' => walk o value tokens fitBodies d'
termination_by remaining value tokens d
decreasing_by exact remaining_lt (List.getElem?_eq_some_iff.1 _ht).1 (step_advances _h)

/-- Stepping through tokens is a step at the current one, and stepping on where it goes on. -/
theorem walk_eq (o : Options) (value : List Char) (tokens : List Token)
    (fitBodies : List (Draft → Draft)) (d : Draft) :
    walk o value tokens fitBodies d =
      match tokens[d.tokenIndex]? with
      | none => .goOn d
      | some t =>
        match d.step o value tokens (fitBodies[d.tokenIndex]?.getD id) t with
        | .stop d' => .stop d'
        | .goOn d' => walk o value tokens fitBodies d' := by
  rw [walk]
  split <;> rename_i ht
  · rw [ht]
  · rw [ht]
    dsimp only
    split <;> rename_i hstep <;> rw [hstep]

/-- Fits the value to a list of tokens, given how the bodies of its groups are fitted. The pattern
is satisfied if the tokens ran out and none was skipped. -/
def fitWith (o : Options) (value : List Char) (tokens : List Token)
    (fitBodies : List (Draft → Draft)) (d : Draft) : Draft :=
  let ended := walk o value tokens fitBodies { d with depth := d.depth + 1 }
  let after := ended.draft.endCapture
  { after with
    complete := ended.goesOn && !after.skipped && decide (tokens.length ≤ after.tokenIndex)
    depth := after.depth - 1 }

end Draft

mutual

/-- Fits the value to the body of a group. -/
def Token.fitBody (o : Options) (value : List Char) : Token → Draft → Draft
  | .leaf .. => id
  | .group body _ _ => Draft.fitWith o value body (fitBodies o value body)

/-- The ways to fit the value to the bodies of some tokens. -/
def fitBodies (o : Options) (value : List Char) : List Token → List (Draft → Draft)
  | [] => []
  | t :: ts => Token.fitBody o value t :: fitBodies o value ts

end

/-- Fits a value to a list of tokens. The draft may be one that was fitted before: it goes on from
the token and the character that it had come to. -/
def fit (o : Options) (value : List Char) (tokens : List Token) (d : Draft) : Draft :=
  d.fitWith o value tokens (fitBodies o value tokens)

/-- The body of a group is fitted like a pattern of its own. -/
@[simp] theorem Token.fitBody_group (o : Options) (value : List Char) (body : List Token)
    (q : Quantifier) (s : Span) : Token.fitBody o value (.group body q s) = fit o value body := rfl

/-- The bodies of a list of tokens are fitted each by its own token. -/
theorem fitBodies_eq_map (o : Options) (value : List Char) (tokens : List Token) :
    fitBodies o value tokens = tokens.map (Token.fitBody o value) := by
  induction tokens with
  | nil => rfl
  | cons t ts ih => rw [fitBodies, ih, List.map_cons]

/-- At the place of a token, the way to fit its body is the token's own. -/
theorem getD_fitBodies {o : Options} {value : List Char} {tokens : List Token} {i : Nat} {t : Token}
    (h : tokens[i]? = some t) :
    (fitBodies o value tokens)[i]?.getD id = Token.fitBody o value t := by
  rw [fitBodies_eq_map, List.getElem?_map, h, Option.map_some, Option.getD_some]

/-- Fitting a list of tokens steps through them, with the bodies of groups fitted by their own
tokens. -/
theorem fit_eq (o : Options) (value : List Char) (tokens : List Token) (d : Draft) :
    fit o value tokens d = d.fitWith o value tokens (tokens.map (Token.fitBody o value)) := by
  rw [fit, fitBodies_eq_map]

/-- The step that a draft takes next in some tokens, unless they ran out. -/
def Draft.next? (o : Options) (value : List Char) (tokens : List Token) (d : Draft) : Option Step :=
  tokens[d.tokenIndex]?.map fun t => d.step o value tokens (Token.fitBody o value t) t

/-- The next step is the one at the current token. -/
theorem Draft.next?_eq_some_iff {o : Options} {value : List Char} {tokens : List Token} {d : Draft}
    {t : Token} {r : Step} (ht : tokens[d.tokenIndex]? = some t) :
    d.next? o value tokens = some r ↔ d.step o value tokens (Token.fitBody o value t) t = r := by
  rw [next?, ht, Option.map_some, Option.some.injEq]

/-- Where a fitting steps through its tokens, it takes the next step as long as there is one. -/
theorem Draft.walk_fitBodies (o : Options) (value : List Char) (tokens : List Token) (d : Draft) :
    walk o value tokens (fitBodies o value tokens) d =
      match d.next? o value tokens with
      | none => .goOn d
      | some (.stop d') => .stop d'
      | some (.goOn d') => walk o value tokens (fitBodies o value tokens) d' := by
  rw [walk_eq, next?]
  cases ht : tokens[d.tokenIndex]? with
  | none => rfl
  | some t =>
    rw [getD_fitBodies ht, Option.map_some]
    dsimp only
    cases d.step o value tokens (Token.fitBody o value t) t <;> rfl

end InputMask

import InputMask.Proofs.Pattern.Parsing

/-!
# Greedy readings

A greedy reading of a text takes each character with the first leaf that it can, and never goes
back: a leaf is left only where it does not accept the next character, and a group only where its
body cannot be satisfied with what is left. So a `Reading` of a text is stated with the text that
comes after it.

`Token.FaithfulOf` says which patterns read what they write: a leaf that may be left shares no
character with the leaves that can write another one than the value's next (`Token.substitutesOf`),
and a group that is not needed exactly once has a leaf that has to read a character
(`Token.demandsOf`) and that nothing after the group can write. It is a condition on the pattern
alone, and it can be decided.
-/

set_option autoImplicit false

namespace InputMask

variable {c : Char} {l : Leaf} {q : Quantifier} {n : Nat} {w rest : List Char} {tokens : List Token}

/-- Whether one of some leaves accepts a character. -/
def AcceptedBy (leaves : List (Leaf × Quantifier)) (c : Char) : Prop :=
  ∃ x ∈ leaves, x.1.accepts c = true

/-- More leaves accept no fewer characters. -/
theorem AcceptedBy.mono {xs ys : List (Leaf × Quantifier)} (h : AcceptedBy xs c) (hsub : xs ⊆ ys) :
    AcceptedBy ys c := by
  obtain ⟨x, hx, hc⟩ := h
  exact ⟨x, hsub hx, hc⟩

/-- A leaf that meets none of some others accepts no character that one of those accepts. -/
theorem AcceptedBy.accepts_eq_false {leaves : List (Leaf × Quantifier)} (h : AcceptedBy leaves c)
    (hl : ∀ x ∈ leaves, l.meets x.1 = false) : l.accepts c = false := by
  obtain ⟨x, hx, hc⟩ := h
  rw [← Bool.not_eq_true]
  intro hlc
  have hmeets : l.meets x.1 = true := Leaf.meets_iff.2 ⟨c, hlc, hc⟩
  rw [hl x hx] at hmeets
  cases hmeets

namespace Leaf

/-- Whether a leaf has to read a character of the value, since it is needed and never filled in. -/
def insists (l : Leaf) : Quantifier → Bool
  | .once => !l.isLiteral
  | .oneOrMore | .required => true
  | .optional | .zeroOrMore => false

/-- Whether a leaf stays where it is until it is written: it waits for a character that it accepts,
or it is filled in. -/
def Stays (l : Leaf) (q : Quantifier) : Prop := q = .once ∨ q = .required ∧ l.isLiteral = false

/-- Whether a leaf stays can be decided. -/
instance (l : Leaf) (q : Quantifier) : Decidable (l.Stays q) :=
  inferInstanceAs (Decidable (q = .once ∨ q = .required ∧ l.isLiteral = false))

/-- A leaf that stays does not repeat. -/
theorem Stays.repeats (h : l.Stays q) : q.repeats = false := by
  obtain rfl | ⟨rfl, -⟩ := h
  · rfl
  · rfl

/-- A leaf that stays may not be left out. -/
theorem Stays.canBeAbsent (h : l.Stays q) : q.canBeAbsent = false := by
  obtain rfl | ⟨rfl, -⟩ := h
  · rfl
  · rfl

end Leaf

namespace Token

/-! ## What a group has to read -/

mutual

/-- The leaves in a token that have to read a character, if the token is to be satisfied. -/
def demands : Token → List Leaf
  | leaf l q _ => if l.insists q then [l] else []
  | group body q _ => if q.canBeAbsent then [] else demandsOf body

/-- The leaves in some tokens that have to read a character, if the tokens are to be satisfied. -/
def demandsOf : List Token → List Leaf
  | [] => []
  | t :: ts => demands t ++ demandsOf ts

end

/-- Whether some tokens cannot be satisfied with a text: one of their leaves has to read a
character, and the text has none for it. -/
def Bars (tokens : List Token) (w : List Char) : Prop :=
  ∃ l ∈ demandsOf tokens, ∀ c ∈ w, l.accepts c = false

end Token

/-! ## Reading -/

/-- A greedy way to read a text with some tokens, the first of which has matched a number of times,
ahead of another text. -/
inductive Reading : List Token → Nat → List Char → List Char → Prop
  | done {rest : List Char} : Reading [] 0 [] rest
  | again {l : Leaf} {q : Quantifier} {s : Span} {ts : List Token} {n : Nat} {c : Char}
      {w rest : List Char} (hq : q.repeats = true) (hl : l.accepts c = true)
      (h : Reading (.leaf l q s :: ts) (n + 1) w rest) : Reading (.leaf l q s :: ts) n (c :: w) rest
  | once {l : Leaf} {q : Quantifier} {s : Span} {ts : List Token} {c : Char} {w rest : List Char}
      (hq : q.repeats = false) (hl : l.accepts c = true) (h : Reading ts 0 w rest) :
      Reading (.leaf l q s :: ts) 0 (c :: w) rest
  /-- An optional literal is not left at the end of the text. -/
  | leave {l : Leaf} {q : Quantifier} {s : Span} {ts : List Token} {n : Nat} {w rest : List Char}
      (hend : q.MayEnd n) (hl : ∀ c, (w ++ rest).head? = some c → l.accepts c = false)
      (hmore : l.isLiteral = true ∧ q = .optional → w ++ rest ≠ []) (h : Reading ts 0 w rest) :
      Reading (.leaf l q s :: ts) n w rest
  | pass {body : List Token} {q : Quantifier} {s : Span} {ts : List Token} {u w rest : List Char}
      (hq : q.repeats = false) (hu : u ≠ []) (hbody : Reading body 0 u (w ++ rest))
      (h : Reading ts 0 w rest) : Reading (.group body q s :: ts) 0 (u ++ w) rest
  | more {body : List Token} {q : Quantifier} {s : Span} {ts : List Token} {n : Nat}
      {u w rest : List Char} (hq : q.repeats = true) (hu : u ≠ [])
      (hbody : Reading body 0 u (w ++ rest)) (h : Reading (.group body q s :: ts) (n + 1) w rest) :
      Reading (.group body q s :: ts) n (u ++ w) rest
  | quit {body : List Token} {q : Quantifier} {s : Span} {ts : List Token} {n : Nat}
      {w rest : List Char} (hend : q.MayEnd n) (hbars : Token.Bars body (w ++ rest))
      (h : Reading ts 0 w rest) : Reading (.group body q s :: ts) n w rest

namespace Reading

/-- With no tokens, nothing is read. -/
theorem eq_nil (h : Reading [] n w rest) : w = [] := by
  cases h
  rfl

/-- Each character that is read is one that a leaf accepts. -/
theorem acceptedBy (h : Reading tokens n w rest) :
    ∀ c ∈ w, AcceptedBy (Token.leavesOf tokens) c := by
  induction h with
  | done =>
    intro c hc
    cases hc
  | @again l q s ts n c w rest hq hl h ih =>
    exact List.forall_mem_cons.2 ⟨⟨(l, q), List.mem_cons_self, hl⟩, ih⟩
  | @once l q s ts c w rest hq hl h ih =>
    refine List.forall_mem_cons.2 ⟨⟨(l, q), List.mem_cons_self, hl⟩, fun b hb => ?_⟩
    exact (ih b hb).mono (List.subset_append_right _ _)
  | leave hend hl hmore h ih =>
    intro b hb
    exact (ih b hb).mono (List.subset_append_right _ _)
  | pass hq hu hbody h ihbody ih =>
    refine List.forall_mem_append.2 ⟨fun b hb => ?_, fun b hb => ?_⟩
    · exact (ihbody b hb).mono (List.subset_append_left _ _)
    · exact (ih b hb).mono (List.subset_append_right _ _)
  | more hq hu hbody h ihbody ih =>
    refine List.forall_mem_append.2 ⟨fun b hb => ?_, ih⟩
    exact (ihbody b hb).mono (List.subset_append_left _ _)
  | quit hend hbars h ih =>
    intro b hb
    exact (ih b hb).mono (List.subset_append_right _ _)

/-- Tokens that can be read without a character have the empty text. -/
theorem nullableOf (h : Reading tokens 0 [] rest) : Token.nullableOf tokens = true := by
  generalize hn : 0 = n at h
  generalize hw : [] = w at h
  induction h with
  | done => rfl
  | again hq hl h ih => cases hw
  | once hq hl h ih => cases hw
  | leave hend hl hmore h ih =>
    subst hn
    rw [Token.nullableOf, Token.nullable, hend.canBeAbsent, ih rfl hw]
    rfl
  | pass hq hu hbody h ihbody ih => exact absurd (List.append_eq_nil_iff.1 hw.symm).1 hu
  | more hq hu hbody h ihbody ih => exact absurd (List.append_eq_nil_iff.1 hw.symm).1 hu
  | quit hend hbars h ih =>
    subst hn
    rw [Token.nullableOf, Token.nullable, hend.canBeAbsent, ih rfl hw]
    rfl

/-- The next character of a text that can be read is one that the tokens admit. -/
theorem admission_eq (h : Reading tokens n (c :: w) rest)
    (hcount : ∀ t ∈ tokens.head?, t.isGroup = true → n = 0) :
    admission true c tokens = .accepted := by
  generalize hv : c :: w = v at h
  induction h generalizing w with
  | done => cases hv
  | again hq hl h ih =>
    obtain ⟨rfl, -⟩ := List.cons.inj hv
    rw [admission_leaf, if_pos hl]
  | once hq hl h ih =>
    obtain ⟨rfl, -⟩ := List.cons.inj hv
    rw [admission_leaf, if_pos hl]
  | leave hend hl hmore h ih =>
    subst hv
    rw [admission_leaf, hl c rfl]
    exact ih (fun _ _ _ => rfl) rfl
  | @pass body q s ts u w' rest hq hu hbody h ihbody ih =>
    obtain ⟨b, u, rfl⟩ := List.exists_cons_of_ne_nil hu
    obtain ⟨rfl, -⟩ := List.cons.inj hv
    rw [admission, Token.admission?, ihbody (fun _ _ _ => rfl) rfl]
  | @more body q s ts n u w' rest hq hu hbody h ihbody ih =>
    obtain ⟨b, u, rfl⟩ := List.exists_cons_of_ne_nil hu
    obtain ⟨rfl, -⟩ := List.cons.inj hv
    rw [admission, Token.admission?, ihbody (fun _ _ _ => rfl) rfl]
  | @quit body q s ts n w' rest hend hbars h ih =>
    obtain rfl : n = 0 := hcount _ rfl rfl
    rw [admission, Token.admission?, hend.canBeAbsent, ih (fun _ _ _ => rfl) hv]
    cases admission true c body <;> rfl

end Reading

/-! ## Patterns that read what they write -/

namespace Token

/-- The leaves that may come after an occurrence of a group's body, with some leaves `ahead` of the
group. -/
def beyond (body : List Token) (q : Quantifier) (ahead : List (Leaf × Quantifier)) :
    List (Leaf × Quantifier) := (if q.repeats then leavesOf body else []) ++ ahead

mutual

/-- At a token, the leaves that can write another character than the next one of the value: those
that stay until they are written. Past a leaf that may be left, they are the leaves `next`; past a
group that may be left, whose trial may fail for any character, they are all leaves `ahead`. -/
def substitutes (ahead next : List (Leaf × Quantifier)) : Token → List (Leaf × Quantifier)
  | leaf l q _ => if l.Stays q then [(l, q)] else if q.canBeAbsent then next else []
  | group body q _ =>
    substitutesOf (beyond body q ahead) body ++ if q.canBeAbsent then ahead else []

/-- At some tokens, the leaves that can write another character than the next one of the value. -/
def substitutesOf (ahead : List (Leaf × Quantifier)) : List Token → List (Leaf × Quantifier)
  | [] => ahead
  | t :: ts => substitutes (leavesOf ts ++ ahead) (substitutesOf ahead ts) t

end

mutual

/-- Whether a token reads what it writes, with some leaves `ahead`, the substitutes `next` after it,
and `more` if text is sure to come. -/
def Faithful (ahead next : List (Leaf × Quantifier)) (more : Bool) : Token → Prop
  | leaf l q _ =>
    (q.canBeAbsent = true ∨ q = .oneOrMore → ∀ x ∈ next, l.meets x.1 = false) ∧
      (l.isLiteral = true ∧ q = .optional → more = true)
  | group body q _ =>
    FaithfulOf (beyond body q ahead) more body ∧
      nullableOf body = false ∧
        ((q = .once ∨ q = .required) ∨ ∃ l ∈ demandsOf body, ∀ x ∈ ahead, l.meets x.1 = false)

/-- Whether some tokens read what they write, with some leaves `ahead`, and `more` if text is sure
to come. -/
def FaithfulOf (ahead : List (Leaf × Quantifier)) (more : Bool) : List Token → Prop
  | [] => True
  | t :: ts =>
    Faithful (leavesOf ts ++ ahead) (substitutesOf ahead ts) (more || !nullableOf ts) t ∧
      FaithfulOf ahead more ts

end

mutual

/-- Whether a token is faithful can be decided. -/
def decidableFaithful (ahead next : List (Leaf × Quantifier)) (more : Bool) :
    (t : Token) → Decidable (t.Faithful ahead next more)
  | leaf l q _ =>
    inferInstanceAs (Decidable
      ((q.canBeAbsent = true ∨ q = .oneOrMore → ∀ x ∈ next, l.meets x.1 = false) ∧
        (l.isLiteral = true ∧ q = .optional → more = true)))
  | group body q _ =>
    have := decidableFaithfulOf (beyond body q ahead) more body
    inferInstanceAs (Decidable
      (FaithfulOf (beyond body q ahead) more body ∧
        nullableOf body = false ∧
          ((q = .once ∨ q = .required) ∨
            ∃ l ∈ demandsOf body, ∀ x ∈ ahead, l.meets x.1 = false)))

/-- Whether some tokens are faithful can be decided. -/
def decidableFaithfulOf (ahead : List (Leaf × Quantifier)) (more : Bool) :
    (tokens : List Token) → Decidable (FaithfulOf ahead more tokens)
  | [] => isTrue trivial
  | t :: ts =>
    have := decidableFaithful (leavesOf ts ++ ahead) (substitutesOf ahead ts)
      (more || !nullableOf ts) t
    have := decidableFaithfulOf ahead more ts
    inferInstanceAs (Decidable
      (Faithful (leavesOf ts ++ ahead) (substitutesOf ahead ts) (more || !nullableOf ts) t ∧
        FaithfulOf ahead more ts))

end

/-- Whether a pattern is faithful can be decided. -/
instance (ahead : List (Leaf × Quantifier)) (more : Bool) : DecidablePred (FaithfulOf ahead more) :=
  decidableFaithfulOf ahead more

/-- The rest of a faithful pattern is faithful. -/
theorem FaithfulOf.drop {ahead : List (Leaf × Quantifier)} {more : Bool}
    (h : FaithfulOf ahead more tokens) (i : Nat) : FaithfulOf ahead more (tokens.drop i) := by
  induction tokens generalizing i with
  | nil => rwa [List.drop_nil]
  | cons t ts ih =>
    cases i with
    | zero => exact h
    | succ i => exact ih h.2 i

/-- In a faithful pattern, the token at a place reads what it writes ahead of those after it. -/
theorem FaithfulOf.of_getElem? {ahead : List (Leaf × Quantifier)} {more : Bool} {t : Token}
    {i : Nat} (h : FaithfulOf ahead more tokens) (ht : tokens[i]? = some t) :
    t.Faithful (leavesOf (tokens.drop (i + 1)) ++ ahead) (substitutesOf ahead (tokens.drop (i + 1)))
      (more || !nullableOf (tokens.drop (i + 1))) := by
  have hdrop := h.drop i
  rw [drop_eq_cons ht] at hdrop
  exact hdrop.1

end Token

end InputMask

import InputMask.Pattern.Admission
import InputMask.Proofs.Pattern.Unambiguous

/-!
# Reading a text leaf by leaf

`Parses` reads a text with the leaves of a pattern, one character at a time; it keeps count of the
matches of the current leaf, as a draft does. Every text of a solid pattern is read so
(`parses_of_mem_languageOf`). Where leaves do not compete, the next character alone says what comes
next: a leaf that accepts it takes it (`Parses.take`), and any other leaf is left
(`Parses.leave_of`). The character is then also one that the pattern admits (`admission_of_parses`).
-/

set_option autoImplicit false

namespace InputMask

variable {c : Char} {l : Leaf} {q : Quantifier} {leaves ahead : List (Leaf × Quantifier)} {n : Nat}
  {w r : List Char} {tokens : List Token}

/-- A way to read a text with some leaves, the first of which has matched a number of times. -/
inductive Parses : List (Leaf × Quantifier) → Nat → List Char → Prop
  | done : Parses [] 0 []
  | again {l : Leaf} {q : Quantifier} {leaves : List (Leaf × Quantifier)} {n : Nat} {c : Char}
      {w : List Char} (hq : q.repeats = true) (hl : l.accepts c = true)
      (h : Parses ((l, q) :: leaves) (n + 1) w) : Parses ((l, q) :: leaves) n (c :: w)
  | once {l : Leaf} {q : Quantifier} {leaves : List (Leaf × Quantifier)} {c : Char}
      {w : List Char} (hq : q.repeats = false) (hl : l.accepts c = true)
      (h : Parses leaves 0 w) : Parses ((l, q) :: leaves) 0 (c :: w)
  | leave {l : Leaf} {q : Quantifier} {leaves : List (Leaf × Quantifier)} {n : Nat}
      {w : List Char} (hend : q.MayEnd n) (h : Parses leaves 0 w) : Parses ((l, q) :: leaves) n w

namespace Quantifier

/-- What may end before a match may be left out. -/
theorem MayEnd.canBeAbsent (h : q.MayEnd 0) : q.canBeAbsent = true :=
  h.resolve_right fun hpos => Nat.lt_irrefl 0 hpos.2

/-- What may end may be left out, or has to match once and may repeat. -/
theorem MayEnd.varies (h : q.MayEnd n) : q.canBeAbsent = true ∨ q = .oneOrMore :=
  h.imp_right And.left

end Quantifier

namespace Parses

/-! ## What comes next -/

/-- The first character of a text that can be read is one that can be the next. -/
theorem takesNext (h : Parses leaves 0 (c :: w)) : TakesNext c leaves := by
  induction leaves with
  | nil => cases h
  | cons x leaves ih =>
    obtain ⟨l, q⟩ := x
    rw [takesNext_cons]
    cases h with
    | again hq hl h => exact .inl hl
    | once hq hl h => exact .inl hl
    | leave hend h => exact .inr ⟨hend.canBeAbsent, ih h⟩

/-- Where the text has ended, all leaves are left out. -/
theorem canBeAbsent_of_nil (h : Parses leaves 0 []) : ∀ x ∈ leaves, x.2.canBeAbsent = true := by
  induction leaves with
  | nil =>
    intro x hx
    cases hx
  | cons x leaves ih =>
    cases h with
    | leave hend h => exact List.forall_mem_cons.2 ⟨hend.canBeAbsent, ih h⟩

/-- A leaf that does not compete takes the next character if it accepts it. -/
theorem take (h : Parses ((l, q) :: leaves) n (c :: w)) (hsep : Separated ((l, q) :: leaves))
    (hl : l.accepts c = true) :
    q.repeats = true ∧ Parses ((l, q) :: leaves) (n + 1) w ∨
      q.repeats = false ∧ n = 0 ∧ Parses leaves 0 w := by
  cases h with
  | again hq _ h => exact .inl ⟨hq, h⟩
  | once hq _ h => exact .inr ⟨hq, rfl, h⟩
  | leave hend h => exact absurd h.takesNext ((separated_cons.1 hsep).1 hend.varies c hl)

/-- A leaf is left where it does not accept the next character, and at the end of the text. -/
theorem leave_of (h : Parses ((l, q) :: leaves) n w)
    (hl : ∀ c, w.head? = some c → l.accepts c = false) :
    q.MayEnd n ∧ Parses leaves 0 w := by
  cases h with
  | @again _ _ _ _ c _ hq haccepts h =>
    rw [hl c rfl] at haccepts
    cases haccepts
  | @once _ _ _ c _ hq haccepts h =>
    rw [hl c rfl] at haccepts
    cases haccepts
  | leave hend h => exact ⟨hend, h⟩

/-! ## Texts of a pattern -/

/-- A leaf that repeats reads as many of its characters as let it end, and then the rest is read. -/
theorem pow_append (hq : q.repeats = true) {k : Nat} (hw : w ∈ l.language ^ k)
    (hend : q.MayEnd (n + k)) (h : Parses leaves 0 r) :
    Parses ((l, q) :: leaves) n (w ++ r) := by
  induction k generalizing n w with
  | zero =>
    obtain rfl : w = [] := by rwa [pow_zero, Language.mem_one] at hw
    exact .leave hend h
  | succ k ih =>
    rw [pow_succ', Language.mem_mul] at hw
    obtain ⟨u, ⟨c, hc, rfl⟩, v, hv, rfl⟩ := hw
    refine .again hq hc (ih hv ?_)
    rwa [Nat.add_right_comm]

/-- A text of a leaf is read with it, and then the rest with the leaves that follow. -/
theorem leaf_append {s : Span} (hw : w ∈ (Token.leaf l q s).language) (h : Parses leaves 0 r) :
    Parses ((l, q) :: leaves) 0 (w ++ r) := by
  by_cases hq : q.repeats = true
  · obtain ⟨k, hend, hw⟩ := (Quantifier.mem_language_iff_pow hq).1 hw
    exact pow_append hq hw (by rwa [Nat.zero_add]) h
  · rw [Bool.not_eq_true] at hq
    obtain ⟨habsent, rfl⟩ | ⟨c, hc, rfl⟩ := (Quantifier.mem_language_iff_once hq).1 hw
    · exact .leave (.inl habsent) h
    · exact .once hq hc h

end Parses

/-- A text of a solid pattern can be read with its leaves, whatever is read after it. -/
theorem parses_of_mem_languageOf (hsolid : Token.SolidOf tokens)
    (hw : w ∈ Token.languageOf tokens) (h : Parses ahead 0 r) :
    Parses (Token.leavesOf tokens ++ ahead) 0 (w ++ r) := by
  induction tokens using Token.groupInduction generalizing ahead w r with
  | h tokens ih =>
    induction tokens generalizing w with
    | nil =>
      obtain rfl : w = [] := Token.mem_languageOf_nil.1 hw
      exact h
    | cons t ts ihts =>
      obtain ⟨u, hu, v, hv, rfl⟩ := Token.mem_languageOf_cons.1 hw
      have hts : Parses (Token.leavesOf ts ++ ahead) 0 (v ++ r) :=
        ihts (fun body q s hmem => ih body q s (List.mem_cons_of_mem _ hmem)) hsolid.2 hv
      rw [Token.leavesOf, List.append_assoc, List.append_assoc]
      cases t with
      | leaf l q s => exact Parses.leaf_append hu hts
      | group body q s =>
        obtain ⟨hq, -, hbody⟩ := hsolid.1
        have hu' : u ∈ Token.languageOf body := by
          obtain rfl | rfl := hq
          · exact hu
          · exact hu
        exact ih body q s List.mem_cons_self hbody hu' hts

/-! ## Admission -/

/-- Where characters are discarded, a leaf that does not accept a character leaves the question
whether it could come next to the tokens after it. -/
theorem admission_leaf (c : Char) (l : Leaf) (q : Quantifier) (s : Span) (ts : List Token) :
    admission true c (.leaf l q s :: ts) =
      if l.accepts c then .accepted else admission true c ts := by
  cases l with
  | ofClass k =>
    rw [admission, Token.admission?]
    by_cases hk : k.accepts c = true
    · simp [Leaf.accepts, hk]
    · simp [Leaf.accepts, hk]
  | literal d =>
    rw [admission, Token.admission?]
    by_cases hd : d = c
    · simp [Leaf.accepts, hd]
    · simp [Leaf.accepts, hd]

/-- A character that can be the next one with the leaves of a solid pattern is one that the pattern
admits. -/
theorem admission_of_takesNext (hsolid : Token.SolidOf tokens)
    (h : TakesNext c (Token.leavesOf tokens)) : admission true c tokens = .accepted := by
  induction tokens using Token.groupInduction with
  | h tokens ih =>
    induction tokens with
    | nil => exact absurd h not_takesNext_nil
    | cons t ts ihts =>
      rw [Token.leavesOf] at h
      cases t with
      | leaf l q s =>
        rw [admission_leaf]
        split
        · rfl
        · next hl =>
          obtain haccepts | ⟨-, hnext⟩ := takesNext_cons.1 h
          · exact absurd haccepts hl
          · exact ihts (fun body q s hmem => ih body q s (List.mem_cons_of_mem _ hmem)) hsolid.2
              hnext
      | group body q s =>
        -- some leaf of the body is needed, so the character is taken in the body
        obtain ⟨-, hne, hbody⟩ := hsolid.1
        have haccepted : admission true c body = .accepted :=
          ih body q s List.mem_cons_self hbody (h.of_append (Token.exists_needed hne))
        rw [admission, Token.admission?, haccepted]

/-- With a text that a solid pattern can be read by, its next character is one that the pattern
admits. -/
theorem admission_of_parses {t : Token} {ts : List Token} (hsolid : Token.SolidOf (t :: ts))
    (hcount : t.isGroup = true → n = 0)
    (h : Parses (Token.leavesOf (t :: ts)) n (c :: w)) :
    admission true c (t :: ts) = .accepted := by
  cases t with
  | group body q s =>
    obtain rfl := hcount rfl
    exact admission_of_takesNext hsolid h.takesNext
  | leaf l q s =>
    rw [admission_leaf]
    split
    · rfl
    · next hl =>
      have hleave := h.leave_of fun b hb => by
        cases hb
        exact Bool.eq_false_iff.2 hl
      exact admission_of_takesNext hsolid.2 hleave.2.takesNext

end InputMask

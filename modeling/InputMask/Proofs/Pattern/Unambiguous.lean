import InputMask.Proofs.Pattern.Leaves
import InputMask.Proofs.Pattern.Occurrences

/-!
# Patterns that can be read in one way only

Reading a value to a pattern never has to choose if, wherever a leaf may be left, no leaf that may
come next takes the same characters (`Separated`). Two more conditions say where a pattern cannot
end: an optional literal has to be followed by a leaf that is needed (`Anchored`), and a group has
to occur exactly once and to take something (`Token.Solid`).

All of them are conditions on the pattern alone, and they can be decided.
-/

set_option autoImplicit false

namespace InputMask

variable {c : Char} {l m : Leaf} {q : Quantifier} {leaves : List (Leaf × Quantifier)}

/-! ## Which leaf takes the next character -/

/-- Whether a character can be the next one, with some leaves ahead: one of them accepts it, and all
leaves before that one may be left out. -/
def TakesNext (c : Char) (leaves : List (Leaf × Quantifier)) : Prop :=
  ∃ pre l q post, leaves = pre ++ (l, q) :: post ∧ (∀ x ∈ pre, x.2.canBeAbsent = true) ∧
    l.accepts c = true

/-- With no leaves ahead, no character can be the next one. -/
theorem not_takesNext_nil : ¬TakesNext c [] := by
  rintro ⟨pre, l, q, post, h, -⟩
  simp at h

/-- A character can be the next one for the first leaf or, if this may be left out, for those after
it. -/
theorem takesNext_cons :
    TakesNext c ((l, q) :: leaves) ↔
      l.accepts c = true ∨ q.canBeAbsent = true ∧ TakesNext c leaves := by
  constructor
  · rintro ⟨pre, k, r, post, h, hpre, hk⟩
    cases pre with
    | nil =>
      cases h
      exact .inl hk
    | cons x pre =>
      cases h
      exact .inr ⟨hpre _ List.mem_cons_self,
        pre, k, r, post, rfl, fun x hx => hpre x (List.mem_cons_of_mem _ hx), hk⟩
  · rintro (hl | ⟨hq, pre, k, r, post, rfl, hpre, hk⟩)
    · exact ⟨[], l, q, leaves, rfl, by simp, hl⟩
    · exact ⟨(l, q) :: pre, k, r, post, rfl, List.forall_mem_cons.2 ⟨hq, hpre⟩, hk⟩

/-- A leaf that may not be left out takes the next character, or one before it does. -/
theorem TakesNext.of_append {xs ys : List (Leaf × Quantifier)} (h : TakesNext c (xs ++ ys))
    (hxs : ∃ x ∈ xs, x.2.canBeAbsent = false) : TakesNext c xs := by
  induction xs with
  | nil =>
    obtain ⟨x, hx, -⟩ := hxs
    cases hx
  | cons x xs ih =>
    rw [List.cons_append, takesNext_cons] at h
    rw [takesNext_cons]
    refine h.imp_right fun ⟨habsent, hnext⟩ => ⟨habsent, ih hnext ?_⟩
    obtain ⟨y, hy, hneeded⟩ := hxs
    obtain rfl | hy := List.mem_cons.1 hy
    · rw [habsent] at hneeded
      cases hneeded
    · exact ⟨y, hy, hneeded⟩

/-! ## Leaves that do not compete -/

/-- Where a leaf may be left out, or left after a match, no character that it accepts can be the
next one after it. -/
def Separated (leaves : List (Leaf × Quantifier)) : Prop :=
  ∀ pre l q post, leaves = pre ++ (l, q) :: post → q.canBeAbsent = true ∨ q = .oneOrMore →
    ∀ c, l.accepts c = true → ¬TakesNext c post

/-- Every optional literal has a leaf after it that may not be left out. -/
def Anchored (leaves : List (Leaf × Quantifier)) : Prop :=
  ∀ pre c post, leaves = pre ++ (.literal c, .optional) :: post →
    ∃ x ∈ post, x.2.canBeAbsent = false

/-- Leaves do not compete if the first does not compete with the others, nor these among
themselves. -/
theorem separated_cons :
    Separated ((l, q) :: leaves) ↔
      (q.canBeAbsent = true ∨ q = .oneOrMore → ∀ c, l.accepts c = true → ¬TakesNext c leaves) ∧
        Separated leaves := by
  constructor
  · intro h
    exact ⟨h [] l q leaves rfl, fun pre k r post heq => h ((l, q) :: pre) k r post (heq ▸ rfl)⟩
  · rintro ⟨hhead, htail⟩ pre k r post heq
    cases pre with
    | nil =>
      cases heq
      exact hhead
    | cons x pre =>
      cases heq
      exact htail pre k r post rfl

/-- Whether a leaf is a literal. -/
def Leaf.isLiteral : Leaf → Bool
  | ofClass _ => false
  | literal _ => true

/-- Optional literals are followed by a needed leaf if the first leaf is, where it is one, and the
others are. -/
theorem anchored_cons :
    Anchored ((l, q) :: leaves) ↔
      (l.isLiteral = true ∧ q = .optional → ∃ x ∈ leaves, x.2.canBeAbsent = false) ∧
        Anchored leaves := by
  constructor
  · intro h
    refine ⟨?_, fun pre c post heq => h ((l, q) :: pre) c post (heq ▸ rfl)⟩
    rintro ⟨hl, rfl⟩
    cases l with
    | ofClass k => cases hl
    | literal c => exact h [] c leaves rfl
  · rintro ⟨hhead, htail⟩ pre c post heq
    cases pre with
    | nil =>
      cases heq
      exact hhead ⟨rfl, rfl⟩
    | cons x pre =>
      cases heq
      exact htail pre c post rfl

/-- The leaves at the end of others that do not compete do not compete. -/
theorem Separated.of_append {xs ys : List (Leaf × Quantifier)} (h : Separated (xs ++ ys)) :
    Separated ys := by
  intro pre l q post heq
  exact h (xs ++ pre) l q post (by rw [heq, List.append_assoc])

/-- Where every optional literal has a needed leaf after it, so has one among the last leaves. -/
theorem Anchored.of_append {xs ys : List (Leaf × Quantifier)} (h : Anchored (xs ++ ys)) :
    Anchored ys := by
  intro pre c post heq
  exact h (xs ++ pre) c post (by rw [heq, List.append_assoc])

/-! ## Groups that have to take something -/

namespace Token

mutual

/-- Whether every group in a token, at any depth, occurs exactly once and has no empty text. -/
def Solid : Token → Prop
  | leaf .. => True
  | group body q _ => (q = .once ∨ q = .required) ∧ [] ∉ languageOf body ∧ SolidOf body

/-- Whether every group in some tokens, at any depth, occurs exactly once and has no empty text. -/
def SolidOf : List Token → Prop
  | [] => True
  | t :: ts => Solid t ∧ SolidOf ts

end

/-- The tokens of a solid pattern are solid. -/
theorem SolidOf.of_mem {t : Token} {tokens : List Token} (h : SolidOf tokens) (ht : t ∈ tokens) :
    t.Solid := by
  induction tokens with
  | nil => cases ht
  | cons u us ih =>
    obtain rfl | ht := List.mem_cons.1 ht
    · exact h.1
    · exact ih h.2 ht

/-- The rest of a solid pattern is solid. -/
theorem SolidOf.drop {tokens : List Token} (h : SolidOf tokens) (i : Nat) :
    SolidOf (tokens.drop i) := by
  induction tokens generalizing i with
  | nil => rwa [List.drop_nil]
  | cons t ts ih =>
    cases i with
    | zero => exact h
    | succ i => exact ih h.2 i

/-- A pattern all of whose leaves may be left out has the empty text. -/
theorem nil_mem_languageOf {tokens : List Token}
    (h : ∀ x ∈ leavesOf tokens, x.2.canBeAbsent = true) : [] ∈ languageOf tokens := by
  induction tokens using groupInduction with
  | h tokens ih =>
    induction tokens with
    | nil => exact Language.nil_mem_one
    | cons t ts ihts =>
      rw [leavesOf, List.forall_mem_append] at h
      have ht : [] ∈ t.language := by
        cases t with
        | leaf l q s =>
          exact Quantifier.nil_mem_language_iff.2 (.inl (h.1 (l, q) List.mem_cons_self))
        | group body q s =>
          exact Quantifier.nil_mem_language_iff.2 (.inr (ih body q s List.mem_cons_self h.1))
      have hts : [] ∈ languageOf ts :=
        ihts (fun body q s hmem => ih body q s (List.mem_cons_of_mem _ hmem)) h.2
      exact mem_languageOf_cons.2 ⟨[], ht, [], hts, rfl⟩

/-- A group that has to take something has a leaf that may not be left out. -/
theorem exists_needed {tokens : List Token} (h : [] ∉ languageOf tokens) :
    ∃ x ∈ leavesOf tokens, x.2.canBeAbsent = false := by
  by_contra hnone
  refine h (nil_mem_languageOf fun x hx => ?_)
  by_contra habsent
  exact hnone ⟨x, hx, Bool.eq_false_iff.2 habsent⟩

end Token

/-! ## Deciding the conditions -/

/-- Whether there is a character that two leaves both accept. -/
def Leaf.meets : Leaf → Leaf → Bool
  | literal c, m => m.accepts c
  | ofClass k, literal c => k.accepts c
  | ofClass _, ofClass _ => true

/-- Whether two leaves meet tells whether some character is accepted by both. -/
theorem Leaf.meets_iff : l.meets m = true ↔ ∃ c, l.accepts c = true ∧ m.accepts c = true := by
  cases l with
  | literal b => simp [meets, accepts]
  | ofClass k =>
    cases m with
    | literal b => simp [meets, accepts]
    | ofClass k' =>
      refine ⟨fun _ => ⟨'0', ?_, ?_⟩, fun _ => rfl⟩
      · cases k <;> rfl
      · cases k' <;> rfl

/-- Whether a leaf accepts a character that can be the next one, with some leaves ahead. -/
def Leaf.meetsNext (l : Leaf) : List (Leaf × Quantifier) → Bool
  | [] => false
  | (m, q) :: leaves => l.meets m || q.canBeAbsent && l.meetsNext leaves

/-- Whether a leaf meets what is next tells whether it accepts a character that can be the next
one. -/
theorem Leaf.meetsNext_iff :
    l.meetsNext leaves = true ↔ ∃ c, l.accepts c = true ∧ TakesNext c leaves := by
  induction leaves with
  | nil => simp [meetsNext, not_takesNext_nil]
  | cons x leaves ih =>
    obtain ⟨m, q⟩ := x
    rw [meetsNext, Bool.or_eq_true, Bool.and_eq_true, meets_iff, ih]
    simp only [takesNext_cons]
    constructor
    · rintro (⟨c, hl, hm⟩ | ⟨hq, c, hl, hnext⟩)
      · exact ⟨c, hl, .inl hm⟩
      · exact ⟨c, hl, .inr ⟨hq, hnext⟩⟩
    · rintro ⟨c, hl, hm | ⟨hq, hnext⟩⟩
      · exact .inl ⟨c, hl, hm⟩
      · exact .inr ⟨hq, c, hl, hnext⟩

/-- Whether leaves compete can be decided. -/
instance decidableSeparated : DecidablePred Separated
  | [] => isTrue fun pre l q post h => by simp at h
  | (l, q) :: leaves =>
    have := decidableSeparated leaves
    decidable_of_iff
      ((q.canBeAbsent = true ∨ q = .oneOrMore → l.meetsNext leaves = false) ∧
        Separated leaves) <| by
        rw [separated_cons, ← Bool.not_eq_true, Leaf.meetsNext_iff]
        simp only [not_exists, not_and]

/-- Whether optional literals are followed by a leaf that is needed can be decided. -/
instance decidableAnchored : DecidablePred Anchored
  | [] => isTrue fun pre c post h => by simp at h
  | (_, _) :: leaves =>
    have := decidableAnchored leaves
    decidable_of_iff _ anchored_cons.symm

namespace Token

mutual

/-- Whether a token has the empty text. -/
def nullable : Token → Bool
  | leaf _ q _ => q.canBeAbsent
  | group body q _ => q.canBeAbsent || nullableOf body

/-- Whether some tokens have the empty text. -/
def nullableOf : List Token → Bool
  | [] => true
  | t :: ts => nullable t && nullableOf ts

end

/-- Whether a pattern is nullable tells whether it has the empty text. -/
theorem nullableOf_iff (tokens : List Token) :
    nullableOf tokens = true ↔ [] ∈ languageOf tokens := by
  induction tokens using groupInduction with
  | h tokens ih =>
    induction tokens with
    | nil => simp [nullableOf, mem_languageOf_nil]
    | cons t ts ihts =>
      have ht : t.nullable = true ↔ [] ∈ t.language := by
        cases t with
        | leaf l q s =>
          rw [nullable, language, Quantifier.nil_mem_language_iff]
          simp [Leaf.mem_language]
        | group body q s =>
          rw [nullable, language, Quantifier.nil_mem_language_iff, Bool.or_eq_true,
            ih body q s List.mem_cons_self]
      have hts : nullableOf ts = true ↔ [] ∈ languageOf ts :=
        ihts fun body q s hmem => ih body q s (List.mem_cons_of_mem _ hmem)
      rw [nullableOf, Bool.and_eq_true, ht, hts, mem_languageOf_cons]
      simp

mutual

/-- Whether a token is solid can be decided. -/
def decidableSolid : (t : Token) → Decidable t.Solid
  | leaf .. => isTrue trivial
  | group body q _ =>
    have := decidableSolidOf body
    decidable_of_iff ((q = .once ∨ q = .required) ∧ nullableOf body = false ∧ SolidOf body) <| by
      rw [Solid, ← nullableOf_iff, Bool.not_eq_true]

/-- Whether some tokens are solid can be decided. -/
def decidableSolidOf : (tokens : List Token) → Decidable (SolidOf tokens)
  | [] => isTrue trivial
  | t :: ts =>
    have := decidableSolid t
    have := decidableSolidOf ts
    inferInstanceAs (Decidable (Solid t ∧ SolidOf ts))

end

/-- Whether a pattern is solid can be decided. -/
instance : DecidablePred SolidOf := decidableSolidOf

end Token

end InputMask

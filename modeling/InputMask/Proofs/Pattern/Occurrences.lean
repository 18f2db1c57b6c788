import InputMask.Pattern.Language

/-!
# How quantifiers and lists put texts together

What the language of a pattern says of its parts: any quantifier allows one occurrence
(`Quantifier.mem_language_of_mem`), a token that may be left out allows none, and a token that
repeats allows the numbers of occurrences with which it may be left
(`Quantifier.mem_language_iff_pow`). No pattern rules out every text
(`Token.exists_mem_languageOf`).
-/

set_option autoImplicit false

namespace InputMask

namespace Quantifier

variable {q : Quantifier} {L : Language Char} {w : List Char}

/-- Whether a token that has matched a number of times may be left. -/
def MayEnd (q : Quantifier) (count : Nat) : Prop :=
  q.canBeAbsent = true ∨ q = .oneOrMore ∧ 0 < count

/-- A token that repeats allows the numbers of occurrences with which it may be left. -/
theorem mem_language_iff_pow (hrepeats : q.repeats = true) :
    w ∈ q.language L ↔ ∃ n, q.MayEnd n ∧ w ∈ L ^ n := by
  cases q with
  | zeroOrMore =>
    rw [language, Language.kstar_eq_iSup_pow, Language.mem_iSup]
    simp [MayEnd, canBeAbsent]
  | oneOrMore =>
    rw [language, Language.kstar_eq_iSup_pow, Language.mul_iSup, Language.mem_iSup]
    simp only [← pow_succ']
    constructor
    · rintro ⟨n, hw⟩
      exact ⟨n + 1, .inr ⟨rfl, Nat.succ_pos n⟩, hw⟩
    · rintro ⟨n, hend, hw⟩
      have hpos : 0 < n := by simpa [MayEnd, canBeAbsent] using hend
      exact ⟨n - 1, by rwa [Nat.sub_add_cancel hpos]⟩
  | once => cases hrepeats
  | optional => cases hrepeats
  | required => cases hrepeats

/-- A token that does not repeat is one occurrence, unless it is left out. -/
theorem mem_language_iff_once (hrepeats : q.repeats = false) :
    w ∈ q.language L ↔ q.canBeAbsent = true ∧ w = [] ∨ w ∈ L := by
  cases q with
  | once => simp [language, canBeAbsent]
  | optional => simp [mem_language_optional, canBeAbsent]
  | required => simp [language, canBeAbsent]
  | zeroOrMore => cases hrepeats
  | oneOrMore => cases hrepeats

/-- A token that repeats allows one occurrence or more. -/
theorem mem_language_of_mem_pow {n : Nat} (hrepeats : q.repeats = true) (hpos : 0 < n)
    (hw : w ∈ L ^ n) : w ∈ q.language L := by
  refine (mem_language_iff_pow hrepeats).2 ⟨n, ?_, hw⟩
  cases q with
  | zeroOrMore => exact .inl rfl
  | oneOrMore => exact .inr ⟨rfl, hpos⟩
  | once => cases hrepeats
  | optional => cases hrepeats
  | required => cases hrepeats

/-- Every quantifier allows one occurrence. -/
theorem mem_language_of_mem (hw : w ∈ L) : w ∈ q.language L := by
  by_cases hrepeats : q.repeats = true
  · exact mem_language_of_mem_pow hrepeats Nat.one_pos (by rwa [pow_one])
  · exact (mem_language_iff_once (Bool.eq_false_iff.2 hrepeats)).2 (.inr hw)

/-- The empty text belongs to a token that may be left out, or has it as an occurrence. -/
theorem nil_mem_language_iff : [] ∈ q.language L ↔ q.canBeAbsent = true ∨ [] ∈ L := by
  cases q with
  | once => simp [language, canBeAbsent]
  | optional => simp [mem_language_optional, canBeAbsent]
  | zeroOrMore => simp [language, canBeAbsent, Language.nil_mem_kstar]
  | oneOrMore => simp [language, canBeAbsent, Language.mem_mul, Language.nil_mem_kstar]
  | required => simp [language, canBeAbsent]

end Quantifier

namespace Token

/-- The texts of two lists of tokens, one after the other, are put together from theirs. -/
theorem languageOf_append (xs ys : List Token) :
    languageOf (xs ++ ys) = languageOf xs * languageOf ys := by
  induction xs with
  | nil => rw [List.nil_append, languageOf, one_mul]
  | cons t ts ih => rw [List.cons_append, languageOf, languageOf, ih, mul_assoc]

/-- The tokens up to one and that one have the texts of both. -/
theorem languageOf_take_succ {tokens : List Token} {t : Token} {i : Nat}
    (h : tokens[i]? = some t) :
    languageOf (tokens.take (i + 1)) = languageOf (tokens.take i) * t.language := by
  rw [List.take_add_one, h, Option.toList_some, languageOf_append, languageOf, languageOf, mul_one]

/-- A character that a leaf accepts is a text of it, whatever its quantifier. -/
theorem singleton_mem_language {l : Leaf} {q : Quantifier} {s : Span} {c : Char}
    (h : l.accepts c = true) : [c] ∈ (leaf l q s).language := by
  rw [language]
  exact Quantifier.mem_language_of_mem (Leaf.mem_language.2 ⟨c, h, rfl⟩)

end Token

/-! ## Every pattern has a text -/

/-- Every leaf accepts a character. -/
theorem Leaf.exists_accepts (l : Leaf) : ∃ c, l.accepts c = true := by
  cases l with
  | ofClass k => exact ⟨'0', by cases k <;> rfl⟩
  | literal c => exact ⟨c, beq_self_eq_true c⟩

/-- Every pattern has a text. -/
theorem Token.exists_mem_languageOf (tokens : List Token) : ∃ w, w ∈ Token.languageOf tokens := by
  induction tokens using Token.groupInduction with
  | h tokens ih =>
    induction tokens with
    | nil => exact ⟨[], Token.mem_languageOf_nil.2 rfl⟩
    | cons t ts ihts =>
      obtain ⟨v, hv⟩ := ihts fun body q s hmem => ih body q s (List.mem_cons_of_mem t hmem)
      obtain ⟨u, hu⟩ : ∃ u, u ∈ t.language := by
        cases t with
        | leaf l q s =>
          obtain ⟨c, hc⟩ := l.exists_accepts
          exact ⟨[c], Token.singleton_mem_language hc⟩
        | group body q s =>
          obtain ⟨u, hu⟩ := ih body q s List.mem_cons_self
          exact ⟨u, Quantifier.mem_language_of_mem hu⟩
      exact ⟨u ++ v, Token.mem_languageOf_cons.2 ⟨u, hu, v, hv, rfl⟩⟩

end InputMask

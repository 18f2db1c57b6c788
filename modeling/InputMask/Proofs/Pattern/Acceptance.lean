import InputMask.Proofs.Pattern.Openings

/-!
# What an accepted character can be written for

`Token.tracedLanguageOf` is the language of a pattern with each character next to the leaf that it
is written for; without the leaves it is the language itself (`Token.map_tracedLanguageOf`).

A character that is accepted without discarding is one that some text of the pattern has, written
for a leaf that accepts it, with nothing before it but literals (`Token.Reaches`): the search for
the character goes past literals only, and in a group it goes on in the body, of which one
occurrence is a text of the group.
-/

set_option autoImplicit false

namespace InputMask

/-! ## Occurrences over any alphabet -/

namespace Quantifier

/-- Whether a token may occur a number of times. -/
def Allows (q : Quantifier) (count : Nat) : Prop :=
  (count = 0 → q.canBeAbsent = true) ∧ (1 < count → q.repeats = true)

/-- Every quantifier allows one occurrence. -/
theorem allows_one (q : Quantifier) : q.Allows 1 :=
  ⟨fun h => absurd h Nat.one_ne_zero, fun h => absurd h (Nat.lt_irrefl 1)⟩

/-- As many texts of a language one after another as a quantifier allows. -/
def occurring {α : Type} (q : Quantifier) (L : Language α) : Language α :=
  {w | ∃ count, q.Allows count ∧ w ∈ L ^ count}

/-- A text of a language is one occurrence of it. -/
theorem mem_occurring_of_mem {α : Type} {L : Language α} {w : List α} (q : Quantifier)
    (hw : w ∈ L) : w ∈ q.occurring L :=
  ⟨1, q.allows_one, by rwa [pow_one]⟩

/-- A token that repeats may occur as often as it may be left after. -/
theorem allows_iff_mayEnd {q : Quantifier} {count : Nat} (hrepeats : q.repeats = true) :
    q.Allows count ↔ q.MayEnd count := by
  cases q with
  | zeroOrMore => simp [Allows, MayEnd, canBeAbsent, repeats]
  | oneOrMore =>
    simp only [Allows, MayEnd, canBeAbsent, repeats, Bool.false_eq_true, implies_true, and_true,
      true_and, false_or]
    exact Nat.pos_iff_ne_zero.symm
  | once => cases hrepeats
  | optional => cases hrepeats
  | required => cases hrepeats

/-- Of texts of characters, these are the ones that a quantifier puts together. -/
theorem occurring_eq_language (q : Quantifier) (L : Language Char) :
    q.occurring L = q.language L := by
  ext w
  cases hrepeats : q.repeats with
  | true =>
    rw [mem_language_iff_pow hrepeats]
    exact exists_congr fun count => and_congr_left' (allows_iff_mayEnd hrepeats)
  | false =>
    rw [mem_language_iff_once hrepeats]
    constructor
    · rintro ⟨count, ⟨habsent, hmore⟩, hw⟩
      rw [hrepeats] at hmore
      obtain rfl | rfl : count = 0 ∨ count = 1 := by
        by_contra hcount
        exact Bool.false_ne_true (hmore (by omega))
      · rw [pow_zero, Language.mem_one] at hw
        exact .inl ⟨habsent rfl, hw⟩
      · rw [pow_one] at hw
        exact .inr hw
    · rintro (⟨habsent, rfl⟩ | hw)
      · refine ⟨0, ⟨fun _ => habsent, fun h => absurd h (Nat.not_lt_zero 1)⟩, ?_⟩
        rw [pow_zero, Language.mem_one]
      · exact mem_occurring_of_mem q hw

/-- It makes no difference whether symbols are changed before texts are put together or after. -/
theorem map_occurring {α β : Type} (f : α → β) (q : Quantifier) (L : Language α) :
    Language.map f (q.occurring L) = q.occurring (Language.map f L) := by
  ext w
  constructor
  · rintro ⟨v, ⟨count, hcount, hv⟩, rfl⟩
    refine ⟨count, hcount, ?_⟩
    rw [← map_pow]
    exact ⟨v, hv, rfl⟩
  · rintro ⟨count, hcount, hw⟩
    rw [← map_pow] at hw
    obtain ⟨v, hv, rfl⟩ := hw
    exact ⟨v, ⟨count, hcount, hv⟩, rfl⟩

end Quantifier

/-! ## Texts with the leaves that they are written for -/

/-- The single characters that a leaf accepts, each next to the leaf. -/
def Leaf.tracedLanguage (l : Leaf) : Language (Leaf × Char) :=
  {w | ∃ c, l.accepts c = true ∧ w = [(l, c)]}

namespace Token

mutual

/-- The texts that a token stands for, each character next to the leaf that it is written for. -/
def tracedLanguage : Token → Language (Leaf × Char)
  | leaf l q _ => q.occurring l.tracedLanguage
  | group body q _ => q.occurring (tracedLanguageOf body)

/-- The texts that a list of tokens stands for, each character next to the leaf that it is written
for. -/
def tracedLanguageOf : List Token → Language (Leaf × Char)
  | [] => 1
  | t :: ts => tracedLanguage t * tracedLanguageOf ts

end

/-- Without the leaves, these are the texts of a pattern. -/
theorem map_tracedLanguageOf (tokens : List Token) :
    Language.map Prod.snd (tracedLanguageOf tokens) = languageOf tokens := by
  induction tokens using groupInduction with
  | h tokens ih =>
    induction tokens with
    | nil => exact map_one _
    | cons t ts ihts =>
      have hts := ihts fun body q s hmem => ih body q s (List.mem_cons_of_mem t hmem)
      have ht : Language.map Prod.snd t.tracedLanguage = t.language := by
        cases t with
        | leaf l q s =>
          have hleaf : Language.map Prod.snd l.tracedLanguage = l.language := by
            ext w
            constructor
            · rintro ⟨v, ⟨c, hc, rfl⟩, rfl⟩
              exact ⟨c, hc, rfl⟩
            · rintro ⟨c, hc, rfl⟩
              exact ⟨[(l, c)], ⟨c, hc, rfl⟩, rfl⟩
          rw [tracedLanguage, language, Quantifier.map_occurring, hleaf,
            Quantifier.occurring_eq_language]
        | group body q s =>
          rw [tracedLanguage, language, Quantifier.map_occurring, ih body q s List.mem_cons_self,
            Quantifier.occurring_eq_language]
      rw [tracedLanguageOf, languageOf, map_mul, ht, hts]

/-- Every pattern has a traced text. -/
theorem exists_mem_tracedLanguageOf (tokens : List Token) : ∃ w, w ∈ tracedLanguageOf tokens := by
  obtain ⟨v, hv⟩ := exists_mem_languageOf tokens
  rw [← map_tracedLanguageOf] at hv
  obtain ⟨w, hw, -⟩ := hv
  exact ⟨w, hw⟩

/-! ## Characters that are accepted -/

/-- A pattern has a text with a character in it that is written for a leaf that accepts it, with
nothing before it but what is written for literals. -/
def Reaches (c : Char) (tokens : List Token) : Prop :=
  ∃ u l w, u ++ (l, c) :: w ∈ tracedLanguageOf tokens ∧ (∀ x ∈ u, x.1.isLiteral = true) ∧
    l.accepts c = true

variable {c : Char} {l : Leaf} {q : Quantifier} {s : Span} {tokens body ts : List Token}

/-- A character that a leaf accepts is a traced text of it, whatever its quantifier. -/
theorem singleton_mem_tracedLanguage (hl : l.accepts c = true) :
    [(l, c)] ∈ (leaf l q s).tracedLanguage := by
  rw [tracedLanguage]
  exact Quantifier.mem_occurring_of_mem q ⟨c, hl, rfl⟩

/-- A pattern reaches the characters that its first leaf accepts. -/
theorem Reaches.of_leaf (hl : l.accepts c = true) : Reaches c (leaf l q s :: ts) := by
  obtain ⟨w, hw⟩ := exists_mem_tracedLanguageOf ts
  refine ⟨[], l, w, ?_, by simp, hl⟩
  rw [tracedLanguageOf]
  exact Language.mem_mul.2 ⟨_, singleton_mem_tracedLanguage hl, w, hw, rfl⟩

/-- A literal is written before what the tokens after it reach. -/
theorem Reaches.of_literal {d : Char} (h : Reaches c ts) :
    Reaches c (leaf (.literal d) q s :: ts) := by
  obtain ⟨u, l, w, hmem, hliteral, hl⟩ := h
  refine ⟨(.literal d, d) :: u, l, w, ?_, List.forall_mem_cons.2 ⟨rfl, hliteral⟩, hl⟩
  have hd : (Leaf.literal d).accepts d = true := beq_self_eq_true d
  rw [tracedLanguageOf]
  exact Language.mem_mul.2 ⟨_, singleton_mem_tracedLanguage hd, _, hmem, rfl⟩

/-- What the body of a group reaches, one occurrence of the group does. -/
theorem Reaches.of_group (h : Reaches c body) : Reaches c (group body q s :: ts) := by
  obtain ⟨u, l, w, hmem, hliteral, hl⟩ := h
  obtain ⟨v, hv⟩ := exists_mem_tracedLanguageOf ts
  refine ⟨u, l, w ++ v, ?_, hliteral, hl⟩
  have hgroup : u ++ (l, c) :: w ∈ (group body q s).tracedLanguage := by
    rw [tracedLanguage]
    exact Quantifier.mem_occurring_of_mem q hmem
  rw [tracedLanguageOf]
  exact Language.mem_mul.2 ⟨_, hgroup, v, hv, by simp⟩

/-- A class that accepts a character without discarding holds it. -/
theorem accepts_of_admission_class {k : CharClass}
    (h : admission false c (leaf (.ofClass k) q s :: ts) = .accepted) : k.accepts c = true := by
  rw [admission, admission?] at h
  cases hk : k.accepts c with
  | true => rfl
  | false => cases hq : q.canBeAbsent <;> simp [hk, hq] at h

/-- A group that accepts a character without discarding does so by its body. -/
theorem admission_body_of_group (h : admission false c (group body q s :: ts) = .accepted) :
    admission false c body = .accepted := by
  rw [admission, admission?] at h
  cases hverdict : admission false c body with
  | accepted => rfl
  | rejected => cases hq : q.canBeAbsent <;> simp [hverdict, hq] at h
  | deferred => cases hq : q.canBeAbsent <;> simp [hverdict, hq] at h

/-- A character that is accepted without discarding is reached, and is accepted with discarding as
well. -/
theorem reaches_of_accepted (h : admission false c tokens = .accepted) :
    Reaches c tokens ∧ admission true c tokens = .accepted := by
  induction tokens using groupInduction with
  | h tokens ih =>
    induction tokens with
    | nil => cases h
    | cons t ts ihts =>
      cases t with
      | leaf l q s =>
        cases l with
        | ofClass k =>
          have hk := accepts_of_admission_class h
          refine ⟨.of_leaf hk, ?_⟩
          rw [admission, admission?, if_pos hk]
        | literal d =>
          by_cases hd : d = c
          · refine ⟨.of_leaf (beq_iff_eq.2 hd), ?_⟩
            rw [admission, admission?, if_pos hd]
          · rw [admission_literal hd] at h ⊢
            obtain ⟨hreaches, haccepted⟩ :=
              ihts (fun body q s hmem => ih body q s (List.mem_cons_of_mem _ hmem)) h
            exact ⟨hreaches.of_literal, haccepted⟩
      | group body q s =>
        obtain ⟨hreaches, haccepted⟩ := ih body q s List.mem_cons_self (admission_body_of_group h)
        refine ⟨hreaches.of_group, ?_⟩
        rw [admission, admission?, haccepted]

end Token

/-- A character that a mask accepts at a place without discarding is in a text of the tokens from
there on, where it is written for a leaf that accepts it, after literals only. With discarding it is
accepted as well. -/
theorem Mask.exists_traced_of_accepted (m : Mask) (place : Nat) (c : Char)
    (haccepted : InputMask.admission false c (m.tokens.drop place) = .accepted) :
    (∃ u l w, u ++ (l, c) :: w ∈ Token.tracedLanguageOf (m.tokens.drop place) ∧
      u.map Prod.snd ++ c :: w.map Prod.snd ∈ Token.languageOf (m.tokens.drop place) ∧
        (∀ x ∈ u, x.1.isLiteral = true) ∧ l.accepts c = true) ∧
      InputMask.admission true c (m.tokens.drop place) = .accepted := by
  obtain ⟨⟨u, l, w, hmem, hliteral, hl⟩, hdiscarding⟩ := Token.reaches_of_accepted haccepted
  refine ⟨⟨u, l, w, hmem, ?_, hliteral, hl⟩, hdiscarding⟩
  rw [← Token.map_tracedLanguageOf]
  exact ⟨_, hmem, by simp⟩

/-- In a group in a group that repeats, after an optional literal and one that is not the
character. -/
theorem Mask.exists_traced_of_accepted_nested :
    ∃ m, Mask.ofSource "d-?((a*.x)!)+".toList = .ok m ∧
      InputMask.admission false 'b' (m.tokens.drop 1) = .accepted ∧
        (∃ u l w, u ++ (l, 'b') :: w ∈ Token.tracedLanguageOf (m.tokens.drop 1) ∧
          u.map Prod.snd ++ 'b' :: w.map Prod.snd ∈ Token.languageOf (m.tokens.drop 1) ∧
            (∀ x ∈ u, x.1.isLiteral = true) ∧ l.accepts 'b' = true) ∧
          InputMask.admission true 'b' (m.tokens.drop 1) = .accepted := by
  obtain ⟨m, hm, haccepted⟩ := Mask.exists_of_ofSource
    (show (Mask.ofSource "d-?((a*.x)!)+".toList).toOption.any
      (fun m => decide (InputMask.admission false 'b' (m.tokens.drop 1) = .accepted)) = true by
        decide +kernel)
  replace haccepted := of_decide_eq_true haccepted
  obtain ⟨htraced, hdiscarding⟩ := Mask.exists_traced_of_accepted m 1 'b' haccepted
  exact ⟨m, hm, haccepted, htraced, hdiscarding⟩

end InputMask

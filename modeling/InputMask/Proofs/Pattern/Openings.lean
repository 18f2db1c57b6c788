import InputMask.Proofs.HooklessMask
import InputMask.Proofs.Pattern.Unambiguous

/-!
# The characters that a text can start with

`OpensWith` says that a language has a text that starts with a character. For a pattern this goes by
its first tokens (`Token.opensWith_cons`), and `admission` tries to tell it from them without
reading any text. Its answers keep to the language where no group that is needed hides a way around
itself: `Token.Forthright` asks that such a group has no empty text and, where a deferral ends the
search, that its body does not start with a class or a group that may be left out. `not_opensWith`
then says that a character which is not accepted starts no text, unless the answer was left open.
-/

set_option autoImplicit false

namespace InputMask

/-- Whether some text of a language starts with a character. -/
def OpensWith (L : Language Char) (c : Char) : Prop := ∃ w, c :: w ∈ L

variable {L M : Language Char} {c : Char} {q : Quantifier} {discards : Bool}

/-- A text in two parts starts as its first part, or, if this is empty, as its second. -/
theorem OpensWith.of_mul (h : OpensWith (L * M) c) :
    OpensWith L c ∨ [] ∈ L ∧ OpensWith M c := by
  obtain ⟨w, hw⟩ := h
  obtain ⟨u, hu, v, hv, huv⟩ := Language.mem_mul.1 hw
  cases u with
  | nil =>
    right
    have hcv : v = c :: w := huv
    exact ⟨hu, w, hcv ▸ hv⟩
  | cons b u =>
    left
    obtain ⟨rfl, -⟩ := List.cons.inj huv
    exact ⟨u, hu⟩

/-- A text of a language over and over starts as a text of the language. -/
theorem OpensWith.of_kstar (h : OpensWith (KStar.kstar L) c) : OpensWith L c := by
  obtain ⟨w, hw⟩ := h
  obtain ⟨parts, hparts, hmem⟩ := Language.mem_kstar_iff_exists_nonempty.1 hw
  cases parts with
  | nil => cases hparts
  | cons part parts =>
    obtain ⟨hpart, hne⟩ := hmem part List.mem_cons_self
    obtain ⟨b, u, rfl⟩ := List.exists_cons_of_ne_nil hne
    obtain ⟨rfl, -⟩ := List.cons.inj hparts
    exact ⟨u, hpart⟩

/-- A quantifier starts no text that an occurrence does not start. -/
theorem OpensWith.of_quantifier (h : OpensWith (q.language L) c) : OpensWith L c := by
  cases q with
  | once => exact h
  | required => exact h
  | optional =>
    obtain ⟨w, hw⟩ := h
    obtain hnil | hw := Quantifier.mem_language_optional.1 hw
    · cases hnil
    · exact ⟨w, hw⟩
  | zeroOrMore => exact h.of_kstar
  | oneOrMore =>
    obtain hL | ⟨-, hstar⟩ := h.of_mul
    · exact hL
    · exact hstar.of_kstar

/-- The texts of a leaf start with the characters that it accepts. -/
theorem Leaf.opensWith_iff {l : Leaf} : OpensWith l.language c ↔ l.accepts c = true := by
  constructor
  · rintro ⟨w, b, hb, hw⟩
    obtain ⟨rfl, -⟩ := List.cons.inj hw
    exact hb
  · intro hl
    exact ⟨[], c, hl, rfl⟩

namespace Token

/-- A pattern without tokens has no text that starts with a character. -/
theorem not_opensWith_nil : ¬OpensWith (languageOf []) c := by
  rintro ⟨w, hw⟩
  have hnil : c :: w = [] := mem_languageOf_nil.1 hw
  cases hnil

/-- A pattern whose first token starts no text with a character starts one only past that token. -/
theorem not_opensWith_cons {t : Token} {ts : List Token} (ht : ¬OpensWith t.language c)
    (hts : [] ∈ t.language → ¬OpensWith (languageOf ts) c) :
    ¬OpensWith (languageOf (t :: ts)) c := by
  intro h
  obtain h | ⟨hnil, h⟩ := OpensWith.of_mul h
  · exact ht h
  · exact hts hnil h

/-! ## Groups that hide no way around themselves -/

/-- Whether a token is a literal. -/
def isLiteral : Token → Bool
  | leaf l _ _ => l.isLiteral
  | group .. => false

/-- Whether the first class or group of some tokens, if there is one, may not be left out. -/
def Firm (tokens : List Token) : Prop :=
  ∀ t ∈ tokens.find? (fun t => !t.isLiteral), t.quantifier.canBeAbsent = false

mutual

/-- Whether every group in a token that may not be left out, at any depth, has no empty text and,
unless characters are discarded, a firm body. -/
def Forthright (discards : Bool) : Token → Prop
  | leaf .. => True
  | group body q _ =>
    ForthrightOf discards body ∧
      (q.canBeAbsent = true ∨ [] ∉ languageOf body ∧ (discards = true ∨ Firm body))

/-- Whether all of some tokens are forthright. -/
def ForthrightOf (discards : Bool) : List Token → Prop
  | [] => True
  | t :: ts => Forthright discards t ∧ ForthrightOf discards ts

end

/-- Whether a pattern is firm can be decided. -/
instance (tokens : List Token) : Decidable (Firm tokens) :=
  inferInstanceAs (Decidable (∀ t ∈ tokens.find? _, t.quantifier.canBeAbsent = false))

mutual

/-- Whether a token is forthright can be decided. -/
def decidableForthright (discards : Bool) : (t : Token) → Decidable (t.Forthright discards)
  | leaf .. => isTrue trivial
  | group body q _ =>
    have := decidableForthrightOf discards body
    decidable_of_iff (ForthrightOf discards body ∧
      (q.canBeAbsent = true ∨ nullableOf body = false ∧ (discards = true ∨ Firm body))) <| by
        rw [Forthright, ← nullableOf_iff, Bool.not_eq_true]

/-- Whether some tokens are forthright can be decided. -/
def decidableForthrightOf (discards : Bool) :
    (tokens : List Token) → Decidable (ForthrightOf discards tokens)
  | [] => isTrue trivial
  | t :: ts =>
    have := decidableForthright discards t
    have := decidableForthrightOf discards ts
    inferInstanceAs (Decidable (Forthright discards t ∧ ForthrightOf discards ts))

end

/-- Whether a pattern is forthright can be decided. -/
instance (discards : Bool) : DecidablePred (ForthrightOf discards) := decidableForthrightOf discards

/-! ## What is not accepted starts no text -/

/-- The search for a character passes a literal that is another one. -/
theorem admission_literal {b : Char} {s : Span} {ts : List Token} (hb : b ≠ c) :
    admission discards c (leaf (.literal b) q s :: ts) = admission discards c ts := by
  rw [admission, admission?, if_neg hb]

/-- A search for a character that no deferral has ended: it was rejected, or nothing on the way can
end a search so. -/
def Settled (discards : Bool) (c : Char) (tokens : List Token) : Prop :=
  discards = true ∨ Firm tokens ∨ admission discards c tokens = .rejected

/-- A leaf, however often, starts no text with a character that it does not accept. -/
theorem not_opensWith_leaf {l : Leaf} {s : Span} (hl : l.accepts c = false) :
    ¬OpensWith (leaf l q s).language c := by
  intro h
  rw [language] at h
  have hc : l.accepts c = true := Leaf.opensWith_iff.1 h.of_quantifier
  rw [hl] at hc
  cases hc

/-- Where a token defers and characters are not discarded, the search has ended there. -/
theorem not_settled {t : Token} {ts : List Token} (hliteral : t.isLiteral = false)
    (habsent : t.quantifier.canBeAbsent = true)
    (hdeferred : admission false c (t :: ts) = .deferred) : ¬Settled false c (t :: ts) := by
  rintro (h | h | h)
  · cases h
  · have hfirst : (t :: ts).find? (fun t => !t.isLiteral) = some t := by
      simp [hliteral]
    have hneeded : t.quantifier.canBeAbsent = false := h t hfirst
    rw [habsent] at hneeded
    cases hneeded
  · rw [hdeferred] at h
    cases h

section Searching

variable {ts : List Token} {s : Span}
  (hts : Settled discards c ts → admission discards c ts ≠ .accepted →
    ¬OpensWith (languageOf ts) c)

include hts

/-- A literal that is not the character leaves it to the tokens after it. -/
theorem not_opensWith_literal {d : Char}
    (hsettled : Settled discards c (leaf (.literal d) q s :: ts))
    (hnot : admission discards c (leaf (.literal d) q s :: ts) ≠ .accepted) :
    ¬OpensWith (languageOf (leaf (.literal d) q s :: ts)) c := by
  have hd : d ≠ c := by
    rintro rfl
    rw [admission, admission?, if_pos rfl] at hnot
    exact hnot rfl
  have hadmission : admission discards c (leaf (.literal d) q s :: ts) =
      admission discards c ts := admission_literal hd
  have hfirm : Firm (leaf (.literal d) q s :: ts) = Firm ts := by
    simp [Firm, isLiteral, Leaf.isLiteral]
  rw [Settled, hfirm, hadmission] at hsettled
  rw [hadmission] at hnot
  exact not_opensWith_cons (not_opensWith_leaf (beq_false_of_ne hd)) fun _ => hts hsettled hnot

/-- A class that does not hold the character is needed, or leaves it to the tokens after it. -/
theorem not_opensWith_class {k : CharClass}
    (hsettled : Settled discards c (leaf (.ofClass k) q s :: ts))
    (hnot : admission discards c (leaf (.ofClass k) q s :: ts) ≠ .accepted) :
    ¬OpensWith (languageOf (leaf (.ofClass k) q s :: ts)) c := by
  have hk : k.accepts c = false := by
    rw [← Bool.not_eq_true]
    intro hk
    rw [admission, admission?, if_pos hk] at hnot
    exact hnot rfl
  refine not_opensWith_cons (not_opensWith_leaf hk) fun hnil => ?_
  have habsent : q.canBeAbsent = true := by
    rw [language, Quantifier.nil_mem_language_iff] at hnil
    simpa [Leaf.mem_language] using hnil
  cases discards with
  | false =>
    have hdeferred : admission false c (leaf (.ofClass k) q s :: ts) = .deferred := by
      simp [admission, admission?, hk, habsent]
    exact absurd hsettled (not_settled rfl habsent hdeferred)
  | true =>
    have hadmission : admission true c (leaf (.ofClass k) q s :: ts) = admission true c ts := by
      simp [admission, admission?, hk]
    rw [hadmission] at hnot
    exact hts (.inl rfl) hnot

/-- A group whose body does not accept the character is needed, and its body takes something, or
leaves it to the tokens after it. -/
theorem not_opensWith_group {body : List Token}
    (hforthright : Forthright discards (group body q s))
    (hbody : Settled discards c body → admission discards c body ≠ .accepted →
      ¬OpensWith (languageOf body) c)
    (hsettled : Settled discards c (group body q s :: ts))
    (hnot : admission discards c (group body q s :: ts) ≠ .accepted) :
    ¬OpensWith (languageOf (group body q s :: ts)) c := by
  have hverdict : admission discards c body ≠ .accepted := by
    intro haccepted
    rw [admission, admission?, haccepted] at hnot
    exact hnot rfl
  have hgroup : Settled discards c body → ¬OpensWith (group body q s).language c := by
    intro hsettled h
    rw [language] at h
    exact hbody hsettled hverdict h.of_quantifier
  cases habsent : q.canBeAbsent with
  | true =>
    have hadmission : admission discards c (group body q s :: ts) =
        if discards then admission discards c ts else .deferred := by
      rw [admission, admission?, habsent]
      cases h : admission discards c body with
      | accepted => exact absurd h hverdict
      | rejected => rfl
      | deferred => rfl
    -- without discarding, the search would have been deferred at the group
    cases discards with
    | false => exact absurd hsettled (not_settled rfl habsent hadmission)
    | true =>
      rw [hadmission] at hnot
      exact not_opensWith_cons (hgroup (.inl rfl)) fun _ => hts (.inl rfl) hnot
  | false =>
    obtain ⟨hnil, hfirm⟩ : [] ∉ languageOf body ∧ (discards = true ∨ Firm body) := by
      simpa [habsent] using hforthright.2
    refine not_opensWith_cons (hgroup (hfirm.imp_right .inl)) fun hempty => ?_
    rw [language, Quantifier.nil_mem_language_iff, habsent] at hempty
    exact absurd (hempty.resolve_left Bool.false_ne_true) hnil

end Searching

/-- With groups that are forthright, a character that a pattern does not accept starts none of its
texts, unless a deferral has ended the search for it. -/
theorem not_opensWith {tokens : List Token} (hforthright : ForthrightOf discards tokens)
    (hsettled : Settled discards c tokens) (hnot : admission discards c tokens ≠ .accepted) :
    ¬OpensWith (languageOf tokens) c := by
  induction tokens using groupInduction with
  | h tokens ih =>
    induction tokens with
    | nil => exact not_opensWith_nil
    | cons t ts ihts =>
      have hts : Settled discards c ts → admission discards c ts ≠ .accepted →
          ¬OpensWith (languageOf ts) c :=
        ihts (fun body q s hmem => ih body q s (List.mem_cons_of_mem _ hmem)) hforthright.2
      cases t with
      | leaf l q s =>
        cases l with
        | literal d => exact not_opensWith_literal hts hsettled hnot
        | ofClass k => exact not_opensWith_class hts hsettled hnot
      | group body q s =>
        have hbody := ih body q s List.mem_cons_self hforthright.1.1
        exact not_opensWith_group hts hforthright.1 hbody hsettled hnot

end Token

/-- A character that a mask rejects at a place starts no text of the tokens from there on, if among
these every group that may not be left out has no empty text and, where a deferral ends the search,
a firm body. -/
theorem Mask.not_mem_language_of_rejected (m : Mask) (place : Nat) (c : Char) (discards : Bool)
    (hforthright : Token.ForthrightOf discards (m.tokens.drop place))
    (hrejected : InputMask.admission discards c (m.tokens.drop place) = .rejected) :
    ∀ w ∈ Token.languageOf (m.tokens.drop place), w.head? ≠ some c := by
  intro w hw hhead
  have hnot : InputMask.admission discards c (m.tokens.drop place) ≠ .accepted := by
    rw [hrejected]
    exact Verdict.noConfusion
  refine Token.not_opensWith hforthright (.inr (.inr hrejected)) hnot ⟨w.tail, ?_⟩
  rwa [List.cons_head?_tail hhead]

/-- Past the literal, the needed group rejects the character that only the token after it takes. -/
theorem Mask.not_mem_language_of_rejected_grouped :
    ∃ m, Mask.ofSource "-a*((d/.)x?)!b".toList = .ok m ∧
      Token.ForthrightOf false (m.tokens.drop 1) ∧
        InputMask.admission false 'b' (m.tokens.drop 1) = .rejected ∧
          ∀ w ∈ Token.languageOf (m.tokens.drop 1), w.head? ≠ some 'b' := by
  obtain ⟨m, hm, htokens⟩ := Mask.exists_of_ofSource
    (show (Mask.ofSource "-a*((d/.)x?)!b".toList).toOption.any
      (fun m => decide (Token.ForthrightOf false (m.tokens.drop 1) ∧
        InputMask.admission false 'b' (m.tokens.drop 1) = .rejected)) = true by decide +kernel)
  obtain ⟨hforthright, hrejected⟩ := of_decide_eq_true htokens
  exact ⟨m, hm, hforthright, hrejected,
    Mask.not_mem_language_of_rejected m 1 'b' false hforthright hrejected⟩

/-- A group with an empty text makes a mask reject the character that its other texts start with. -/
theorem Mask.rejected_of_nullable_group :
    ∃ m, Mask.ofSource "(d?)x".toList = .ok m ∧
      (∀ discards, InputMask.admission discards 'x' (m.tokens.drop 0) = .rejected) ∧
        "x".toList ∈ Token.languageOf (m.tokens.drop 0) := by
  obtain ⟨m, hm, htokens⟩ := Mask.exists_of_ofSource
    (show (Mask.ofSource "(d?)x".toList).toOption.any (fun m => decide (m.tokens =
      [.group [.leaf (.ofClass .digit) .optional ⟨1, 3⟩] .once ⟨0, 4⟩,
        .leaf (.literal 'x') .once ⟨4, 5⟩])) = true by decide +kernel)
  replace htokens := of_decide_eq_true htokens
  refine ⟨m, hm, ?_, ?_⟩
  · rw [htokens]
    decide
  · have hbody : [] ∈ Token.languageOf [.leaf (.ofClass .digit) .optional ⟨1, 3⟩] :=
      (Token.nullableOf_iff _).1 rfl
    rw [htokens]
    refine Token.mem_languageOf_cons.2 ⟨[], ?_, ['x'], ?_, rfl⟩
    · rw [Token.language]
      exact Quantifier.nil_mem_language_iff.2 (.inr hbody)
    · exact Token.mem_languageOf_cons.2
        ⟨['x'], Token.singleton_mem_language rfl, [], Token.mem_languageOf_nil.2 rfl, rfl⟩

end InputMask

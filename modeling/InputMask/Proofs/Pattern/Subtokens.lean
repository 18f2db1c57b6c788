import InputMask.Pattern.Basic

/-!
# Tokens at any depth

The tokens of a pattern together with those in the bodies of its groups, in the order in which they
start. `Token.mem_subtokensOf_iff` reads off where one of them is: it is one of the pattern's own
tokens, or one of those in the body of a group. So what holds of every token of a pattern, however
deep, is a statement about a list, and where a property of single tokens can be decided, it can be
decided of all of them.
-/

set_option autoImplicit false

namespace InputMask

namespace Token

mutual

/-- A token and, if it is a group, all tokens in it. -/
def subtokens : Token → List Token
  | leaf l q s => [leaf l q s]
  | group body q s => group body q s :: subtokensOf body

/-- Some tokens and all tokens in the groups among them, at any depth. -/
def subtokensOf : List Token → List Token
  | [] => []
  | t :: ts => subtokens t ++ subtokensOf ts

end

variable {t u : Token} {tokens body : List Token} {q : Quantifier} {s : Span}

/-- A token within another is that one itself or within its body. -/
theorem mem_subtokens_iff :
    t ∈ subtokens u ↔ t = u ∨ ∃ body q s, u = group body q s ∧ t ∈ subtokensOf body := by
  cases u with
  | leaf l q s => simp [subtokens]
  | group body q s => simp [subtokens]

/-- A token at any depth is one of the tokens themselves, or is in the body of a group among
them. -/
theorem mem_subtokensOf_iff :
    t ∈ subtokensOf tokens ↔
      t ∈ tokens ∨ ∃ body q s, group body q s ∈ tokens ∧ t ∈ subtokensOf body := by
  induction tokens with
  | nil => simp [subtokensOf]
  | cons u us ih =>
    rw [subtokensOf, List.mem_append, ih, mem_subtokens_iff]
    constructor
    · rintro ((rfl | ⟨body, q, s, rfl, ht⟩) | ht | ⟨body, q, s, hgroup, ht⟩)
      · exact .inl List.mem_cons_self
      · exact .inr ⟨body, q, s, List.mem_cons_self, ht⟩
      · exact .inl (List.mem_cons_of_mem u ht)
      · exact .inr ⟨body, q, s, List.mem_cons_of_mem u hgroup, ht⟩
    · rintro (ht | ⟨body, q, s, hgroup, ht⟩)
      · exact (List.mem_cons.1 ht).imp .inl .inl
      · obtain hu | hgroup := List.mem_cons.1 hgroup
        · exact .inl (.inr ⟨body, q, s, hu.symm, ht⟩)
        · exact .inr (.inr ⟨body, q, s, hgroup, ht⟩)

/-- The tokens of a pattern are among those at any depth. -/
theorem mem_subtokensOf (ht : t ∈ tokens) : t ∈ subtokensOf tokens :=
  mem_subtokensOf_iff.2 (.inl ht)

/-- What is within the body of a group is within the pattern of the group. -/
theorem mem_subtokensOf_of_group (hgroup : group body q s ∈ tokens) (ht : t ∈ subtokensOf body) :
    t ∈ subtokensOf tokens :=
  mem_subtokensOf_iff.2 (.inr ⟨body, q, s, hgroup, ht⟩)

/-! ## Groups that occur once -/

/-- Whether every group among some tokens, at any depth, occurs exactly once. -/
def SingleGroups (tokens : List Token) : Prop :=
  ∀ t ∈ subtokensOf tokens, t.isGroup = true → t.quantifier = .once ∨ t.quantifier = .required

/-- Whether the groups of a pattern occur once can be decided. -/
instance : DecidablePred SingleGroups := fun tokens =>
  inferInstanceAs (Decidable (∀ t ∈ subtokensOf tokens, _))

/-- Where the groups occur once, the quantifier of each of them says so. -/
theorem SingleGroups.quantifier (h : SingleGroups tokens) (hgroup : group body q s ∈ tokens) :
    q = .once ∨ q = .required :=
  h (group body q s) (mem_subtokensOf hgroup) rfl

/-- If the groups of a pattern occur once, so do those in the body of one. -/
theorem SingleGroups.of_group (h : SingleGroups tokens) (hgroup : group body q s ∈ tokens) :
    SingleGroups body :=
  fun t ht => h t (mem_subtokensOf_of_group hgroup ht)

end Token

end InputMask

import InputMask.Pattern.Language

/-!
# The leaves of a pattern

A pattern's leaves, listed from left to right with their quantifiers, the parentheses of groups
dropped.
-/

set_option autoImplicit false

namespace InputMask

/-- From the place of an element on, a list starts with it. -/
theorem drop_eq_cons {α : Type} {xs : List α} {x : α} {i : Nat} (h : xs[i]? = some x) :
    xs.drop i = x :: xs.drop (i + 1) := by
  rw [List.drop_eq_getElem?_toList_append, h]
  rfl

namespace Token

mutual

/-- The leaves of a token, with their quantifiers. -/
def leaves : Token → List (Leaf × Quantifier)
  | leaf l q _ => [(l, q)]
  | group body _ _ => leavesOf body

/-- The leaves of some tokens, with their quantifiers. -/
def leavesOf : List Token → List (Leaf × Quantifier)
  | [] => []
  | t :: ts => leaves t ++ leavesOf ts

end

/-- The leaves of a token are among those of a list that it is in. -/
theorem leaves_subset {t : Token} {tokens : List Token} (h : t ∈ tokens) :
    leaves t ⊆ leavesOf tokens := by
  induction tokens with
  | nil => cases h
  | cons u us ih =>
    rw [leavesOf]
    obtain rfl | h := List.mem_cons.1 h
    · exact List.subset_append_left _ _
    · exact List.subset_append_of_subset_right _ (ih h)

/-- The leaves of two patterns one after the other are those of the first, then those of the
second. -/
theorem leavesOf_append (xs ys : List Token) :
    leavesOf (xs ++ ys) = leavesOf xs ++ leavesOf ys := by
  induction xs with
  | nil => rfl
  | cons t ts ih => rw [List.cons_append, leavesOf, leavesOf, ih, List.append_assoc]

/-- From a token on, its leaves come first. -/
theorem leavesOf_drop {tokens : List Token} {t : Token} {i : Nat} (h : tokens[i]? = some t) :
    leavesOf (tokens.drop i) = leaves t ++ leavesOf (tokens.drop (i + 1)) := by
  rw [drop_eq_cons h, leavesOf]

end Token

end InputMask

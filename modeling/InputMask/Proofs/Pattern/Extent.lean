import Mathlib.Algebra.Ring.Parity
import Mathlib.Data.List.DropRight
import Mathlib.Order.Bounds.Defs
import InputMask.Proofs.Pattern.Symbols

/-!
# The extent of a group, by counting

The search for the end of a group carries a flag and a depth along. Both say something of the text
that was passed: the flag is set if this text ends with an odd number of escape marks (`Escapes`),
and the depth is by how many its opening parentheses outnumber the closing ones, escaped ones not
counted (`unescaped`). So a parenthesis closes the group exactly if it is the first that stands
where the text before it `Closes` (`groupBody?_eq_some_iff`), and no group is found exactly if the
text is `Unclosed` (`groupBody?_eq_none_iff`).

Seen from a position in the whole text, the width of a group is what leads to the first place after
the position that closes it (`widthOfGroup_eq_iff`).
-/

set_option autoImplicit false

namespace InputMask

namespace Pattern

variable {c d : Char} {front rest inside body after cs : List Char} {depth : Nat}

/-! ## Escape marks at the end of a text -/

/-- Whether a text makes a character that follows it an escaped one: it ends with an odd number of
escape marks in a row. -/
def Escapes (front : List Char) : Prop := Odd (front.rtakeWhile (· == escapeMark)).length

/-- Whether a text escapes what follows it can be decided by counting. -/
instance (front : List Char) : Decidable (Escapes front) :=
  inferInstanceAs (Decidable (Odd _))

/-- Where nothing stands before a character, it is not escaped. -/
theorem not_escapes_nil : ¬Escapes [] := by decide

/-- An escape mark at the end of a text escapes what follows unless it is escaped itself, and no
other character escapes anything. -/
theorem escapes_concat : Escapes (front ++ [c]) ↔ c = escapeMark ∧ ¬Escapes front := by
  unfold Escapes
  by_cases hc : c = escapeMark
  · have hmark : (c == escapeMark) = true := beq_iff_eq.2 hc
    rw [List.rtakeWhile_concat_pos _ _ c hmark, List.length_append, List.length_singleton,
      Nat.odd_add_one]
    simp only [hc, true_and]
  · have hother : ¬(c == escapeMark) = true := fun h => hc (beq_iff_eq.1 h)
    rw [List.rtakeWhile_concat_neg _ _ c hother]
    simp [hc]

/-- Of the single characters, the escape mark alone escapes what follows. -/
theorem escapes_singleton : Escapes [c] ↔ c = escapeMark := by
  simpa [not_escapes_nil] using @escapes_concat c []

/-- What was passed before makes no difference to the escape marks that come later, if it leaves
nothing escaped. -/
theorem escapes_append (h : ¬Escapes front) : Escapes (front ++ rest) ↔ Escapes rest := by
  induction rest using List.reverseRecOn with
  | nil => simpa [not_escapes_nil] using h
  | append_singleton rest c ih => rw [← List.append_assoc, escapes_concat, escapes_concat, ih]

/-- After a character that is no escape mark, escaping starts anew. -/
theorem escapes_append_cons (hc : c ≠ escapeMark) :
    Escapes (front ++ c :: rest) ↔ Escapes rest := by
  have hpassed : ¬Escapes (front ++ [c]) := fun h => hc (escapes_concat.1 h).1
  rw [List.append_cons, escapes_append hpassed]

/-! ## Parentheses that are not escaped -/

/-- How often a character stands in a text without being escaped. -/
def unescaped (c : Char) (cs : List Char) : Nat :=
  (List.range cs.length).countP fun i => cs[i]? = some c ∧ ¬Escapes (cs.take i)

/-- One more character counts if it is the one in question and is not escaped. -/
theorem unescaped_concat (c d : Char) (cs : List Char) :
    unescaped c (cs ++ [d]) = unescaped c cs + if d = c ∧ ¬Escapes cs then 1 else 0 := by
  have hbefore : ∀ i ∈ List.range cs.length,
      (cs ++ [d])[i]? = cs[i]? ∧ (cs ++ [d]).take i = cs.take i := by
    intro i hi
    have hlt := List.mem_range.1 hi
    exact ⟨List.getElem?_append_left hlt, List.take_append_of_le_length hlt.le⟩
  unfold unescaped
  rw [List.length_append, List.length_singleton, List.range_succ, List.countP_append,
    List.countP_singleton]
  congr 1
  · refine List.countP_congr fun i hi => ?_
    rw [(hbefore i hi).1, (hbefore i hi).2]
  · simp

/-- If a text leaves nothing escaped, what follows it is counted as it is by itself. -/
theorem unescaped_append (h : ¬Escapes front) :
    unescaped c (front ++ rest) = unescaped c front + unescaped c rest := by
  induction rest using List.reverseRecOn with
  | nil => simp [unescaped]
  | append_singleton rest d ih =>
    rw [← List.append_assoc, unescaped_concat, unescaped_concat, ih, Nat.add_assoc]
    simp only [escapes_append h]

/-! ## The parenthesis that closes a group -/

/-- Whether a closing parenthesis right after a text, which follows an opening one, is what closes
that one: it is not escaped, and every group that is opened in the text is closed in it. -/
def Closes (inside : List Char) : Prop :=
  ¬Escapes inside ∧ unescaped '(' inside = unescaped ')' inside

/-- Whether no parenthesis in a text closes a group that is open before it. -/
def Unclosed (cs : List Char) : Prop :=
  ∀ inside after, cs = inside ++ ')' :: after → ¬Closes inside

/-- The empty text closes no group. -/
theorem unclosed_nil : Unclosed [] := by
  intro inside after h
  cases inside <;> cases h

/-- If a text closes no group, no start of it does. -/
theorem Unclosed.of_append (h : Unclosed (front ++ rest)) : Unclosed front := by
  rintro inside after rfl
  exact h inside (after ++ rest) (by simp)

/-- One more character keeps a group open unless it is a parenthesis that closes it. -/
theorem unclosed_concat (h : Unclosed front) (hc : c = ')' → ¬Closes front) :
    Unclosed (front ++ [c]) := by
  intro inside after heq
  obtain rfl | ⟨after, d, rfl⟩ := after.eq_nil_or_concat'
  · obtain ⟨rfl, hd⟩ := List.append_inj' heq rfl
    exact hc (List.singleton_inj.1 hd)
  · rw [← List.cons_append, ← List.append_assoc] at heq
    exact h inside after (List.append_inj' heq rfl).1

/-- A text is unclosed, or there is a first parenthesis in it that closes the group. -/
theorem unclosed_or_exists_first (cs : List Char) :
    Unclosed cs ∨ ∃ body rest, cs = body ++ ')' :: rest ∧ Closes body ∧ Unclosed body := by
  induction cs using List.reverseRecOn with
  | nil => exact .inl unclosed_nil
  | append_singleton cs c ih =>
    obtain h | ⟨body, rest, rfl, hfirst⟩ := ih
    · by_cases hclose : c = ')' ∧ Closes cs
      · obtain ⟨rfl, hcs⟩ := hclose
        exact .inr ⟨cs, [], rfl, hcs, h⟩
      · exact .inl (unclosed_concat h fun hc hcs => hclose ⟨hc, hcs⟩)
    · exact .inr ⟨body, rest ++ [c], by simp, hfirst⟩

/-- The search goes on after one more character with the flag and the depth of the text that ends
with it, unless this character closes the group. -/
theorem exists_depth_concat (hdepth : depth + unescaped ')' front = unescaped '(' front)
    (hc : c = ')' → ¬Closes front) :
    ∃ depth', depth' + unescaped ')' (front ++ [c]) = unescaped '(' (front ++ [c]) ∧
      ∀ rest, splitBody? (decide (Escapes front)) depth (c :: rest) =
        (splitBody? (decide (Escapes (front ++ [c]))) depth' rest).map (inFront [c]) := by
  simp only [unescaped_concat, escapes_concat]
  by_cases hescaped : Escapes front
  · refine ⟨depth, by simpa [hescaped] using hdepth, fun rest => ?_⟩
    simp only [hescaped, not_true, and_false, decide_true, decide_false]
    rfl
  by_cases hopen : c = '('
  · subst hopen
    refine ⟨depth + 1, by simp [hescaped]; omega, fun rest => ?_⟩
    simp only [hescaped, decide_false]
    exact splitBody?_open rest
  by_cases hclose : c = ')'
  · subst hclose
    -- a group is open within the text, or the parenthesis would close the one before it
    obtain _ | depth := depth
    · exact absurd ⟨hescaped, by omega⟩ (hc rfl)
    · refine ⟨depth, by simp [hescaped]; omega, fun rest => ?_⟩
      simp only [hescaped, decide_false]
      exact splitBody?_close_succ rest
  · refine ⟨depth, by simpa [hopen, hclose] using hdepth, fun rest => ?_⟩
    simp only [hescaped, not_false_eq_true, and_true, decide_false, splitBody?, if_neg hopen,
      if_neg hclose]
    rfl

/-- The flag and the depth with which the search goes on after a text in which the group is not
closed. -/
theorem exists_depth (h : Unclosed front) :
    ∃ depth, depth + unescaped ')' front = unescaped '(' front ∧
      ∀ rest, groupBody? (front ++ rest) =
        (splitBody? (decide (Escapes front)) depth rest).map (inFront front) := by
  induction front using List.reverseRecOn with
  | nil =>
    refine ⟨0, rfl, fun rest => ?_⟩
    exact Option.map_id'.symm
  | append_singleton front c ih =>
    obtain ⟨depth, hdepth, hsplit⟩ := ih h.of_append
    have hopen : c = ')' → ¬Closes front := by
      rintro rfl
      exact h front [] rfl
    obtain ⟨depth', hdepth', hone⟩ := exists_depth_concat hdepth hopen
    refine ⟨depth', hdepth', fun rest => ?_⟩
    rw [List.append_assoc, List.singleton_append, hsplit, hone, Option.map_map]
    exact congrArg (Option.map · _) (funext fun parts => inFront_inFront front [c] parts)

/-- Before a group is closed, no more parentheses close than open. -/
theorem Unclosed.unescaped_le (h : Unclosed front) : unescaped ')' front ≤ unescaped '(' front := by
  obtain ⟨depth, hdepth, -⟩ := exists_depth h
  omega

/-- Where a group is not closed, no body is found. -/
theorem Unclosed.groupBody?_eq_none (h : Unclosed cs) : groupBody? cs = none := by
  obtain ⟨depth, -, hsplit⟩ := exists_depth h
  rw [← List.append_nil cs, hsplit]
  cases decide (Escapes cs) <;> rfl

/-- The body that is found ends at the first parenthesis that closes the group. -/
theorem groupBody?_of_closes (hcloses : Closes body) (h : Unclosed body) (rest : List Char) :
    groupBody? (body ++ ')' :: rest) = some (body, rest) := by
  obtain ⟨depth, hdepth, hsplit⟩ := exists_depth h
  obtain rfl : depth = 0 := by
    have hcounts := hcloses.2
    omega
  rw [hsplit, decide_eq_false hcloses.1, splitBody?_close_zero]
  simp [inFront]

/-- No group is found exactly if none of the parentheses would close it. -/
theorem groupBody?_eq_none_iff : groupBody? cs = none ↔ Unclosed cs := by
  refine ⟨fun h => ?_, Unclosed.groupBody?_eq_none⟩
  obtain hcs | ⟨body, rest, rfl, hcloses, hbody⟩ := unclosed_or_exists_first cs
  · exact hcs
  · rw [groupBody?_of_closes hcloses hbody] at h
    cases h

/-- The body of a group is what stands before the first parenthesis that closes it. -/
theorem groupBody?_eq_some_iff :
    groupBody? cs = some (body, rest) ↔ cs = body ++ ')' :: rest ∧ Closes body ∧ Unclosed body := by
  constructor
  · intro h
    obtain hcs | ⟨body', rest', rfl, hfirst⟩ := unclosed_or_exists_first cs
    · rw [hcs.groupBody?_eq_none] at h
      cases h
    · rw [groupBody?_of_closes hfirst.1 hfirst.2] at h
      cases h
      exact ⟨rfl, hfirst⟩
  · rintro ⟨rfl, hcloses, h⟩
    exact groupBody?_of_closes hcloses h rest

/-- An escaped parenthesis and an inner group do not close a group, and neither does what follows
two escape marks that belong together. -/
example : groupBody? "a/)(//)d)x".toList = some ("a/)(//)d".toList, "x".toList) := by decide

/-! ## The width of a group -/

/-- Whether a group that starts at a position of a text is closed at a place after it: a closing
parenthesis stands there, and with regard to the characters in between it closes the group. What
stands at the position itself makes no difference. -/
structure ClosesAt (text : List Char) (pos i : Nat) : Prop where
  after : pos < i
  parenthesis : text[i]? = some ')'
  closes : Closes (text.extract (pos + 1) i)

variable {text : List Char} {pos i width : Nat}

/-- Where a group is closed, seen from the text that follows its start. -/
theorem closesAt_iff :
    ClosesAt text pos i ↔ ∃ inside after, text.drop (pos + 1) = inside ++ ')' :: after ∧
      Closes inside ∧ pos + 1 + inside.length = i := by
  constructor
  · rintro ⟨hafter, hmark, hcloses⟩
    obtain ⟨k, rfl⟩ := Nat.exists_eq_add_of_le hafter
    have hk : (text.drop (pos + 1))[k]? = some ')' := by rw [List.getElem?_drop, hmark]
    obtain ⟨hlt, hget⟩ := List.getElem?_eq_some_iff.1 hk
    refine ⟨(text.drop (pos + 1)).take k, (text.drop (pos + 1)).drop (k + 1), ?_, ?_, ?_⟩
    · rw [← hget, List.getElem_cons_drop, List.take_append_drop]
    · rwa [List.extract_eq_take_drop, Nat.add_sub_cancel_left] at hcloses
    · rw [List.length_take_of_le hlt.le]
  · rintro ⟨inside, after, hdrop, hcloses, rfl⟩
    refine ⟨by omega, ?_, ?_⟩
    · rw [← List.getElem?_drop, hdrop, List.getElem?_append_right le_rfl, Nat.sub_self]
      rfl
    · rwa [List.extract_eq_take_drop, hdrop, Nat.add_sub_cancel_left, List.take_left]

/-- The place of the parenthesis that ends a group's body is the first that closes the group. -/
theorem isLeast_closesAt_iff :
    IsLeast {i | ClosesAt text pos i} i ↔ ∃ body rest,
      groupBody? (text.drop (pos + 1)) = some (body, rest) ∧ pos + 1 + body.length = i := by
  simp only [groupBody?_eq_some_iff]
  constructor
  · rintro ⟨hcloses, hfirst⟩
    obtain ⟨body, rest, hdrop, hbody, rfl⟩ := closesAt_iff.1 hcloses
    refine ⟨body, rest, ⟨hdrop, hbody, ?_⟩, rfl⟩
    rintro inside after rfl hinside
    have hle : pos + 1 + (inside ++ ')' :: after).length ≤ pos + 1 + inside.length :=
      hfirst (closesAt_iff.2 ⟨inside, after ++ ')' :: rest, by simp [hdrop], hinside, rfl⟩)
    rw [List.length_append, List.length_cons] at hle
    omega
  · rintro ⟨body, rest, ⟨hdrop, hbody, hunclosed⟩, rfl⟩
    refine ⟨closesAt_iff.2 ⟨body, rest, hdrop, hbody, rfl⟩, ?_⟩
    intro i hi
    obtain ⟨inside, after, hdrop', hinside, rfl⟩ := closesAt_iff.1 hi
    rw [hdrop] at hdrop'
    obtain ⟨more, rfl, -⟩ | ⟨more, rfl, hmore⟩ := List.append_eq_append_iff.1 hdrop'
    · simp
    · cases more with
      | nil => simp
      | cons c more =>
        obtain ⟨rfl, -⟩ := List.cons.inj hmore
        exact absurd hinside (hunclosed inside more rfl)

/-- A group is not closed in what follows its start exactly if no place closes it. -/
theorem unclosed_drop_iff : Unclosed (text.drop (pos + 1)) ↔ ∀ i, ¬ClosesAt text pos i := by
  constructor
  · intro h i hi
    obtain ⟨inside, after, hdrop, hinside, -⟩ := closesAt_iff.1 hi
    exact h inside after hdrop hinside
  · intro h inside after hdrop hinside
    exact h _ (closesAt_iff.2 ⟨inside, after, hdrop, hinside, rfl⟩)

/-- The width of a group is that of its body and of two parentheses. -/
theorem widthOfGroup_eq_ok_iff :
    widthOfGroup text pos = .ok width ↔ ∃ body rest,
      groupBody? (text.drop (pos + 1)) = some (body, rest) ∧ body.length + 2 = width := by
  unfold widthOfGroup
  cases groupBody? (text.drop (pos + 1)) with
  | none => simp
  | some parts => simp [Prod.ext_iff]

/-- A group has no width exactly if it is not closed, which is the only fault. -/
theorem widthOfGroup_eq_error_iff {fault : Fault} :
    widthOfGroup text pos = .error fault ↔
      fault = .groupNotClosed pos ∧ Unclosed (text.drop (pos + 1)) := by
  rw [← groupBody?_eq_none_iff]
  unfold widthOfGroup
  cases groupBody? (text.drop (pos + 1)) with
  | none => simp [eq_comm]
  | some parts => simp

/-- A group that starts at a position has a width exactly if it ends at the first place after the
position that closes it. If there is no such place, the group is not closed, and nothing else can be
wrong. -/
theorem widthOfGroup_eq_iff (text : List Char) (pos : Nat) :
    (∀ width, widthOfGroup text pos = .ok width ↔
      IsLeast {i | ClosesAt text pos i} (pos + width - 1)) ∧
      ∀ fault, widthOfGroup text pos = .error fault ↔
        fault = .groupNotClosed pos ∧ ∀ i, ¬ClosesAt text pos i := by
  constructor
  · intro width
    rw [widthOfGroup_eq_ok_iff, isLeast_closesAt_iff]
    refine exists₂_congr fun body rest => and_congr_right fun _ => ?_
    omega
  · intro fault
    rw [widthOfGroup_eq_error_iff, unclosed_drop_iff]

end Pattern

end InputMask

import InputMask.Proofs.Pattern.Symbols

/-!
# One pass over a pattern

Reading finds the end of a group first and then goes through its body again, once for each level.
`scan` goes through a text once, with no more than the number of groups that are open and whether a
mark may come next. What it finds between the parentheses of a group is what it would find there by
itself (`scan_group`), so a text can be read exactly if it passes the scan (`exists_read_iff_scan`).
-/

set_option autoImplicit false

namespace InputMask

namespace Pattern

variable {c : Char} {cs body rest : List Char} {limit depth : Nat} {markable : Bool}
  {reading : Reader}

/-- Whether a text is in order from a place on, where `depth` groups are open and a mark may come
next or not: every escape mark has a character after it, every mark has something to apply to, no
more than `limit` groups are open at a time, and none is open at the end. -/
def scan (limit : Nat) : Nat → Bool → List Char → Bool
  | depth, _, [] => depth == 0
  | depth, markable, c :: cs =>
    if c = escapeMark then
      match cs with
      | [] => false
      | _ :: rest => scan limit depth true rest
    else if c = '(' then decide (depth < limit) && scan limit (depth + 1) false cs
    else if c = ')' then scan limit (depth - 1) true cs
    else if Quantifier.isMark c then markable && scan limit depth false cs
    else scan limit depth true cs

/-! ## The scan by the first symbol -/

/-- The scan passes over an escaped character, and a mark may come next. -/
theorem scan_escape (c : Char) (cs : List Char) :
    scan limit depth markable (escapeMark :: c :: cs) = scan limit depth true cs := rfl

/-- An opening parenthesis goes one level deeper, if the limit allows it, and no mark may come
next. -/
theorem scan_open (cs : List Char) :
    scan limit depth markable ('(' :: cs) =
      (decide (depth < limit) && scan limit (depth + 1) false cs) := by
  rw [scan.eq_def]
  rfl

/-- A closing parenthesis goes back up by one level, and a mark may come next. -/
theorem scan_close (cs : List Char) :
    scan limit depth markable (')' :: cs) = scan limit (depth - 1) true cs := by
  rw [scan.eq_def]
  rfl

/-- A mark has to be one that may come, and no other may come next. -/
theorem scan_mark (hc : Quantifier.isMark c = true) (cs : List Char) :
    scan limit depth markable (c :: cs) = (markable && scan limit depth false cs) := by
  have hordinary := ordinary_of_isMark hc
  rw [scan.eq_def]
  simp only [if_neg hordinary.ne_escapeMark, if_neg hordinary.ne_open,
    if_neg hordinary.ne_close, if_pos hc]

/-- Any other character is passed over, and a mark may come next. -/
theorem scan_other (hordinary : Ordinary c) (hc : Quantifier.isMark c = false) (cs : List Char) :
    scan limit depth markable (c :: cs) = scan limit depth true cs := by
  rw [scan.eq_def]
  simp only [if_neg hordinary.ne_escapeMark, if_neg hordinary.ne_open,
    if_neg hordinary.ne_close, hc, Bool.false_eq_true, if_false]

/-- Where no mark comes next, it does not matter whether one may. -/
theorem scan_of_unmarked (h : Unmarked cs) :
    scan limit depth markable cs = scan limit depth false cs := by
  cases cs with
  | nil => rfl
  | cons c cs =>
    have hc : Quantifier.isMark c = false := h c rfl
    rw [scan.eq_def, scan.eq_def limit depth false]
    simp only [hc, Bool.false_eq_true, if_false]

/-- After a token, the scan passes over the mark that is read with it. -/
theorem scan_readQuantifier {q : Quantifier} (h : readQuantifier cs = .ok (q, rest)) :
    scan limit depth true cs = scan limit depth false rest := by
  obtain ⟨rfl, hrest⟩ := readQuantifier_eq_ok_iff.1 h
  cases hq : q.mark with
  | none => exact scan_of_unmarked (hrest (Quantifier.mark_eq_none_iff.1 hq))
  | some c =>
    have hc : Quantifier.isMark c = true := Quantifier.isMark_iff.2 ⟨q, hq⟩
    rw [Option.toList_some, List.singleton_append, scan_mark hc, Bool.true_and]

/-! ## The scan of a group -/

/-- Whether the body of a group and the text after the group each pass the scan, where a number of
inner groups are open at the start of the body and the group itself is one of `limit + 1` levels. -/
def scanParts (limit depth : Nat) (markable : Bool) (parts : List Char × List Char) : Bool :=
  scan limit depth markable parts.1 && scan (limit + 1) 0 true parts.2

section Parts

variable (parts : List Char × List Char)

/-- An opening parenthesis in a body goes one level deeper in the body. -/
theorem scanParts_open :
    scanParts limit depth markable (inFront ['('] parts) =
      (decide (depth < limit) && scanParts limit (depth + 1) false parts) := by
  simp only [scanParts, inFront_fst, inFront_snd, List.singleton_append, scan_open, Bool.and_assoc]

/-- A closing parenthesis in a body goes back up by one level in the body. -/
theorem scanParts_close :
    scanParts limit (depth + 1) markable (inFront [')'] parts) =
      scanParts limit depth true parts := by
  simp only [scanParts, inFront_fst, inFront_snd, List.singleton_append, scan_close,
    Nat.add_sub_cancel]

/-- A mark in a body has to be one that may come. -/
theorem scanParts_mark (hc : Quantifier.isMark c = true) :
    scanParts limit depth markable (inFront [c] parts) =
      (markable && scanParts limit depth false parts) := by
  simp only [scanParts, inFront_fst, inFront_snd, List.singleton_append, scan_mark hc,
    Bool.and_assoc]

/-- Any other character in a body is passed over. -/
theorem scanParts_other (hordinary : Ordinary c) (hc : Quantifier.isMark c = false) :
    scanParts limit depth markable (inFront [c] parts) = scanParts limit depth true parts := by
  simp only [scanParts, inFront_fst, inFront_snd, List.singleton_append, scan_other hordinary hc]

end Parts

/-- From inside a group, the scan up to the parenthesis that closes the group is one of the body by
itself, and then goes on outside. Where no parenthesis closes the group, it fails. -/
theorem scan_inside (cs : List Char) :
    scan (limit + 1) (depth + 1) markable cs =
      (splitBody? false depth cs).any (scanParts limit depth markable) := by
  induction depth, markable, cs using scan.induct with
  | case1 depth markable => rfl
  | case2 depth markable => rfl
  | case3 depth markable c cs ih =>
    rw [scan_escape, ih, splitBody?_escape, Option.any_map]
    rfl
  | case4 depth markable cs hescape ih =>
    -- there is room for the inner group within the body as there is for it within the whole
    have hroom : decide (depth + 1 < limit + 1) = decide (depth < limit) :=
      decide_eq_decide.2 Nat.succ_lt_succ_iff
    rw [scan_open, ih, splitBody?_open, Option.any_map, hroom]
    simp only [scanParts_open]
    cases splitBody? false (depth + 1) cs with
    | none => exact Bool.and_false _
    | some parts => rfl
  | case5 depth markable cs hescape hopen ih =>
    cases depth with
    | zero =>
      rw [scan_close, splitBody?_close_zero]
      rfl
    | succ depth =>
      rw [scan_close, splitBody?_close_succ, Option.any_map]
      simp only [scanParts_close]
      exact ih
  | case6 depth markable c cs hescape hopen hclose hc ih =>
    rw [scan_mark hc, ih, splitBody?_other ⟨hescape, hopen, hclose⟩, Option.any_map]
    simp only [scanParts_mark _ hc]
    cases splitBody? false depth cs with
    | none => exact Bool.and_false _
    | some parts => rfl
  | case7 depth markable c cs hescape hopen hclose hc ih =>
    have hordinary : Ordinary c := ⟨hescape, hopen, hclose⟩
    have hunmarked : Quantifier.isMark c = false := Bool.eq_false_iff.2 hc
    rw [scan_other hordinary hunmarked, ih, splitBody?_other hordinary, Option.any_map]
    simp only [scanParts_other _ hordinary hunmarked]

/-- Whether the body of a group passes the scan, where one of `limit` levels goes to the group. -/
def scanBody : Nat → List Char → Bool
  | 0, _ => false
  | limit + 1, body => scan limit 0 false body

/-- The scan of a text that starts with a group goes by the body of the group and by what follows
it. -/
theorem scan_group (h : groupBody? cs = some (body, rest)) :
    scan limit 0 markable ('(' :: cs) = (scanBody limit body && scan limit 0 true rest) := by
  cases limit with
  | zero => exact scan_open cs
  | succ limit =>
    have hinside : scan (limit + 1) 1 false cs = scanParts limit 0 false (body, rest) := by
      rw [scan_inside, show splitBody? false 0 cs = some (body, rest) from h, Option.any_some]
    rw [scan_open, hinside]
    exact Bool.true_and _

/-- The scan fails at a group that is not closed. -/
theorem scan_group_notClosed (h : groupBody? cs = none) :
    scan limit 0 markable ('(' :: cs) = false := by
  cases limit with
  | zero => exact scan_open cs
  | succ limit =>
    have hinside : scan (limit + 1) 1 false cs = false := by
      rw [scan_inside, show splitBody? false 0 cs = none from h, Option.any_none]
    rw [scan_open, hinside, Bool.and_false]

/-! ## Reading and scanning -/

section Reading

variable (hbody : ∀ pos body, (reading pos body).isOk = scanBody limit body)

include hbody

/-- A text passes the scan exactly if a token can be read at its front and what is left passes
it. -/
theorem scan_readOne (pos : Nat) (c : Char) (cs : List Char) :
    scan limit 0 false (c :: cs) =
      (readOne reading pos (c :: cs)).toOption.any fun parts => scan limit 0 false parts.2 := by
  have hfront : Front reading pos (c :: cs) _ := readOne_front reading pos (c :: cs)
  generalize readOne reading pos (c :: cs) = r at hfront ⊢
  cases hfront with
  | escapeAtEnd => rfl
  | escaped c hq =>
    rw [scan_escape, scan_readQuantifier hq]
    rfl
  | notClosed hgroup => exact scan_group_notClosed hgroup
  | @badBody _ body _ e hgroup hreading =>
    have hbad : scanBody limit body = false := by
      rw [← hbody (pos + 1) body, hreading]
      rfl
    rw [scan_group hgroup, hbad]
    rfl
  | @group _ body _ _ tokens _ hgroup hreading hq =>
    have hok : scanBody limit body = true := by
      rw [← hbody (pos + 1) body, hreading]
      rfl
    rw [scan_group hgroup, hok, Bool.true_and, scan_readQuantifier hq]
    rfl
  | strayMark hc =>
    rw [scan_mark hc]
    rfl
  | bare hescape hopen hc hq =>
    -- outside of groups, a closing parenthesis is scanned like any other character
    have hscan : scan limit 0 false (c :: cs) = scan limit 0 true cs := by
      by_cases hclose : c = ')'
      · rw [hclose, scan_close]
      · exact scan_other ⟨hescape, hopen, hclose⟩ hc cs
    rw [hscan, scan_readQuantifier hq]
    rfl

/-- A text can be read to its end exactly if it passes the scan. -/
theorem readAll_isOk_eq_scan (pos : Nat) (cs : List Char) :
    (readAll reading pos cs).isOk = scan limit 0 false cs := by
  induction pos, cs using readAll.induct reading with
  | case1 pos =>
    rw [readAll_nil]
    rfl
  | case2 pos c cs e hone =>
    rw [scan_readOne hbody pos, readAll_cons, hone]
    rfl
  | case3 pos c cs t rest hone e hrest ih =>
    rw [hrest] at ih
    rw [scan_readOne hbody pos, readAll_cons, hone]
    simp only [hrest]
    exact ih
  | case4 pos c cs t rest hone tokens hrest ih =>
    rw [hrest] at ih
    rw [scan_readOne hbody pos, readAll_cons, hone]
    simp only [hrest]
    exact ih

end Reading

/-- The body of a group can be read, where so many levels are left, exactly if it passes the
scan. -/
theorem readBody_isOk_eq_scanBody (levels pos : Nat) (body : List Char) :
    (readBody levels pos body).isOk = scanBody levels body := by
  induction levels generalizing pos body with
  | zero => rfl
  | succ levels ih => exact readAll_isOk_eq_scan ih pos body

/-- A text can be read as a pattern exactly if it passes the scan. -/
theorem exists_read_iff_scan (text : List Char) :
    (∃ tokens, read text = .ok tokens) ↔ scan maxNesting 0 false text = true := by
  have hscan : (read text).isOk = scan maxNesting 0 false text :=
    readAll_isOk_eq_scan (readBody_isOk_eq_scanBody maxNesting) 0 text
  rw [← hscan]
  cases read text with
  | error e => simp [Except.isOk, Except.toBool]
  | ok tokens => simp [Except.isOk, Except.toBool]

/-- A parenthesis that closes no group is a character like any other, and escaped ones do not
count. -/
example : scan maxNesting 0 false "a)?b(/)x!)+".toList = true := by decide +kernel

end Pattern

end InputMask

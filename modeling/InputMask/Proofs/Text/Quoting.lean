import Mathlib.Tactic.SplitIfs
import InputMask.Text.Lines
import InputMask.Text.Quoted

/-!
# Quoted text is read back

What is written for a value can often be told from what follows it: where two values are written,
each with some text after it, and the results are the same, the values are the same and so are the
texts after them (`PrefixFree`). This holds of a quoted text (`prefixFree_between`), whichever
characters are written by number, and of a number if no digit or letter comes next
(`toDigits_append_inj`). It carries over to values that are written one after another up to a
character that none of them starts with (`flatMap_append_inj`).

A text without line feeds and carriage returns is all of its line (`lines_append`), and quoted text
is such a text (`onOneLine_between`).
-/

set_option autoImplicit false

namespace InputMask

/-! ## Values that are told from what follows them -/

section Writing

variable {α : Type} {write : α → List Char} {a : α} {as bs : List α} {stop : Char} {x y : List Char}

/-- Whether a value is the only one that can have been written where it is, whatever follows it. -/
def ReadsBack (write : α → List Char) (a : α) : Prop :=
  ∀ b x y, write a ++ x = write b ++ y → a = b ∧ x = y

/-- Whether all values can be told from what follows them. -/
def PrefixFree (write : α → List Char) : Prop := ∀ a, ReadsBack write a

/-- What is read back after some text is read back with this text in front of it, too. -/
theorem ReadsBack.append_left (h : ReadsBack write a) (front : List Char) :
    ReadsBack (fun a => front ++ write a) a := by
  intro b x y heq
  simp only [List.append_assoc, List.append_cancel_left_eq] at heq
  exact h b x y heq

/-- Values that are written one after another are read back up to a character that none of them
starts with. -/
theorem flatMap_append_inj (h : ∀ a ∈ as, ReadsBack write a)
    (hend : ∀ a x y, write a ++ x ≠ stop :: y)
    (heq : as.flatMap write ++ stop :: x = bs.flatMap write ++ stop :: y) : as = bs ∧ x = y := by
  induction as generalizing bs with
  | nil =>
    cases bs with
    | nil => exact ⟨rfl, (List.cons.inj heq).2⟩
    | cons b bs =>
      rw [List.flatMap_cons, List.append_assoc] at heq
      exact absurd heq.symm (hend _ _ _)
  | cons a as ih =>
    cases bs with
    | nil =>
      rw [List.flatMap_cons, List.append_assoc] at heq
      exact absurd heq (hend _ _ _)
    | cons b bs =>
      rw [List.flatMap_cons, List.flatMap_cons, List.append_assoc, List.append_assoc] at heq
      obtain ⟨rfl, hrest⟩ := h a List.mem_cons_self _ _ _ heq
      obtain ⟨rfl, hxy⟩ := ih (fun a ha => h a (List.mem_cons_of_mem _ ha)) hrest
      exact ⟨rfl, hxy⟩

end Writing

/-! ## Numbers -/

section Digits

variable {base m n : Nat} {c : Char} {x y : List Char}

/-- Digits up to base sixteen are letters and decimal digits. -/
theorem digitChar_isAlphanum : ∀ n < 16, n.digitChar.isAlphanum = true := by decide

/-- Different digits are different characters. -/
theorem digitChar_inj : ∀ m < 16, ∀ n < 16, m.digitChar = n.digitChar → m = n := by decide

/-- A number is written with letters and decimal digits. -/
theorem isAlphanum_of_mem_toDigits (hbase : 1 < base) (hsmall : base ≤ 16)
    (hc : c ∈ Nat.toDigits base n) : c.isAlphanum = true := by
  induction n using Nat.strongRecOn with
  | ind n ih =>
    obtain hlt | hle := Nat.lt_or_ge n base
    · rw [Nat.toDigits_of_lt_base hlt, List.mem_singleton] at hc
      rw [hc]
      exact digitChar_isAlphanum n (by omega)
    · rw [Nat.toDigits_of_base_le hbase hle, List.mem_append, List.mem_singleton] at hc
      obtain hc | rfl := hc
      · exact ih (n / base) (Nat.div_lt_self (by omega) hbase) hc
      · have hdigit : n % base < base := Nat.mod_lt n (by omega)
        exact digitChar_isAlphanum (n % base) (by omega)

/-- A number that is written with one digit is less than the base. -/
theorem lt_of_toDigits_eq_singleton (hbase : 1 < base) (h : Nat.toDigits base n = [c]) :
    n < base := by
  have hlength : (Nat.toDigits base n).length ≤ 1 := Nat.le_of_eq (congrArg List.length h)
  rwa [Nat.length_toDigits_le_iff hbase Nat.zero_lt_one, Nat.pow_one] at hlength

/-- The digits of a number tell the number. -/
theorem toDigits_injective (hbase : 1 < base) (hsmall : base ≤ 16) :
    Function.Injective (Nat.toDigits base) := by
  intro m n h
  induction m using Nat.strongRecOn generalizing n with
  | ind m ih =>
    obtain hm | hm := Nat.lt_or_ge m base
    · rw [Nat.toDigits_of_lt_base hm] at h
      have hn : n < base := lt_of_toDigits_eq_singleton hbase h.symm
      rw [Nat.toDigits_of_lt_base hn] at h
      exact digitChar_inj m (by omega) n (by omega) (List.singleton_inj.1 h)
    · have hn : base ≤ n := by
        refine Nat.le_of_not_lt fun hlt => ?_
        have hsingle := h.trans (Nat.toDigits_of_lt_base hlt)
        exact Nat.not_lt.2 hm (lt_of_toDigits_eq_singleton hbase hsingle)
      rw [Nat.toDigits_of_base_le hbase hm, Nat.toDigits_of_base_le hbase hn] at h
      obtain ⟨hfront, hlast⟩ := List.append_inj' h rfl
      have hdiv : m / base = n / base := ih _ (Nat.div_lt_self (by omega) hbase) hfront
      have hmod : m % base = n % base := by
        have hm' := Nat.mod_lt m (Nat.zero_lt_of_lt hbase)
        have hn' := Nat.mod_lt n (Nat.zero_lt_of_lt hbase)
        exact digitChar_inj _ (by omega) _ (by omega) (List.singleton_inj.1 hlast)
      rw [← Nat.div_add_mod m base, ← Nat.div_add_mod n base, hdiv, hmod]

/-- Whether a text, put after a number in writing, does not look like more of it. -/
def EndsNumber (x : List Char) : Prop := ∀ c ∈ x.head?, c.isAlphanum = false

/-- A number in writing is read back up to a character that is no digit and no letter. -/
theorem toDigits_append_inj (hbase : 1 < base) (hsmall : base ≤ 16) (hx : EndsNumber x)
    (hy : EndsNumber y) (h : Nat.toDigits base m ++ x = Nat.toDigits base n ++ y) :
    m = n ∧ x = y := by
  have htake : ∀ n x, EndsNumber x →
      (Nat.toDigits base n ++ x).takeWhile Char.isAlphanum = Nat.toDigits base n := by
    intro n x hx
    rw [List.takeWhile_append_of_pos fun c => isAlphanum_of_mem_toDigits hbase hsmall]
    cases x with
    | nil => exact List.append_nil _
    | cons c x => rw [List.takeWhile_cons_of_neg (by simp [hx c rfl]), List.append_nil]
  have hdigits : Nat.toDigits base m = Nat.toDigits base n := by
    rw [← htake m x hx, h, htake n y hy]
  rw [hdigits, List.append_cancel_left_eq] at h
  exact ⟨toDigits_injective hbase hsmall hdigits, h⟩

end Digits

/-! ## Quoted text -/

namespace Quoted

variable {byNumber : Char → Bool} {c d : Char} {w x y : List Char}

/-- The characters that are written with a backslash and one more character, and that character. -/
def shortEscapes : List (Char × Char) :=
  [('\x00', '0'), ('\t', 't'), ('\r', 'r'), ('\n', 'n'), ('\\', '\\'), ('"', '"')]

/-- The ways in which a character can be written in double quotes. -/
inductive Written : Char → List Char → Prop
  | short {c d : Char} (h : (c, d) ∈ shortEscapes) : Written c ['\\', d]
  | numbered {c : Char} : Written c ('\\' :: 'u' :: '\x7b' :: Nat.toDigits 16 c.toNat ++ ['\x7d'])
  | plain {c : Char} (hslash : c ≠ '\\') (hquote : c ≠ '"') (hline : c ≠ '\n' ∧ c ≠ '\r') :
      Written c [c]

/-- A character in quotes is written in one of the ways there are. -/
theorem written_escape (byNumber : Char → Bool) (c : Char) : Written c (escape byNumber '"' c) := by
  unfold escape
  split_ifs with hnull htab hreturn hfeed hself hnumber
  · exact .short (by simp [hnull, shortEscapes])
  · exact .short (by simp [htab, shortEscapes])
  · exact .short (by simp [hreturn, shortEscapes])
  · exact .short (by simp [hfeed, shortEscapes])
  · exact .short (by obtain rfl | rfl := hself <;> simp [shortEscapes])
  · exact .numbered
  · rw [not_or] at hself
    exact .plain hself.1 hself.2 ⟨hfeed, hreturn⟩

/-- No two characters are written alike with a backslash. -/
theorem shortEscapes_inj : ∀ p ∈ shortEscapes, ∀ p' ∈ shortEscapes, p.2 = p'.2 → p.1 = p'.1 := by
  decide

/-- None is written with the letter that starts a number. -/
theorem ne_u_of_mem_shortEscapes : ∀ p ∈ shortEscapes, p.2 ≠ 'u' := by decide

/-- A character in double quotes is read back, whatever follows it. -/
theorem prefixFree_escape (byNumber : Char → Bool) : PrefixFree (escape byNumber '"') := by
  intro c d x y h
  have hc : Written c (escape byNumber '"' c) := written_escape byNumber c
  have hd : Written d (escape byNumber '"' d) := written_escape byNumber d
  generalize escape byNumber '"' c = u at hc h
  generalize escape byNumber '"' d = v at hd h
  cases hc with
  | short hc =>
    cases hd with
    | short hd =>
      simp only [List.cons_append, List.nil_append, List.cons.injEq, true_and] at h
      exact ⟨shortEscapes_inj _ hc _ hd h.1, h.2⟩
    | numbered => exact absurd (List.cons.inj (List.cons.inj h).2).1 (ne_u_of_mem_shortEscapes _ hc)
    | plain hslash => exact absurd (List.cons.inj h).1.symm hslash
  | numbered =>
    cases hd with
    | short hd =>
      exact absurd (List.cons.inj (List.cons.inj h).2).1.symm (ne_u_of_mem_shortEscapes _ hd)
    | numbered =>
      simp only [List.cons_append, List.append_assoc, List.cons.injEq, true_and,
        List.nil_append] at h
      obtain ⟨hnumber, hrest⟩ := toDigits_append_inj (by decide) (by decide) (by simp [EndsNumber])
        (by simp [EndsNumber]) h
      exact ⟨Char.toNat_inj.1 hnumber, (List.cons.inj hrest).2⟩
    | plain hslash => exact absurd (List.cons.inj h).1.symm hslash
  | plain hslash =>
    cases hd with
    | short hd => exact absurd (List.cons.inj h).1 hslash
    | numbered => exact absurd (List.cons.inj h).1 hslash
    | plain => exact List.cons.inj h

/-- No character in double quotes is written with a quotation mark first. -/
theorem escape_append_ne (byNumber : Char → Bool) (c : Char) (x y : List Char) :
    escape byNumber '"' c ++ x ≠ '"' :: y := by
  intro h
  have hc : Written c (escape byNumber '"' c) := written_escape byNumber c
  generalize escape byNumber '"' c = u at hc h
  cases hc with
  | short hc => simp at h
  | numbered => simp at h
  | plain hslash hquote => exact hquote (List.cons.inj h).1

/-- A text in double quotes is read back, whatever follows it and whichever characters are written
by number. -/
theorem prefixFree_between (byNumber : Char → Bool) : PrefixFree (between byNumber '"') := by
  intro text text' x y h
  simp only [between, List.cons_append, List.append_assoc, List.cons.injEq, true_and] at h
  exact flatMap_append_inj (fun c _ => prefixFree_escape byNumber c) (escape_append_ne byNumber) h

end Quoted

/-! ## Lines -/

variable {cs ds : List Char}

/-- Whether a text has no character that ends a line or is dropped with the end of one. -/
def OnOneLine (cs : List Char) : Prop := ∀ c ∈ cs, c ≠ '\n' ∧ c ≠ '\r'

/-- Whether a text stays on one line is decided character by character. -/
instance (cs : List Char) : Decidable (OnOneLine cs) := List.decidableBAll _ cs

/-- Texts that stay on one line do so one after the other. -/
theorem OnOneLine.append (hcs : OnOneLine cs) (hds : OnOneLine ds) : OnOneLine (cs ++ ds) := by
  intro c hc
  exact (List.mem_append.1 hc).elim (hcs c) (hds c)

/-- A number is written on one line. -/
theorem onOneLine_toDigits {base : Nat} (hbase : 1 < base) (hsmall : base ≤ 16) (n : Nat) :
    OnOneLine (Nat.toDigits base n) := by
  intro c hc
  have halphanum := isAlphanum_of_mem_toDigits hbase hsmall hc
  constructor <;> rintro rfl <;> exact absurd halphanum (by decide)

/-- However a character is written in quotes, it stays on one line. -/
theorem Quoted.Written.onOneLine {c : Char} {w : List Char} (h : Quoted.Written c w) :
    OnOneLine w := by
  cases h with
  | short h =>
    have hletters : ∀ p ∈ Quoted.shortEscapes, OnOneLine ['\\', p.2] := by decide
    exact hletters _ h
  | numbered =>
    have hopened : OnOneLine ['\\', 'u', '\x7b'] := by decide
    exact (hopened.append (onOneLine_toDigits (by decide) (by decide) _)).append (by decide)
  | plain hslash hquote hline => exact List.forall_mem_singleton.2 hline

/-- A text in quotes stays on one line, even if the text itself does not. -/
theorem onOneLine_between (byNumber : Char → Bool) (text : List Char) :
    OnOneLine (Quoted.between byNumber '"' text) := by
  have htext : OnOneLine (text.flatMap (Quoted.escape byNumber '"')) := by
    intro c hc
    obtain ⟨d, -, hd⟩ := List.mem_flatMap.1 hc
    exact (Quoted.written_escape byNumber d).onOneLine c hd
  have hopened : OnOneLine ('"' :: text.flatMap (Quoted.escape byNumber '"')) :=
    OnOneLine.append (by decide : OnOneLine ['"']) htext
  exact hopened.append (by decide)

/-- A text on one line is a line of its own before a line feed. -/
theorem lines_append (hcs : OnOneLine cs) (rest : List Char) :
    lines (cs ++ '\n' :: rest) = cs :: lines rest := by
  induction cs with
  | nil => rw [List.nil_append, lines]
  | cons c cs ih =>
    obtain ⟨⟨hfeed, hreturn⟩, hcs⟩ := List.forall_mem_cons.1 hcs
    rw [List.cons_append, lines, ih hcs]
    · exact hfeed
    · exact fun _ h => absurd h hreturn

end InputMask

import InputMask.Text.Unprintable

/-!
# Quoted text

A quoted text stands between two quotation marks and on one line: the backslash and the quotation
mark are written with a backslash before them, four controls by a backslash and a letter or digit,
and characters that do not show by number, as a backslash, `u`, and the code point in hexadecimal
digits between braces.

Which characters are written by number is a parameter of `escape` and `between`; `ofText` and
`ofChar` fix it to the characters that do not show.
-/

set_option autoImplicit false

namespace InputMask.Quoted

/-- How a character is written between two quotation marks. -/
def escape (byNumber : Char → Bool) (quote c : Char) : List Char :=
  if c = '\x00' then ['\\', '0']
  else if c = '\t' then ['\\', 't']
  else if c = '\r' then ['\\', 'r']
  else if c = '\n' then ['\\', 'n']
  else if c = '\\' ∨ c = quote then ['\\', c]
  else if byNumber c then ['\\', 'u', '\x7b'] ++ Nat.toDigits 16 c.toNat ++ ['\x7d']
  else [c]

/-- A text between two quotation marks. -/
def between (byNumber : Char → Bool) (quote : Char) (text : List Char) : List Char :=
  quote :: text.flatMap (escape byNumber quote) ++ [quote]

/-- A text in double quotes. -/
def ofText (text : List Char) : List Char := between Unprintable.test '"' text

/-- A character in single quotes. -/
def ofChar (c : Char) : List Char := between Unprintable.test '\'' [c]

end InputMask.Quoted

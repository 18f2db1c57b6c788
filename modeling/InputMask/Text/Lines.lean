/-!
# Lines of text

A text is split after each line feed. A carriage return just before the line feed belongs to the end
of the line and is dropped with it; elsewhere it is a character like any other. What comes after the
last line feed is a line if it is not empty.
-/

set_option autoImplicit false

namespace InputMask

/-- The lines of a text. -/
def lines : List Char → List (List Char)
  | [] => []
  | '\n' :: cs => [] :: lines cs
  | '\r' :: '\n' :: cs => [] :: lines cs
  | c :: cs =>
    match lines cs with
    | [] => [[c]]
    | line :: rest => (c :: line) :: rest

end InputMask

import InputMask.Pattern.Reader

/-!
# Writing a pattern

A list of tokens is written as the text that reads back as these tokens. Every literal is written
with the escape mark before it, so that no character of a literal is taken for a symbol, for the
mark of a quantifier or for a parenthesis.
-/

set_option autoImplicit false

namespace InputMask

/-- The text of a leaf without its quantifier. -/
def Leaf.render : Leaf → List Char
  | .ofClass k => [k.symbol]
  | .literal c => [Pattern.escapeMark, c]

/-- The text of a quantifier: its mark, if it has one. -/
def Quantifier.render (q : Quantifier) : List Char := q.mark.toList

namespace Token

mutual

/-- The text of a token. -/
def render : Token → List Char
  | leaf l q _ => l.render ++ q.render
  | group body q _ => '(' :: renders body ++ ')' :: q.render

/-- The text of a list of tokens. -/
def renders : List Token → List Char
  | [] => []
  | t :: ts => render t ++ renders ts

end

end Token

end InputMask

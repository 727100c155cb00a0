import DomQuery.Selector.Lexer.Progress

/-!
# Reading all tokens

A text is read token by token up to its end or to the first error.
-/

namespace DomQuery

/-- The tokens of the characters, or the first error among them. -/
def Lexer.tokens (text : List Char) : Except SelectorError (List Token) :=
  match _h : next text with
  | (.ok (some t), rest) => (tokens rest).map (t :: ·)
  | (.ok none, _) => .ok []
  | (.error cause, _) => .error cause
termination_by text.length
decreasing_by
  have hfound : (next text).1 = .ok (some t) := by rw [_h]
  have hlt := length_next_lt hfound
  rw [_h] at hlt
  exact hlt

/-- The tokens of a text, or the first error in it. -/
def Token.ofText (text : String) : Except SelectorError (List Token) :=
  Lexer.tokens text.toList

end DomQuery

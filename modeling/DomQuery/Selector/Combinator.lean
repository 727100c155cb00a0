/-!
# Combinators

The signs between the compounds of a complex selector.
-/

namespace DomQuery

/-- How an element relates to the element that the compound on its left stands for. -/
inductive Combinator where
  /-- The left element is an ancestor. -/
  | descendant
  /-- The left element is the parent. -/
  | child
  /-- The left element is the element sibling just before. -/
  | nextSibling
  /-- The left element is an element sibling somewhere before. -/
  | subsequentSibling
  deriving DecidableEq, Repr

namespace Combinator

/-- The character that writes the combinator. -/
def sign : Combinator → Char
  | descendant => ' '
  | child => '>'
  | nextSibling => '+'
  | subsequentSibling => '~'

/-- The combinator with the given sign, the descendant combinator apart, which is written by
the blanks themselves. -/
def ofSign? (c : Char) : Option Combinator :=
  [child, nextSibling, subsequentSibling].find? fun combinator => combinator.sign == c

end Combinator

end DomQuery

import DomQuery.Text.Quoted

/-!
# Tokens

The tokens that a selector is made of, and the text that stands for a token in messages.
-/

namespace DomQuery

/-- A token of a selector. -/
inductive Token where
  | ident (name : String)
  /-- A name with the opening parenthesis right after it. -/
  | function (name : String)
  /-- A value after `#`; `isId` tells whether it could stand as an identifier. -/
  | hash (value : String) (isId : Bool)
  | string (value : String)
  /-- A number as it is written, with its sign. -/
  | number (text : String)
  /-- A number with a name right after it. -/
  | dimension (value : String) (unit : String)
  | whitespace
  | colon
  | comma
  | leftBracket
  | rightBracket
  | leftParen
  | rightParen
  /-- Any other character. -/
  | delim (c : Char)
  deriving DecidableEq, Repr

/-- The text that stands for the token in messages. -/
def Token.text : Token → String
  | ident name => name
  | function name => name ++ "("
  | hash value _ => "#" ++ value
  | string value => Text.quoted value
  | number text => text
  | dimension value unit => value ++ unit
  | whitespace => " "
  | colon => ":"
  | comma => ","
  | leftBracket => "["
  | rightBracket => "]"
  | leftParen => "("
  | rightParen => ")"
  | delim c => c.toString

end DomQuery

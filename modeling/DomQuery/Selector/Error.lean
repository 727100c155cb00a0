import DomQuery.Selector.Combinator

/-!
# Why a selector is refused

The causes for which a text is no selector, and the message for each.
-/

namespace DomQuery

/-- The constructs that can be left open at the end of a text. -/
inductive Construct where
  | comment
  | string
  | escape
  | attributeSelector
  | nthArgument
  | functionalPseudoClass
  deriving DecidableEq, Repr

/-- The name of the construct in messages. -/
def Construct.name : Construct → String
  | comment => "comment"
  | string => "string"
  | escape => "escape"
  | attributeSelector => "attribute selector"
  | nthArgument => ":nth-child()"
  | functionalPseudoClass => "functional pseudo-class"

/-- The causes for which a text is no selector. -/
inductive SelectorError where
  /-- A selector was expected and the text, or this part of it, was over. -/
  | empty
  /-- The token written as `found` cannot stand where it stands. -/
  | unexpected (found : String)
  /-- The combinator lacks a compound on one of its sides. -/
  | danglingCombinator (combinator : Combinator)
  /-- No pseudo-class has this name, which is in lower case. -/
  | unknownPseudoClass (name : String)
  /-- No pseudo-element has this name. -/
  | unknownPseudoElement (name : String)
  /-- The argument of a positional pseudo-class is not of the form `an+b`. -/
  | invalidNth (text : String)
  /-- The value after `#` is no identifier. -/
  | invalidId (value : String)
  /-- The text ends inside the construct. -/
  | unterminated (construct : Construct)
  deriving DecidableEq, Repr

/-- The message for a refused selector. -/
def SelectorError.message : SelectorError → String
  | empty => "empty selector"
  | unexpected found => "unexpected `" ++ found ++ "` in selector"
  | danglingCombinator combinator =>
      "combinator `" ++ combinator.sign.toString ++ "` has no selector on one side"
  | unknownPseudoClass name => "unknown pseudo-class `:" ++ name ++ "`"
  | unknownPseudoElement name => "unknown pseudo-element `::" ++ name ++ "`"
  | invalidNth text => "invalid an+b expression `" ++ text ++ "`"
  | invalidId value => "`#" ++ value ++ "` is not a valid id selector"
  | unterminated construct => "unterminated " ++ construct.name

end DomQuery

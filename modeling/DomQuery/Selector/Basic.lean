import DomQuery.Selector.AnPlusB
import DomQuery.Text.Fold

/-!
# Selectors

A simple selector states one condition on an element, a compound selector is a list of them
that hold together, and a complex selector relates compounds by combinators.  A complex
selector is built towards the right: its last compound, the *subject*, stands for the
elements that it selects, and what stands on the left restricts them further.  The logical
pseudo-classes hold lists of complex selectors again.
-/

namespace DomQuery

/-- How the value of an attribute compares with the value in a selector. -/
inductive AttributeOp where
  /-- The values are equal. -/
  | equals
  /-- The value is one of the words of the attribute. -/
  | includes
  /-- The attribute is the value, or begins with the value and a hyphen. -/
  | dashMatch
  /-- The attribute begins with the value. -/
  | startsWith
  /-- The attribute ends with the value. -/
  | endsWith
  /-- The value occurs in the attribute. -/
  | contains
  deriving DecidableEq, Repr

/-- The pseudo-classes without argument. -/
inductive PseudoClass where
  | scope
  | root
  | firstChild
  | lastChild
  | onlyChild
  | firstOfType
  | lastOfType
  | onlyOfType
  | empty
  | link
  | anyLink
  | visited
  | hover
  | active
  | focus
  | focusVisible
  | focusWithin
  | enabled
  | disabled
  | checked
  deriving DecidableEq, Repr

/-- The character before the equals sign that writes the comparison, if there is one. -/
def AttributeOp.sign? : AttributeOp → Option Char
  | equals => none
  | includes => some '~'
  | dashMatch => some '|'
  | startsWith => some '^'
  | endsWith => some '$'
  | contains => some '*'

/-- The comparison written by the character and an equals sign. -/
def AttributeOp.ofSign? (c : Char) : Option AttributeOp :=
  [includes, dashMatch, startsWith, endsWith, contains].find? fun op => op.sign? == some c

namespace PseudoClass

/-- The keyword of a pseudo-class. -/
def name : PseudoClass → String
  | scope => "scope"
  | root => "root"
  | firstChild => "first-child"
  | lastChild => "last-child"
  | onlyChild => "only-child"
  | firstOfType => "first-of-type"
  | lastOfType => "last-of-type"
  | onlyOfType => "only-of-type"
  | empty => "empty"
  | link => "link"
  | anyLink => "any-link"
  | visited => "visited"
  | hover => "hover"
  | active => "active"
  | focus => "focus"
  | focusVisible => "focus-visible"
  | focusWithin => "focus-within"
  | enabled => "enabled"
  | disabled => "disabled"
  | checked => "checked"

/-- All pseudo-classes without argument. -/
def all : List PseudoClass :=
  [scope, root, firstChild, lastChild, onlyChild, firstOfType, lastOfType, onlyOfType, empty,
    link, anyLink, visited, hover, active, focus, focusVisible, focusWithin, enabled, disabled,
    checked]

/-- The pseudo-class with the given keyword, which is in lower case. -/
def ofName? (text : String) : Option PseudoClass :=
  all.find? fun pseudo => pseudo.name == text

end PseudoClass

/-- The pseudo-elements. -/
inductive PseudoElement where
  | before
  | after
  | firstLine
  | firstLetter
  deriving DecidableEq, Repr

namespace PseudoElement

/-- The keyword of a pseudo-element. -/
def name : PseudoElement → String
  | before => "before"
  | after => "after"
  | firstLine => "first-line"
  | firstLetter => "first-letter"

/-- All pseudo-elements. -/
def all : List PseudoElement :=
  [before, after, firstLine, firstLetter]

/-- The pseudo-element with the given keyword, in any case. -/
def ofName? (text : String) : Option PseudoElement :=
  all.find? fun pseudo => Text.sameFolded pseudo.name text

end PseudoElement

mutual

/-- A condition on one element. -/
inductive SimpleSelector where
  /-- The element has this tag name. -/
  | tag (name : String)
  /-- No condition. -/
  | universal
  | id (value : String)
  | className (value : String)
  /-- The element has the attribute, and its value passes the test if there is one. -/
  | hasAttribute (name : String) (test : Option (AttributeOp × String))
  | pseudoClass (pseudo : PseudoClass)
  | nthChild (positions : AnPlusB)
  | nthLastChild (positions : AnPlusB)
  /-- None of the selectors matches. -/
  | notAny (selectors : List ComplexSelector)
  /-- One of the selectors matches. -/
  | isAny (selectors : List ComplexSelector)
  /-- One of the selectors matches; it differs from `isAny` in the written form only. -/
  | whereAny (selectors : List ComplexSelector)
  | pseudoElement (pseudo : PseudoElement)

/-- A chain of compound selectors. -/
inductive ComplexSelector where
  /-- A compound on its own. -/
  | compound (simples : List SimpleSelector)
  /-- A compound that is related to the rest of the chain on its left. -/
  | combined (left : ComplexSelector) (combinator : Combinator) (simples : List SimpleSelector)

end

/-- Complex selectors as alternatives. -/
abbrev SelectorList := List ComplexSelector

namespace ComplexSelector

/-- The last compound, which stands for the elements selected. -/
def subject : ComplexSelector → List SimpleSelector
  | compound simples => simples
  | combined _ _ simples => simples

/-- The compounds from the subject to the left end, each with the combinator on its left. -/
def parts : ComplexSelector → List (List SimpleSelector × Option Combinator)
  | compound simples => [(simples, none)]
  | combined left combinator simples => (simples, some combinator) :: left.parts

end ComplexSelector

end DomQuery

import DomQuery.Dom.Walk
import DomQuery.Selector.Basic
import DomQuery.Text.Occurrence

/-!
# Matching

Whether an element matches a selector.  A complex selector is matched from the subject to the
left: its combinator names the elements that may stand for the rest of the chain, and one of
them has to match that rest.  All of them are tried, so a wrong choice close to the subject
never hides a match further away.

The pseudo-class `:scope` stands for one element, which is a parameter of every function here;
where there is none, it stands for the root elements.
-/

namespace DomQuery

/-- Whether the value of an attribute passes the comparison with the value of a selector.  An
empty value is at no end of an attribute and nowhere inside. -/
def AttributeOp.accepts (op : AttributeOp) (expected actual : String) : Bool :=
  let expected := expected.toList
  let actual := actual.toList
  match op with
  | equals => actual == expected
  | includes => (Text.words actual).contains expected
  | dashMatch => actual == expected || (expected ++ ['-']).isPrefixOf actual
  | startsWith => !expected.isEmpty && expected.isPrefixOf actual
  | endsWith => !expected.isEmpty && expected.isSuffixOf actual
  | contains => !expected.isEmpty && Text.occursIn expected actual

namespace Element

/-- Whether the element has an attribute with the name. -/
def hasAttribute (element : Element) (name : String) : Bool :=
  (element.attributeValue? name).isSome

/-- Whether the element is a control that can be disabled. -/
def isFormControl (element : Element) : Bool :=
  ["button", "input", "select", "textarea", "option", "optgroup", "fieldset"].contains
    element.tagName

/-- Whether the element is a link. -/
def isLink (element : Element) : Bool :=
  ["a", "area"].contains element.tagName && element.hasAttribute "href"

/-- Whether the element is a control that is switched on. -/
def isChecked (element : Element) : Bool :=
  (element.tagName == "input" && element.hasAttribute "checked") ||
    (element.tagName == "option" && element.hasAttribute "selected")

end Element

namespace Dom

/-! ### Positions among siblings -/

/-- Whether the node has a parent. -/
def hasParent (dom : Dom) (node : Handle) : Bool :=
  (dom.parent? node).isSome

/-- Whether the node stands directly below a document. -/
def isRoot (dom : Dom) (node : Handle) : Bool :=
  (dom.parent? node).any dom.isDocument

/-- The element children of the node's parent. -/
def siblings (dom : Dom) (node : Handle) : List Handle :=
  ((dom.parent? node).map dom.elementChildren).getD []

/-- The element children of the node's parent that have the tag name. -/
def siblingsOfType (dom : Dom) (node : Handle) (tagName : String) : List Handle :=
  (dom.siblings node).filter fun sibling => dom.tagName? sibling == some tagName

/-- Whether the positions contain the position with the given number of elements before it. -/
def holdsAfter (positions : AnPlusB) (count : Nat) : Bool :=
  positions.holdsAt (Int32.ofNat (count + 1))

/-- Whether no child of the node is content. -/
def isVoid (dom : Dom) (node : Handle) : Bool :=
  !(dom.children node).any fun child => (dom.payload? child).any Payload.isContent

/-! ### Conditions on one element -/

/-- Whether the element is in the state that the pseudo-class names.  Nothing in the tree
records the states that come from a user. -/
def inState (dom : Dom) (scope : Option Handle) (node : Handle) (element : Element) :
    PseudoClass → Bool
  | .scope =>
      match scope with
      | some handle => handle == node
      | none => dom.isRoot node
  | .root => dom.isRoot node
  | .firstChild => dom.hasParent node && (dom.previousElement? node).isNone
  | .lastChild => dom.hasParent node && (dom.nextElement? node).isNone
  | .onlyChild =>
      dom.hasParent node && (dom.previousElement? node).isNone && (dom.nextElement? node).isNone
  | .firstOfType => (dom.siblingsOfType node element.tagName).head? == some node
  | .lastOfType => (dom.siblingsOfType node element.tagName).getLast? == some node
  | .onlyOfType => dom.siblingsOfType node element.tagName == [node]
  | .empty => dom.isVoid node
  | .link => element.isLink
  | .anyLink => element.isLink
  | .visited => false
  | .hover => false
  | .active => false
  | .focus => false
  | .focusVisible => false
  | .focusWithin => false
  | .enabled => element.isFormControl && !element.hasAttribute "disabled"
  | .disabled => element.isFormControl && element.hasAttribute "disabled"
  | .checked => element.isChecked

/-- The elements that may stand for the left side of a combinator, given the right side. -/
def candidates (dom : Dom) (combinator : Combinator) (node : Handle) : List Handle :=
  match combinator with
  | .descendant => dom.elementAncestors node
  | .child => (dom.parentElement? node).toList
  | .nextSibling => (dom.previousElement? node).toList
  | .subsequentSibling => dom.precedingElements node

/-! ### Selectors -/

mutual

/-- Whether the element meets the condition. -/
def satisfies (dom : Dom) (scope : Option Handle) :
    SimpleSelector → Handle → Element → Bool
  | .tag name, _, element => Text.sameFolded element.tagName name
  | .universal, _, _ => true
  | .id value, _, element => element.id == some value
  | .className value, _, element => element.hasClass value
  | .hasAttribute name none, _, element => element.hasAttribute name
  | .hasAttribute name (some (op, value)), _, element =>
      (element.attributeValue? name).any (op.accepts value)
  | .pseudoClass pseudo, node, element => dom.inState scope node element pseudo
  | .nthChild positions, node, _ =>
      dom.hasParent node && (dom.elementIndex? node).any (holdsAfter positions)
  | .nthLastChild positions, node, _ =>
      ((dom.siblings node).reverse.idxOf? node).any (holdsAfter positions)
  | .notAny selectors, node, _ => !dom.matchesAny scope selectors node
  | .isAny selectors, node, _ => dom.matchesAny scope selectors node
  | .whereAny selectors, node, _ => dom.matchesAny scope selectors node
  | .pseudoElement _, _, _ => false

/-- Whether the element meets all conditions. -/
def satisfiesAll (dom : Dom) (scope : Option Handle) :
    List SimpleSelector → Handle → Element → Bool
  | [], _, _ => true
  | simple :: rest, node, element =>
      dom.satisfies scope simple node element && dom.satisfiesAll scope rest node element

/-- Whether the node is an element that matches the complex selector. -/
def matchesComplex (dom : Dom) (scope : Option Handle) : ComplexSelector → Handle → Bool
  | .compound simples, node => (dom.element? node).any (dom.satisfiesAll scope simples node)
  | .combined left combinator simples, node =>
      (dom.element? node).any (dom.satisfiesAll scope simples node) &&
        (dom.candidates combinator node).any (dom.matchesComplex scope left)

/-- Whether the node is an element that matches one of the selectors. -/
def matchesAny (dom : Dom) (scope : Option Handle) : List ComplexSelector → Handle → Bool
  | [], _ => false
  | selector :: rest, node =>
      dom.matchesComplex scope selector node || dom.matchesAny scope rest node

end

/-- Whether the node is an element that meets all conditions of a compound. -/
def matchesCompound (dom : Dom) (scope : Option Handle) (simples : List SimpleSelector)
    (node : Handle) : Bool :=
  (dom.element? node).any (dom.satisfiesAll scope simples node)

end Dom

end DomQuery

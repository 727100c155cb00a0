import DomQuery.Dom.Walk
import DomQuery.Selector.Identifier

/-!
# Paths

The path of a node is a selector that leads from its document to it: a step for each element
on the way, with the child combinator between them.  A step is the `id` of the element where
it has one, and the path begins there; otherwise it is the tag name and the position among the
sibling elements.  The root element of a document needs no position.  Outside a document the
path begins at the topmost node, which is written `:scope`.
-/

namespace DomQuery.Dom

/-- The 1-based position of an element among its sibling elements. -/
def elementPosition? (dom : Dom) (node : Handle) : Option Nat :=
  (dom.elementIndex? node).map (· + 1)

/-- The step of a path that leads from the parent to the node. -/
def pathStep (dom : Dom) (node parent : Handle) : String :=
  let tagName := (dom.tagName? node).getD "*"
  if dom.isDocument parent then tagName
  else
    let position := (dom.elementPosition? node).getD 1
    tagName ++ ":nth-child(" ++ toString position ++ ")"

/-- The steps of the path of a node, the last step first, given the node with its
ancestors. -/
def pathSteps (dom : Dom) : List Handle → List String
  | [] => []
  | [top] => if dom.isDocument top then [] else [":scope"]
  | node :: parent :: rest =>
      match (dom.attributeValue? node "id").filter fun id => !id.isEmpty with
      | some id => ["#" ++ Identifier.escape id]
      | none => dom.pathStep node parent :: dom.pathSteps (parent :: rest)

/-- The path of a node. -/
def path (dom : Dom) (node : Handle) : String :=
  " > ".intercalate (dom.pathSteps (node :: dom.ancestors node)).reverse

end DomQuery.Dom

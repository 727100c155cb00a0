import DomQuery.Dom.Basic

/-!
# Walking the tree

The relatives of a node, read off its links.  Each walk follows one kind of link from node to
node; the number of slots bounds its length, and in a tree no walk reaches the bound.
-/

namespace DomQuery.Dom

/-- The nodes reached from a start by following the step, the start first, at most `limit`. -/
def follow (step : Handle → Option Handle) : Nat → Option Handle → List Handle
  | 0, _ => []
  | _ + 1, none => []
  | limit + 1, some node => node :: follow step limit (step node)

/-- A bound on the length of a walk that visits no node twice: every slot, and a handle that
does not resolve at the end. -/
def walkLimit (dom : Dom) : Nat :=
  dom.nodes.slots.size + 1

/-! ### Upwards -/

/-- The parent of the node. -/
def parent? (dom : Dom) (node : Handle) : Option Handle :=
  (dom.links node).parent

/-- The parent of the node, if it is an element. -/
def parentElement? (dom : Dom) (node : Handle) : Option Handle :=
  (dom.parent? node).filter dom.isElement

/-- The parent, its parent and so on. -/
def ancestors (dom : Dom) (node : Handle) : List Handle :=
  follow dom.parent? dom.walkLimit (dom.parent? node)

/-- The parent, its parent and so on as far as they are elements. -/
def elementAncestors (dom : Dom) (node : Handle) : List Handle :=
  follow dom.parentElement? dom.walkLimit (dom.parentElement? node)

/-- The last ancestor, or the node itself when it has no parent. -/
def root (dom : Dom) (node : Handle) : Handle :=
  (dom.ancestors node).getLast?.getD node

/-! ### Sideways -/

/-- The siblings before the node, the nearest first. -/
def precedingSiblings (dom : Dom) (node : Handle) : List Handle :=
  follow (fun sibling => (dom.links sibling).previousSibling) dom.walkLimit
    (dom.links node).previousSibling

/-- The siblings after the node, the nearest first. -/
def followingSiblings (dom : Dom) (node : Handle) : List Handle :=
  follow (fun sibling => (dom.links sibling).nextSibling) dom.walkLimit
    (dom.links node).nextSibling

/-- The nearest element among the siblings before the node. -/
def previousElement? (dom : Dom) (node : Handle) : Option Handle :=
  (dom.precedingSiblings node).find? dom.isElement

/-- The nearest element among the siblings after the node. -/
def nextElement? (dom : Dom) (node : Handle) : Option Handle :=
  (dom.followingSiblings node).find? dom.isElement

/-- The elements among the siblings before the node, the nearest first. -/
def precedingElements (dom : Dom) (node : Handle) : List Handle :=
  (dom.precedingSiblings node).filter dom.isElement

/-- The number of element siblings before an element. -/
def elementIndex? (dom : Dom) (node : Handle) : Option Nat :=
  if dom.isElement node then some (dom.precedingElements node).length else none

/-! ### Downwards -/

/-- The children of the node. -/
def children (dom : Dom) (node : Handle) : List Handle :=
  follow (fun child => (dom.links child).nextSibling) dom.walkLimit (dom.links node).firstChild

/-- The elements among the children of the node. -/
def elementChildren (dom : Dom) (node : Handle) : List Handle :=
  (dom.children node).filter dom.isElement

/-- A walk over the nodes below a node: the nodes visited so far, and a pile of nodes still to
visit, the next one last. -/
structure Descent where
  visited : List Handle := []
  pending : List Handle
  deriving DecidableEq, Repr

namespace Descent

/-- The walk before its first step, with the children of the node on the pile. -/
def start (dom : Dom) (node : Handle) : Descent :=
  { pending := (dom.children node).reverse }

/-- Takes the next node off the pile, visits it, and puts its children on the pile so that the
first of them is next.  There is no step when the pile is empty. -/
def step? (dom : Dom) (descent : Descent) : Option Descent :=
  descent.pending.getLast?.map fun node =>
    { visited := descent.visited ++ [node]
      pending := descent.pending.dropLast ++ (dom.children node).reverse }

/-- The walk after as many steps as there are, but at most `limit`. -/
def run (dom : Dom) : Nat → Descent → Descent
  | 0, descent => descent
  | limit + 1, descent =>
      match descent.step? dom with
      | some next => run dom limit next
      | none => descent

end Descent

/-- A bound on the number of steps of a walk downwards.  Every node is reached over first
children and next siblings, so there are at most two ways on from each node; as long as no way
comes to a node twice, there are fewer ways than this. -/
def descentLimit (dom : Dom) : Nat :=
  Nat.pow 2 dom.walkLimit

/-- The nodes below the node, each one before those below it. -/
def descendants (dom : Dom) (node : Handle) : List Handle :=
  ((Descent.start dom node).run dom dom.descentLimit).visited

/-! ### Documents -/

/-- The document that the node belongs to; a document belongs to itself. -/
def ownerDocument? (dom : Dom) (node : Handle) : Option Handle :=
  if dom.isDocument (dom.root node) then some (dom.root node) else none

/-- The document that the node belongs to, or the topmost node of a tree outside any
document. -/
def treeTop (dom : Dom) (node : Handle) : Handle :=
  if dom.isDocument node then node else dom.root node

/-- The first element below a document. -/
def documentElement? (dom : Dom) (document : Handle) : Option Handle :=
  if dom.isDocument document then (dom.elementChildren document).head? else none

end DomQuery.Dom

import DomQuery.Dom.Walk

/-!
# Editing the tree

Attributes are set and removed, nodes are moved below a parent or taken out of the tree, and
whole subtrees are freed.

A move consists of taking the node out of its place and linking it into another.  Where a node
has a sibling on a side, that sibling's link is changed, and otherwise the parent's link to
its first or last child is.
-/

namespace DomQuery.Dom

/-! ### Attributes -/

/-- Changes the element, if the node is one. -/
def modifyElement (dom : Dom) (node : Handle) (f : Element → Element) : Dom :=
  { nodes := dom.nodes.modify node fun n => { n with payload := n.payload.mapElement f } }

/-- Gives the attribute of an element a value. -/
def setAttribute (dom : Dom) (node : Handle) (name value : String) : Dom :=
  dom.modifyElement node (·.setAttribute name value)

/-- Removes the attributes of an element that have the name. -/
def removeAttribute (dom : Dom) (node : Handle) (name : String) : Dom :=
  dom.modifyElement node (·.removeAttribute name)

/-! ### Links -/

/-- Changes the links of a node. -/
def modifyLinks (dom : Dom) (node : Handle) (f : Links → Links) : Dom :=
  { nodes := dom.nodes.modify node fun n => { n with links := f n.links } }

/-- Makes `target` what follows the sibling `previous`, or the first child of the parent when
there is no such sibling. -/
def linkForward (dom : Dom) (parent : Handle) (previous target : Option Handle) : Dom :=
  match previous.filter dom.contains with
  | some sibling => dom.modifyLinks sibling fun links => { links with nextSibling := target }
  | none => dom.modifyLinks parent fun links => { links with firstChild := target }

/-- Makes `target` what precedes the sibling `next`, or the last child of the parent when
there is no such sibling. -/
def linkBackward (dom : Dom) (parent : Handle) (next target : Option Handle) : Dom :=
  match next.filter dom.contains with
  | some sibling => dom.modifyLinks sibling fun links => { links with previousSibling := target }
  | none => dom.modifyLinks parent fun links => { links with lastChild := target }

/-- Links a node that has no parent between two siblings below the parent. -/
def attach (dom : Dom) (parent node : Handle) (previous next : Option Handle) : Dom :=
  let placed := dom.modifyLinks node fun links =>
    { links with parent := some parent, previousSibling := previous, nextSibling := next }
  (placed.linkForward parent previous (some node)).linkBackward parent next (some node)

/-- Takes a node with its subtree out of its place. -/
def detach (dom : Dom) (node : Handle) : Dom :=
  let links := dom.links node
  match links.parent with
  | none => dom
  | some parent =>
      let closed := (dom.linkForward parent links.previousSibling links.nextSibling).linkBackward
        parent links.nextSibling links.previousSibling
      closed.modifyLinks node fun links =>
        { links with parent := none, previousSibling := none, nextSibling := none }

/-! ### Moves -/

/-- Moves the child behind the children of the parent. -/
def appendChild (dom : Dom) (parent child : Handle) : Dom :=
  let detached := dom.detach child
  detached.attach parent child (detached.links parent).lastChild none

/-- Moves the child in front of the reference, or behind all children when there is no
reference or it is not another child of the parent. -/
def insertBefore (dom : Dom) (parent child : Handle) (reference : Option Handle) : Dom :=
  match reference.filter fun sibling => dom.parent? sibling == some parent && sibling != child with
  | some sibling =>
      let detached := dom.detach child
      detached.attach parent child (detached.links sibling).previousSibling (some sibling)
  | none => dom.appendChild parent child

/-- Takes the child out of its place if that is below the parent. -/
def removeChild (dom : Dom) (parent child : Handle) : Dom :=
  if dom.parent? child = some parent then dom.detach child else dom

/-- Frees the node and everything below it. -/
def dropSubtree (dom : Dom) (node : Handle) : Dom :=
  let detached := dom.detach node
  { nodes := (detached.descendants node ++ [node]).foldl Arena.erase detached.nodes }

end DomQuery.Dom

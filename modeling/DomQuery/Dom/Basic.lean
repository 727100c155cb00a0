import DomQuery.Dom.Node

/-!
# The document object model

All nodes of all documents, and of the trees that belong to no document, live in one arena.
This file holds the functions that create a node and those that look at one node.

Every function accepts every handle.  A handle that does not resolve stands for nothing: it is
no element and no document, and has no links.
-/

namespace DomQuery

/-- All nodes of all documents. -/
structure Dom where
  nodes : Arena Node := {}

namespace Dom

/-- The document object model without nodes. -/
def empty : Dom := {}

/-! ### Creation -/

/-- Creates a node without relatives. -/
def create (dom : Dom) (payload : Payload) : Handle × Dom :=
  let made := dom.nodes.allocate { payload := payload }
  (made.1, { nodes := made.2 })

/-- Creates a document. -/
def createDocument (dom : Dom) : Handle × Dom :=
  dom.create .document

/-- Creates an element with the tag name, in lower case, and the attributes. -/
def createElement (dom : Dom) (tagName : String) (attributes : List Attribute) : Handle × Dom :=
  dom.create (.element (Element.new tagName attributes))

/-- Creates a text. -/
def createText (dom : Dom) (data : String) : Handle × Dom :=
  dom.create (.text data)

/-- Creates a comment. -/
def createComment (dom : Dom) (data : String) : Handle × Dom :=
  dom.create (.comment data)

/-! ### One node -/

/-- Whether the handle resolves. -/
def contains (dom : Dom) (node : Handle) : Bool :=
  dom.nodes.contains node

/-- What the node is. -/
def payload? (dom : Dom) (node : Handle) : Option Payload :=
  (dom.nodes.get? node).map Node.payload

/-- The links of the node. -/
def links (dom : Dom) (node : Handle) : Links :=
  ((dom.nodes.get? node).map Node.links).getD {}

/-- The element, if the node is one. -/
def element? (dom : Dom) (node : Handle) : Option Element :=
  (dom.payload? node).bind Payload.element?

/-- Whether the node is an element. -/
def isElement (dom : Dom) (node : Handle) : Bool :=
  (dom.element? node).isSome

/-- Whether the node is a document. -/
def isDocument (dom : Dom) (node : Handle) : Bool :=
  (dom.payload? node).any Payload.isDocument

/-- The tag name of an element. -/
def tagName? (dom : Dom) (node : Handle) : Option String :=
  (dom.element? node).map Element.tagName

/-- The value of the attribute of an element, whose name may be in any case. -/
def attributeValue? (dom : Dom) (node : Handle) (name : String) : Option String :=
  (dom.element? node).bind (·.attributeValue? name)

/-- The first document in the order of the slots. -/
def firstDocument? (dom : Dom) : Option Handle :=
  (dom.nodes.toList.find? fun entry => entry.2.payload.isDocument).map Prod.fst

end Dom

end DomQuery

import DomQuery.Arena.Basic
import DomQuery.Text.Blank
import DomQuery.Text.Fold

/-!
# Nodes

What a node of the tree holds: its payload, which is a document, an element, a text or a
comment, and the links that place it among the other nodes.

An element keeps its `id` and its class list beside its attributes.  Both are functions of the
attributes, and every edit of the attributes computes them anew.
-/

namespace DomQuery

/-- A name with a value. -/
structure Attribute where
  name : String
  value : String
  deriving DecidableEq, Repr

/-- Whether the attribute has the name, up to the case of letters. -/
def Attribute.isNamed (a : Attribute) (name : String) : Bool :=
  Text.sameFolded a.name name

/-- An element: its tag name in lower case, its attributes in the order of their creation, and
what the attributes `id` and `class` say. -/
structure Element where
  tagName : String
  attributes : List Attribute
  id : Option String
  classes : List String
  deriving DecidableEq, Repr

namespace Element

/-- The value of the first attribute with the name. -/
def attributeValue? (element : Element) (name : String) : Option String :=
  (element.attributes.find? (·.isNamed name)).map Attribute.value

/-- The words of a class attribute. -/
def classWords (value : String) : List String :=
  (Text.words value.toList).map String.ofList

/-- The element with the given attributes, and with the `id` and the classes that they say. -/
def withAttributes (element : Element) (attributes : List Attribute) : Element :=
  let bare := { element with attributes := attributes }
  { bare with
    id := bare.attributeValue? "id"
    classes := ((bare.attributeValue? "class").map classWords).getD [] }

/-- The element with the tag name and the attributes. -/
def new (tagName : String) (attributes : List Attribute) : Element :=
  withAttributes ⟨Text.lowercase tagName, [], none, []⟩ attributes

/-- The attributes after giving the value to the first one with the name, or to a new one at
the end when none has it. -/
def assign (name value : String) : List Attribute → List Attribute
  | [] => [⟨name, value⟩]
  | a :: rest =>
      if a.isNamed name then ⟨a.name, value⟩ :: rest else a :: assign name value rest

/-- Gives the attribute a value. -/
def setAttribute (element : Element) (name value : String) : Element :=
  element.withAttributes (assign name value element.attributes)

/-- Removes all attributes with the name. -/
def removeAttribute (element : Element) (name : String) : Element :=
  element.withAttributes (element.attributes.filter fun a => !a.isNamed name)

/-- Whether the class is one of the element's classes. -/
def hasClass (element : Element) (name : String) : Bool :=
  element.classes.contains name

end Element

/-- What a node is. -/
inductive Payload where
  | document
  | element (element : Element)
  | text (data : String)
  | comment (data : String)
  deriving DecidableEq, Repr

namespace Payload

/-- The element, if the node is one. -/
def element? : Payload → Option Element
  | element e => some e
  | _ => none

/-- Whether the node is an element. -/
def isElement (payload : Payload) : Bool :=
  payload.element?.isSome

/-- Whether the node is a document. -/
def isDocument : Payload → Bool
  | document => true
  | _ => false

/-- Whether an element with this child has content: an element, or a text that is not blank. -/
def isContent : Payload → Bool
  | document => false
  | element _ => true
  | text data => !(Text.trim data.toList).isEmpty
  | comment _ => false

/-- Changes the element, if the node is one. -/
def mapElement (f : Element → Element) : Payload → Payload
  | element e => element (f e)
  | payload => payload

end Payload

/-- The places of a node's relatives; the children of a node are chained by their siblings. -/
structure Links where
  parent : Option Handle := none
  previousSibling : Option Handle := none
  nextSibling : Option Handle := none
  firstChild : Option Handle := none
  lastChild : Option Handle := none
  deriving DecidableEq, Repr

/-- A node of the tree. -/
structure Node where
  payload : Payload
  links : Links := {}
  deriving DecidableEq, Repr

end DomQuery

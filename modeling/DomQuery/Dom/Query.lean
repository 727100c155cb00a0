import DomQuery.Dom.Matching
import DomQuery.Selector.Parser

/-!
# Queries with plain selectors

Finding elements below a node, the nearest matching ancestor of an element, and testing one
element.  A text that is no selector is refused first, and then a node that cannot be queried.

The candidates of a query are the nodes below the given one, but a selector may reach above
it.  `:scope` stands for the given element, and for the root element of a given document.
-/

namespace DomQuery

/-- The causes for which a query has no answer. -/
inductive QueryError where
  /-- The text is no selector. -/
  | badSelector (text : String) (cause : SelectorError)
  /-- The node is of a kind that cannot be queried, or the handle does not resolve. -/
  | invalidNode (node : Handle)
  deriving DecidableEq, Repr

/-- The message for a query without answer. -/
def QueryError.message : QueryError → String
  | badSelector text cause => "invalid selector `" ++ text ++ "`: " ++ cause.message
  | invalidNode node =>
      "node GenIndex \x7b index: " ++ toString node.index ++ ", generation: " ++
        toString node.generation.toNat ++ " \x7d is not an element or document"

/-- The selectors that the text writes. -/
def SelectorList.forQuery (text : String) : Except QueryError SelectorList :=
  (SelectorList.ofText text).mapError (.badSelector text)

namespace Dom

/-- What `:scope` stands for in a query below the node. -/
def queryScope (dom : Dom) (node : Handle) : Except QueryError (Option Handle) :=
  if dom.isDocument node then .ok (dom.documentElement? node)
  else if dom.isElement node then .ok (some node)
  else .error (.invalidNode node)

/-- Refuses a node that is no element. -/
def requireElement (dom : Dom) (node : Handle) : Except QueryError Unit :=
  if dom.isElement node then .ok () else .error (.invalidNode node)

/-- The first node below the given one that matches the selector. -/
def querySelector (dom : Dom) (node : Handle) (selector : String) :
    Except QueryError (Option Handle) := do
  let selectors ← SelectorList.forQuery selector
  let scope ← dom.queryScope node
  pure ((dom.descendants node).find? (dom.matchesAny scope selectors))

/-- The nodes below the given one that match the selector, each one before those below it. -/
def querySelectorAll (dom : Dom) (node : Handle) (selector : String) :
    Except QueryError (List Handle) := do
  let selectors ← SelectorList.forQuery selector
  let scope ← dom.queryScope node
  pure ((dom.descendants node).filter (dom.matchesAny scope selectors))

/-- The first one that matches the selector among the element, its parent and so on as far as
they are elements. -/
def closest (dom : Dom) (element : Handle) (selector : String) :
    Except QueryError (Option Handle) := do
  let selectors ← SelectorList.forQuery selector
  dom.requireElement element
  let line := (element :: dom.ancestors element).takeWhile dom.isElement
  pure (line.find? (dom.matchesAny (some element) selectors))

/-- Whether the element matches the selector. -/
def elementMatches (dom : Dom) (element : Handle) (selector : String) :
    Except QueryError Bool := do
  let selectors ← SelectorList.forQuery selector
  dom.requireElement element
  pure (dom.matchesAny (some element) selectors element)

end Dom

end DomQuery

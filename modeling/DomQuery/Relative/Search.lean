import DomQuery.Relative.Plan

/-!
# Queries with extended selectors

`find` and `findAll` search exactly at a context.  `query` and `queryAll` do not need a
context, and search the whole document of an element for a plain selector.  No query fails: a
text that is no selector finds nothing.
-/

namespace DomQuery

/-- What is asked for: an extended selector, or a node, which is its own answer. -/
inductive Target where
  | selector (text : String)
  | node (handle : Handle)
  deriving DecidableEq, Repr

namespace Engine

/-- The plan for a text at a context. -/
def plan (dom : Dom) (text : String) (context : Handle) : EngineM Plan := do
  Plan.ofClauses dom (← parse text) context

/-- The first node found at the context. -/
def find (dom : Dom) (target : Target) (context : Handle) : EngineM (Option Handle) := do
  match target with
  | .node handle => pure (some handle)
  | .selector text =>
      if text.isEmpty then pure none
      else return (← plan dom text context).first dom

/-- All nodes found at the context, each one before those below it. -/
def findAll (dom : Dom) (target : Target) (context : Handle) : EngineM (List Handle) := do
  match target with
  | .node handle => pure [handle]
  | .selector text =>
      if text.isEmpty then pure []
      else return (← plan dom text context).all dom

/-- Where a query searches: a plain selector with an element as context is searched in the
document of the element. -/
def searchContext (dom : Dom) (text : String) (context : Handle) : EngineM Handle := do
  if text.isEmpty || dom.isDocument context then pure context
  else if (← parse text).isRelative then pure context
  else pure (dom.treeTop context)

/-- The first node found; without a context, the first document is searched. -/
def query (dom : Dom) (target : Target) (context : Option Handle) : EngineM (Option Handle) := do
  match target with
  | .node handle => pure (some handle)
  | .selector text =>
      match context.or dom.firstDocument? with
      | none => pure none
      | some context => find dom target (← searchContext dom text context)

/-- All nodes found; without a context, the first document is searched. -/
def queryAll (dom : Dom) (target : Target) (context : Option Handle) :
    EngineM (List Handle) := do
  match target with
  | .node handle => pure [handle]
  | .selector text =>
      match context.or dom.firstDocument? with
      | none => pure []
      | some context => findAll dom target (← searchContext dom text context)

end Engine

namespace Dom

/-- The first node found at the context, by an engine that remembers nothing. -/
def find (dom : Dom) (target : Target) (context : Handle) : Option Handle :=
  ((Engine.find dom target context).run {}).1

/-- All nodes found at the context, by an engine that remembers nothing. -/
def findAll (dom : Dom) (target : Target) (context : Handle) : List Handle :=
  ((Engine.findAll dom target context).run {}).1

/-- The first node found, by an engine that remembers nothing. -/
def query (dom : Dom) (target : Target) (context : Option Handle) : Option Handle :=
  ((Engine.query dom target context).run {}).1

/-- All nodes found, by an engine that remembers nothing. -/
def queryAll (dom : Dom) (target : Target) (context : Option Handle) : List Handle :=
  ((Engine.queryAll dom target context).run {}).1

end Dom

end DomQuery

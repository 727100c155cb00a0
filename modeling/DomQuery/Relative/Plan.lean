import DomQuery.Dom.Query
import DomQuery.Relative.Engine
import DomQuery.Relative.Path

/-!
# Plans

A plan reduces an extended selector at a context to one query with a plain selector, or to an
answer that is already known.

Each clause is located first: its steps `!` and `-` lead from the context to an *anchor*, and
a text is left over that is to be searched from there.  A lone clause is searched at its anchor
with `:scope` standing for it.  Several clauses have several anchors, so each one is written
out with the path of its anchor in front, and all of them are searched together in the whole
document.  A clause without an anchor is dropped.
-/

namespace DomQuery

/-- What is left to do for an extended selector at a context. -/
inductive Plan where
  /-- The answer is known. -/
  | answer (found : Option Handle)
  /-- The nodes below `scope` that match the selector are to be found. -/
  | search (scope : Handle) (selector : String)
  deriving DecidableEq, Repr

namespace Plan

/-- Whether the text begins with the character. -/
def opensWith (text : String) (c : Char) : Bool :=
  text.toList.head? == some c

/-- Whether the text begins with a combinator. -/
def opensWithCombinator (text : String) : Bool :=
  opensWith text '>' || opensWith text '+' || opensWith text '~'

/-! ### Anchors -/

/-- The anchor of a clause that begins with `!`: the nearest match above the context. -/
def anchorAbove (dom : Dom) (context : Handle) (selector : String) : Option Handle :=
  (dom.parentElement? context).bind fun parent =>
    match dom.closest parent selector with
    | .ok found => found
    | .error _ => none

/-- The anchor of a clause that begins with `-`: the element sibling just before the context, if
it matches. -/
def anchorBefore (dom : Dom) (context : Handle) (selector : String) : Option Handle :=
  (dom.previousElement? context).filter fun sibling =>
    match dom.elementMatches sibling selector with
    | .ok found => found
    | .error _ => false

/-- A clause after some of its steps: the node that they lead to, if there is one, and the text
left over. -/
structure Located where
  anchor : Option Handle
  rest : String
  deriving DecidableEq, Repr

/-- Takes the step `!` of a clause, if it begins with one. -/
def stepAbove (dom : Dom) (context : Handle) (clause : String) : EngineM Located := do
  if opensWith clause '!' then
    let step ← Engine.parseAnchor clause
    pure ⟨anchorAbove dom context step.anchor, step.filter⟩
  else pure ⟨some context, clause⟩

/-- Takes the step `-` of a clause, if its text begins with one and there is a node to take it
from. -/
def stepBefore (dom : Dom) (clause : Located) : EngineM Located := do
  match clause.anchor with
  | none => pure clause
  | some node =>
      if opensWith clause.rest '-' then
        let step ← Engine.parseAnchor clause.rest
        pure ⟨anchorBefore dom node step.anchor, step.filter⟩
      else pure clause

/-- Takes the steps of a clause. -/
def locate (dom : Dom) (context : Handle) (clause : String) : EngineM Located := do
  stepBefore dom (← stepAbove dom context clause)

/-! ### Queries -/

/-- The plan for the text of a lone clause at its anchor. -/
def atAnchor (dom : Dom) (anchor : Handle) (rest : String) : Plan :=
  if opensWith rest '+' || opensWith rest '~' then
    match dom.parentElement? anchor, dom.elementPosition? anchor with
    | some parent, some position =>
        .search parent (":scope > :nth-child(" ++ toString position ++ ") " ++ rest)
    | _, _ => .answer none
  else if opensWith rest '>' then .search anchor (":scope " ++ rest)
  else .search anchor rest

/-- The plan for a lone clause. -/
def ofSingle (dom : Dom) (clause : Located) : Plan :=
  if clause.rest.isEmpty then .answer clause.anchor
  else
    match clause.anchor with
    | none => .answer none
    | some anchor => atAnchor dom anchor clause.rest

/-- A clause written out from the document.  From a document no combinator leads anywhere. -/
def writtenOut (dom : Dom) (clause : Located) : Option String :=
  clause.anchor.bind fun anchor =>
    let path := dom.path anchor
    if path.isEmpty && opensWithCombinator clause.rest then none
    else some (String.ofList (Text.trim (path ++ " " ++ clause.rest).toList))

/-- The plan for several clauses. -/
def ofSeveral (dom : Dom) (context : Handle) (clauses : List Located) : Plan :=
  match clauses.filterMap (writtenOut dom) with
  | [] => .answer none
  | texts => .search (dom.treeTop context) (",".intercalate texts)

/-- The plan for a clause list at a context. -/
def ofClauses (dom : Dom) (list : ClauseList) (context : Handle) : EngineM Plan := do
  if list.isRelative then
    match list.clauses with
    | [clause] => pure (ofSingle dom (← locate dom context clause))
    | clauses => pure (ofSeveral dom context (← clauses.mapM (locate dom context)))
  else pure (.search context list.normalized)

/-- The first node that the plan finds; a query without an answer finds none. -/
def first (dom : Dom) : Plan → Option Handle
  | .answer found => found
  | .search scope selector =>
      match dom.querySelector scope selector with
      | .ok found => found
      | .error _ => none

/-- The nodes that the plan finds; a query without an answer finds none. -/
def all (dom : Dom) : Plan → List Handle
  | .answer found => found.toList
  | .search scope selector =>
      match dom.querySelectorAll scope selector with
      | .ok found => found
      | .error _ => []

end Plan

end DomQuery

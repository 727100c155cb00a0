import DomQuery.Relative.Clause
import DomQuery.Relative.Memo

/-!
# The engine

Extended selectors are cut into clauses, and relative clauses into anchor and filter, again
and again with the same texts.  An engine remembers both.
-/

namespace DomQuery

/-- The clause lists and anchor clauses met so far. -/
structure Engine where
  selectors : Memo ClauseList.ofText := {}
  anchors : Memo AnchorClause.ofText := {}

/-- A computation that asks an engine. -/
abbrev EngineM := StateM Engine

namespace Engine

/-- The clauses of the text. -/
def parse (text : String) : EngineM ClauseList :=
  modifyGet fun engine =>
    let found := engine.selectors.get text
    (found.1, { engine with selectors := found.2 })

/-- The anchor and the filter of the clause. -/
def parseAnchor (clause : String) : EngineM AnchorClause :=
  modifyGet fun engine =>
    let found := engine.anchors.get clause
    (found.1, { engine with anchors := found.2 })

end Engine

end DomQuery

import DomQuery.Dom.Edit
import DomQuery.Relative.Search
import DomQuery.Proofs.Arena.Vacancy
import DomQuery.Proofs.Dom.Attributes
import DomQuery.Proofs.Dom.ChildLists
import DomQuery.Proofs.Dom.ElementSiblings
import DomQuery.Proofs.Dom.FirstDocument
import DomQuery.Proofs.Dom.Freeing
import DomQuery.Proofs.Dom.Preorder
import DomQuery.Proofs.Dom.StaleMoves
import DomQuery.Proofs.Matching.Chain
import DomQuery.Proofs.Matching.Names
import DomQuery.Proofs.Matching.ScopeAtDocument
import DomQuery.Proofs.Matching.ScopeFree
import DomQuery.Proofs.Matching.Siblings
import DomQuery.Proofs.Selector.Advance
import DomQuery.Proofs.Selector.Arguments
import DomQuery.Proofs.Selector.Microsyntax
import DomQuery.Proofs.Selector.Shape
import DomQuery.Proofs.Selector.Vocabulary
import DomQuery.Proofs.Relative.Apart
import DomQuery.Proofs.Relative.Detached
import DomQuery.Proofs.Relative.Lone
import DomQuery.Proofs.Relative.Plain
import DomQuery.Proofs.Relative.Session
import DomQuery.Proofs.Relative.Steps
import DomQuery.Proofs.Relative.Union
import DomQuery.Proofs.Relative.Dangling
import DomQuery.Proofs.Relative.Rejoining

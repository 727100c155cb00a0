import DomQuery.Proofs.Dom.Reachable
import DomQuery.Proofs.Dom.TreeOrder
import DomQuery.Proofs.Matching.Query
import DomQuery.Proofs.Matching.Scope
import Mathlib.Data.List.TakeWhile

/-!
# Queries without `:scope`

A selector that does not hold `:scope`, at any depth, says the same of a node wherever it is asked
from.  So the node that a query begins at only limits where its answers lie, and an answer never
changes when the query begins further up (`Dom.scopeFree_of_not_usesScope`).

What is found below a node is therefore what is found from above it, as far as it lies below the
node.  The order is the same on both sides, because the descendants of a node stand in the
descendants of every node above it in their own order (`Dom.Forest.filter_descendants`).  And the
ancestors that are tested one after another for the closest match are each tested as if asked on
their own.
-/

namespace DomQuery.Dom

variable {dom : Dom} {kids : Handle → List Handle} {node top element : Handle} {text : String}
  {selectors : SelectorList}

/-! ### The nodes below a node -/

/-- In a list without repetitions, the items of a part of it are this part. -/
theorem filter_mem_of_sublist {part whole : List Handle} (hpart : part.Sublist whole)
    (hwhole : whole.Nodup) : (whole.filter fun item => item ∈ part) = part := by
  have hkept : (part.filter fun item => item ∈ part) = part :=
    List.filter_eq_self.mpr fun item hitem => decide_eq_true hitem
  have hsublist := hpart.filter fun item => item ∈ part
  rw [hkept] at hsublist
  have hsubset : (whole.filter fun item => item ∈ part) ⊆ part := fun item hitem =>
    of_decide_eq_true (List.mem_filter.mp hitem).2
  have hlength := ((hwhole.filter _).subperm hsubset).length_le
  exact (hsublist.eq_of_length_le hlength).symm

theorem Forest.filter_descendants (h : Forest dom kids) (hmem : node ∈ dom.descendants top) :
    ((dom.descendants top).filter fun other => other ∈ dom.descendants node) =
      dom.descendants node := by
  have hwithin : dom.Within node top := (h.mem_descendants.mp hmem).to_reflTransGen
  exact filter_mem_of_sublist (h.descendants_sublist hwithin) (h.nodup_descendants top)

/-- The element, its parent element, the parent element of that one and so on. -/
theorem Forest.trail_line (h : Forest dom kids) (helement : dom.isElement element = true) :
    Trail dom.parentElement? (some element)
      ((element :: dom.ancestors element).takeWhile dom.isElement) := by
  rw [List.takeWhile_cons_of_pos helement]
  exact Trail.cons (h.trail_elementAncestors element)

/-! ### What does not depend on the scope -/

/-- The node that the text is asked from does not matter for what it says of a node: neither the
scope, nor where a query begins, nor which element the closest match is looked for from. -/
structure ScopeFree (dom : Dom) (text : String) (selectors : SelectorList) : Prop where
  matchesAny_eq : ∀ (first second : Option Handle) (node : Handle),
    dom.matchesAny first selectors node = dom.matchesAny second selectors node
  querySelectorAll_below : ∀ {top node : Handle},
    dom.isElement top = true ∨ dom.isDocument top = true →
    dom.isElement node = true ∨ dom.isDocument node = true → node ∈ dom.descendants top →
    ∃ found, dom.querySelectorAll top text = .ok found ∧
      dom.querySelectorAll node text =
        .ok (found.filter fun other => other ∈ dom.descendants node)
  closest_eq : ∀ {element : Handle}, dom.isElement element = true →
    ∃ line, Trail dom.parentElement? (some element) line ∧
      dom.closest element text =
        .ok (line.find? fun other => dom.elementMatches other text = .ok true)

/-- **Only `:scope` looks at the scope.**  A selector without it finds below a node what it finds
from above, and its closest match is the first of the element and the elements above it that it
matches on its own. -/
theorem scopeFree_of_not_usesScope (hdom : dom.Reachable)
    (hread : SelectorList.ofText text = .ok selectors) (hscope : anyUsesScope selectors = false) :
    dom.ScopeFree text selectors := by
  have hsame := fun first second node =>
    dom.matchesAny_of_not_usesScope first second hscope node
  refine ⟨hsame, ?_, ?_⟩
  · intro top node htop hnode hmem
    obtain ⟨outer, houter⟩ := exists_queryScope htop
    obtain ⟨inner, hinner⟩ := exists_queryScope hnode
    refine ⟨_, querySelectorAll_of_ofText hread houter, ?_⟩
    rw [querySelectorAll_of_ofText hread hinner, List.filter_comm,
      hdom.forest.filter_descendants hmem, funext (hsame inner outer)]
  · intro element helement
    refine ⟨_, hdom.forest.trail_line helement, ?_⟩
    -- every node of the line is an element, so it can be tested alone
    have halone : ∀ other ∈ (element :: dom.ancestors element).takeWhile dom.isElement,
        dom.matchesAny (some element) selectors other =
          decide (dom.elementMatches other text = .ok true) := by
      intro other hother
      have hother := List.mem_takeWhile_imp hother
      rw [elementMatches_of_ofText hother hread, hsame (some element) (some other)]
      simp
    rw [closest_of_ofText helement hread, ← List.head?_filter, ← List.head?_filter,
      List.filter_congr halone]

/-- A selector with a list of selectors in a list of selectors. -/
theorem scopeFree_listing :
    listing.ScopeFree "ul > :not(ul, :is(#a))" [.combined (.compound [.tag "ul"]) .child
      [.notAny [.compound [.tag "ul"], .compound [.isAny [.compound [.id "a"]]]]]] := by
  have htokens : Token.ofText "ul > :not(ul, :is(#a))" = .ok [.ident "ul", .whitespace, .delim '>',
      .whitespace, .colon, .function "not", .ident "ul", .comma, .whitespace, .colon,
      .function "is", .hash "a" true, .rightParen, .rightParen] := by decide +kernel
  refine scopeFree_of_not_usesScope reachable_listing ?_ (by decide)
  rw [SelectorList.ofText, htokens]
  rfl

end DomQuery.Dom

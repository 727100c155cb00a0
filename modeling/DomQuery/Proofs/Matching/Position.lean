import DomQuery.Proofs.Dom.Elements
import DomQuery.Proofs.Selector.Positions

/-!
# Elements by their position

An element stands at a position among the element children of its parent, and two children at
the same position are one (`Dom.eq_of_same_position`).  Positions are 32-bit numbers in selectors,
so this needs a bound on the number of children.
-/

namespace DomQuery.Dom

variable {dom : Dom} {kids : Handle → List Handle} {parent node other : Handle}

/-- Two places in a list with as many items in front of them hold the same item. -/
theorem eq_of_same_position {nodes before after left right : List Handle}
    (hnode : nodes = before ++ node :: after) (hother : nodes = left ++ other :: right)
    (hlength : before.length = left.length) : node = other := by
  have htail := (List.append_inj (hnode.symm.trans hother) hlength).2
  exact (List.cons.inj htail).1

/-- A single position in a selector is met by the element there. -/
theorem Forest.satisfies_nthChild_single (h : Forest dom kids) (scope : Option Handle)
    {before after : List Handle}
    (hsplit : dom.elementChildren parent = before ++ node :: after)
    (hbound : (dom.elementChildren parent).length < 2147483648) {position : Nat}
    (hposition : position < 2147483648) (element : Element) :
    dom.satisfies scope (.nthChild (.single position)) node element = true ↔
      before.length + 1 = position := by
  have hparent : dom.hasParent node = true := by
    have hmem : node ∈ dom.elementChildren parent := by simp [hsplit]
    rw [hasParent, h.parent_of_mem_elementChildren hmem, Option.isSome_some]
  have hlength : before.length + 1 < 2147483648 := by
    have hall := congrArg List.length hsplit
    simp only [List.length_append, List.length_cons] at hall
    omega
  rw [satisfies, hparent, Bool.true_and, h.elementIndex?_eq hsplit, Option.any_some, holdsAfter]
  exact AnPlusB.holdsAt_single hposition hlength

end DomQuery.Dom

import DomQuery.Proofs.Dom.Reachable
import DomQuery.Proofs.Matching.Position
import DomQuery.Proofs.Selector.Progression

/-!
# Places among siblings

The pseudo-classes on the place of an element read it off the tree in different ways: from the
nearest elements that the sibling links lead to, from a count along these links, and from the list
of element children.  In a forest all of them speak of one list: an element stands somewhere among
the element children of its parent, some in front of it and some behind it, and each of the
pseudo-classes is a condition on how many these are.

The lemmas below take such a list apart at the element (`nodes = before ++ node :: after`), first
for any list without repetitions and then for the siblings; the main statement
(`matchesPlace_of_reachable`) puts the place of the element in the list instead.
-/

namespace DomQuery

/-- Whether the condition is about the place of an element among its siblings. -/
def SimpleSelector.isPlace : SimpleSelector → Bool
  | .pseudoClass .firstChild => true
  | .pseudoClass .lastChild => true
  | .pseudoClass .onlyChild => true
  | .pseudoClass .firstOfType => true
  | .pseudoClass .lastOfType => true
  | .pseudoClass .onlyOfType => true
  | .nthChild _ => true
  | .nthLastChild _ => true
  | _ => false

namespace Dom

/-- The node is an element that meets the condition. -/
def Meets (dom : Dom) (scope : Option Handle) (simple : SimpleSelector) (node : Handle) : Prop :=
  dom.matchesComplex scope (.compound [simple]) node = true

/-- The place of the node in the list, counted from one. -/
def place (nodes : List Handle) (node : Handle) : Nat :=
  nodes.idxOf node + 1

/-- The conditions on the place of the node are read off the elements with the same parent, and
off those among them that have the same tag name. -/
structure MatchesPlace (dom : Dom) (scope : Option Handle) (node : Handle)
    (elements sameType : List Handle) : Prop where
  mem_elements : node ∈ elements
  mem_sameType : node ∈ sameType
  nodup : elements.Nodup
  firstChild : dom.Meets scope (.pseudoClass .firstChild) node ↔ place elements node = 1
  lastChild : dom.Meets scope (.pseudoClass .lastChild) node ↔
    place elements node = elements.length
  onlyChild : dom.Meets scope (.pseudoClass .onlyChild) node ↔ elements.length = 1
  firstOfType : dom.Meets scope (.pseudoClass .firstOfType) node ↔ place sameType node = 1
  lastOfType : dom.Meets scope (.pseudoClass .lastOfType) node ↔
    place sameType node = sameType.length
  onlyOfType : dom.Meets scope (.pseudoClass .onlyOfType) node ↔ sameType.length = 1
  nthChild : ∀ positions, dom.Meets scope (.nthChild positions) node ↔
    ∃ count : Nat, positions.a.toInt * count + positions.b.toInt = place elements node
  /-- Places count from the end here. -/
  nthLastChild : ∀ positions, dom.Meets scope (.nthLastChild positions) node ↔
    ∃ count : Nat, positions.a.toInt * count + positions.b.toInt =
      elements.length - place elements node + 1

/-! ### A list taken apart at one of its nodes -/

section Split

variable {nodes before after : List Handle} {node : Handle}

theorem place_eq (hnodup : nodes.Nodup) (hsplit : nodes = before ++ node :: after) :
    place nodes node = before.length + 1 := by
  subst hsplit
  have hnotin : node ∉ before := fun hmem =>
    (List.disjoint_of_nodup_append hnodup) hmem List.mem_cons_self
  rw [place, List.idxOf_append_of_notMem hnotin, List.idxOf_cons_self, Nat.add_zero]

theorem head?_eq_some_iff_before (hnodup : nodes.Nodup)
    (hsplit : nodes = before ++ node :: after) : nodes.head? = some node ↔ before.length = 0 := by
  subst hsplit
  cases before with
  | nil => simp
  | cons first before =>
      have hne : first ≠ node := by
        rintro rfl
        simp at hnodup
      simp [hne]

theorem getLast?_eq_some_iff_after (hnodup : nodes.Nodup)
    (hsplit : nodes = before ++ node :: after) :
    nodes.getLast? = some node ↔ after.length = 0 := by
  have hreverse : nodes.reverse = after.reverse ++ node :: before.reverse := by simp [hsplit]
  rw [← List.head?_reverse, head?_eq_some_iff_before (List.nodup_reverse.mpr hnodup) hreverse,
    List.length_reverse]

theorem idxOf?_reverse_eq (hnodup : nodes.Nodup) (hsplit : nodes = before ++ node :: after) :
    nodes.reverse.idxOf? node = some after.length := by
  have hreverse : nodes.reverse = after.reverse ++ node :: before.reverse := by simp [hsplit]
  have hplace := place_eq (List.nodup_reverse.mpr hnodup) hreverse
  rw [place, Nat.add_right_cancel_iff, List.length_reverse, List.idxOf_eq_getD_idxOf?] at hplace
  obtain ⟨index, hindex⟩ : ∃ index, nodes.reverse.idxOf? node = some index :=
    Option.isSome_iff_exists.mp (List.isSome_idxOf?.mpr (by simp [hreverse]))
  rw [hindex, Option.getD_some] at hplace
  rw [hindex, hplace]

end Split

/-! ### The conditions in a forest -/

variable {dom : Dom} {kids : Handle → List Handle} {scope : Option Handle}
  {parent node : Handle} {element : Element} {before after : List Handle}

theorem meets_iff (helement : dom.element? node = some element) (simple : SimpleSelector) :
    dom.Meets scope simple node ↔ dom.satisfies scope simple node element = true := by
  simp [Meets, matchesComplex, satisfiesAll, helement]

/-- A number of elements in front is looked up among the positions as the place behind them. -/
theorem holdsAfter_iff {count : Nat} (hcount : count + 1 < 2147483648) (positions : AnPlusB) :
    holdsAfter positions count = true ↔
      ∃ factor : Nat, positions.a.toInt * factor + positions.b.toInt = (count + 1 : Nat) := by
  rw [holdsAfter, AnPlusB.holdsAt_iff, Int32.toInt_ofNat_of_lt hcount]

namespace Forest

section Parent

variable (h : Forest dom kids) (hsplit : dom.elementChildren parent = before ++ node :: after)
  (helement : dom.element? node = some element)

include h hsplit

theorem hasParent_eq : dom.hasParent node = true := by
  have hmem : node ∈ dom.elementChildren parent := by simp [hsplit]
  rw [hasParent, h.parent_of_mem_elementChildren hmem, Option.isSome_some]

theorem siblings_eq : dom.siblings node = dom.elementChildren parent := by
  have hmem : node ∈ dom.elementChildren parent := by simp [hsplit]
  rw [siblings, h.parent_of_mem_elementChildren hmem, Option.map_some, Option.getD_some]

include helement

theorem meets_firstChild :
    dom.Meets scope (.pseudoClass .firstChild) node ↔ before.length = 0 := by
  rw [meets_iff helement, satisfies, inState, h.hasParent_eq hsplit, h.previousElement?_eq hsplit]
  simp

theorem meets_lastChild :
    dom.Meets scope (.pseudoClass .lastChild) node ↔ after.length = 0 := by
  rw [meets_iff helement, satisfies, inState, h.hasParent_eq hsplit, h.nextElement?_eq hsplit]
  simp

theorem meets_onlyChild :
    dom.Meets scope (.pseudoClass .onlyChild) node ↔ before.length = 0 ∧ after.length = 0 := by
  rw [meets_iff helement, satisfies, inState, h.hasParent_eq hsplit, h.previousElement?_eq hsplit,
    h.nextElement?_eq hsplit]
  simp

theorem meets_nthChild (hbound : (dom.elementChildren parent).length < 2147483648)
    (positions : AnPlusB) : dom.Meets scope (.nthChild positions) node ↔
      ∃ factor : Nat,
        positions.a.toInt * factor + positions.b.toInt = (before.length + 1 : Nat) := by
  have hcount : before.length + 1 < 2147483648 := by
    rw [hsplit, List.length_append, List.length_cons] at hbound
    omega
  rw [meets_iff helement, satisfies, h.hasParent_eq hsplit, h.elementIndex?_eq hsplit,
    Bool.true_and, Option.any_some, holdsAfter_iff hcount]

theorem meets_nthLastChild (hbound : (dom.elementChildren parent).length < 2147483648)
    (positions : AnPlusB) : dom.Meets scope (.nthLastChild positions) node ↔
      ∃ factor : Nat,
        positions.a.toInt * factor + positions.b.toInt = (after.length + 1 : Nat) := by
  have hcount : after.length + 1 < 2147483648 := by
    rw [hsplit, List.length_append, List.length_cons] at hbound
    omega
  rw [meets_iff helement, satisfies, h.siblings_eq hsplit,
    idxOf?_reverse_eq (h.nodup_elementChildren parent) hsplit, Option.any_some,
    holdsAfter_iff hcount]

/-- The elements of the same type are taken apart by the node as well. -/
theorem siblingsOfType_eq : dom.siblingsOfType node element.tagName =
    (dom.elementChildren parent).filter (fun sibling => dom.tagName? sibling == dom.tagName? node)
      ∧ ∃ left right, dom.siblingsOfType node element.tagName = left ++ node :: right := by
  have hname : dom.tagName? node = some element.tagName := by
    rw [tagName?, helement, Option.map_some]
  rw [siblingsOfType, h.siblings_eq hsplit, hname]
  refine ⟨rfl, List.append_of_mem (List.mem_filter.mpr ⟨by simp [hsplit], ?_⟩)⟩
  rw [hname, beq_self_eq_true]

end Parent

/-- The place of an element in the lists decides the conditions. -/
theorem matchesPlace (h : Forest dom kids) (hparent : dom.parent? node = some parent)
    (helement : dom.element? node = some element)
    (hbound : (dom.elementChildren parent).length < 2147483648) :
    dom.MatchesPlace scope node (dom.elementChildren parent)
      ((dom.elementChildren parent).filter fun sibling =>
        dom.tagName? sibling == dom.tagName? node) := by
  have hiselement : dom.isElement node = true := by rw [isElement, helement, Option.isSome_some]
  obtain ⟨before, after, hsplit⟩ := h.exists_elementChildren_split hparent hiselement
  obtain ⟨htype, left, right, hsplit'⟩ := h.siblingsOfType_eq hsplit helement
  have hnodup := h.nodup_elementChildren parent
  have hnodup' : (dom.siblingsOfType node element.tagName).Nodup := by
    rw [htype]
    exact hnodup.filter _
  have hplace := place_eq hnodup hsplit
  have hplace' := place_eq hnodup' hsplit'
  have hlength : (dom.elementChildren parent).length = before.length + after.length + 1 := by
    rw [hsplit, List.length_append, List.length_cons, Nat.add_assoc]
  have hlength' : (dom.siblingsOfType node element.tagName).length =
      left.length + right.length + 1 := by
    rw [hsplit', List.length_append, List.length_cons, Nat.add_assoc]
  rw [← htype]
  constructor
  case mem_elements => simp [hsplit]
  case mem_sameType => simp [hsplit']
  case nodup => exact hnodup
  case firstChild =>
    rw [h.meets_firstChild hsplit helement, hplace]
    omega
  case lastChild =>
    rw [h.meets_lastChild hsplit helement, hplace, hlength]
    omega
  case onlyChild =>
    rw [h.meets_onlyChild hsplit helement, hlength]
    omega
  case firstOfType =>
    rw [meets_iff helement, satisfies, inState, beq_iff_eq,
      head?_eq_some_iff_before hnodup' hsplit', hplace']
    omega
  case lastOfType =>
    rw [meets_iff helement, satisfies, inState, beq_iff_eq,
      getLast?_eq_some_iff_after hnodup' hsplit', hplace', hlength']
    omega
  case onlyOfType =>
    rw [meets_iff helement, satisfies, inState, beq_iff_eq]
    constructor
    · intro hone
      rw [hone, List.length_singleton]
    · intro hone
      rw [hlength'] at hone
      rw [hsplit', List.length_eq_zero_iff.mp (show left.length = 0 by omega),
        List.length_eq_zero_iff.mp (show right.length = 0 by omega), List.nil_append]
  case nthChild =>
    intro positions
    rw [h.meets_nthChild hsplit helement hbound, hplace]
  case nthLastChild =>
    intro positions
    have hback : ((dom.elementChildren parent).length : Int) -
        place (dom.elementChildren parent) node + 1 = (after.length + 1 : Nat) := by
      rw [hlength, hplace]
      omega
    rw [h.meets_nthLastChild hsplit helement hbound, hback]

end Forest

/-- Without a parent there is no place. -/
theorem not_meets_of_isPlace (halone : dom.parent? node = none) {simple : SimpleSelector}
    (hplace : simple.isPlace = true) : ¬ dom.Meets scope simple node := by
  have hparent : dom.hasParent node = false := by rw [hasParent, halone, Option.isSome_none]
  have hsiblings : dom.siblings node = [] := by
    rw [siblings, halone, Option.map_none, Option.getD_none]
  intro hmeets
  cases helement : dom.element? node with
  | none => simp [Meets, matchesComplex, helement] at hmeets
  | some element =>
      rw [meets_iff helement] at hmeets
      unfold SimpleSelector.isPlace at hplace
      split at hplace <;>
        simp [satisfies, inState, siblingsOfType, hparent, hsiblings] at hmeets hplace

/-- **The conditions on the place of an element are conditions on its place in the list of its
element siblings.**  An element without a parent meets none of them. -/
theorem matchesPlace_of_reachable (h : dom.Reachable) (scope : Option Handle)
    (helement : dom.isElement node = true) :
    (∀ parent, dom.parent? node = some parent →
      (dom.elementChildren parent).length < 2147483648 →
        dom.MatchesPlace scope node (dom.elementChildren parent)
          ((dom.elementChildren parent).filter fun sibling =>
            dom.tagName? sibling == dom.tagName? node)) ∧
      (dom.parent? node = none → ∀ simple : SimpleSelector, simple.isPlace = true →
        ¬ dom.Meets scope simple node) := by
  obtain ⟨element, hsome⟩ := exists_element helement
  refine ⟨fun parent hparent hbound => ?_, fun halone simple => not_meets_of_isPlace halone⟩
  exact h.forest.matchesPlace hparent hsome hbound

/-- In the outline the last item is the third of the elements below the root element, with a text
among them, and the second of its type. -/
theorem matchesPlace_outline :
    outline.isElement ⟨7, 0⟩ = true ∧ outline.parent? ⟨7, 0⟩ = some ⟨1, 0⟩ ∧
      outline.children ⟨1, 0⟩ = [⟨2, 0⟩, ⟨5, 0⟩, ⟨6, 0⟩, ⟨7, 0⟩] ∧
      outline.MatchesPlace none ⟨7, 0⟩ [⟨2, 0⟩, ⟨6, 0⟩, ⟨7, 0⟩] [⟨2, 0⟩, ⟨7, 0⟩] ∧
      place [⟨2, 0⟩, ⟨6, 0⟩, ⟨7, 0⟩] ⟨7, 0⟩ = 3 :=
  ⟨by decide, by decide, by decide,
    (matchesPlace_of_reachable reachable_outline none (by decide)).1 ⟨1, 0⟩ (by decide)
      (by decide), by decide⟩

end Dom

end DomQuery

import DomQuery.Dom.Matching
import DomQuery.Proofs.Dom.Relatives

/-!
# Elements among the relatives

The walks that see elements only, in a forest: the ancestors as far as they are elements
(`Forest.elementAncestors_eq`), and the elements before and behind an element among the children
of its parent (`Forest.precedingElements_eq`).
-/

namespace DomQuery.Dom

/-- A trail along a step that stops in front of the first node without a property. -/
theorem Trail.takeWhile {step : Handle → Option Handle} {start : Option Handle}
    {nodes : List Handle} (h : Trail step start nodes) (p : Handle → Bool) :
    Trail (fun node => (step node).filter p) (start.filter p) (nodes.takeWhile p) := by
  induction h with
  | nil => exact Trail.nil
  | @cons node nodes _ ih =>
      cases hp : p node with
      | true =>
          rw [List.takeWhile_cons_of_pos hp, Option.filter_some_pos hp]
          exact Trail.cons ih
      | false =>
          rw [List.takeWhile_cons_of_neg (by simp [hp]), Option.filter_some_neg (by simp [hp])]
          exact Trail.nil

/-! ### What elements have -/

section Names

variable {dom : Dom} {node : Handle}

theorem exists_element (helement : dom.isElement node = true) :
    ∃ element, dom.element? node = some element := by
  rw [isElement] at helement
  exact Option.isSome_iff_exists.mp helement

theorem exists_tagName (helement : dom.isElement node = true) :
    ∃ name, dom.tagName? node = some name := by
  obtain ⟨element, hsome⟩ := exists_element helement
  exact ⟨element.tagName, by rw [tagName?, hsome, Option.map_some]⟩

theorem isElement_of_tagName? {name : String} (hname : dom.tagName? node = some name) :
    dom.isElement node = true := by
  obtain ⟨element, helement, -⟩ := Option.map_eq_some_iff.mp hname
  rw [isElement, helement, Option.isSome_some]

end Names

namespace Forest

variable {dom : Dom} {kids : Handle → List Handle}

/-! ### Upwards -/

theorem trail_elementAncestors (h : Forest dom kids) (node : Handle) :
    Trail dom.parentElement? (dom.parentElement? node)
      ((dom.ancestors node).takeWhile dom.isElement) :=
  (h.trail_ancestors node).takeWhile dom.isElement

theorem elementAncestors_eq (h : Forest dom kids) (node : Handle) :
    dom.elementAncestors node = (dom.ancestors node).takeWhile dom.isElement := by
  refine (h.trail_elementAncestors node).follow_eq ?_
  have hle := (List.takeWhile_sublist (p := dom.isElement) (l := dom.ancestors node)).length_le
  cases hlive : dom.contains node with
  | true =>
      have hlt := h.ancestors_length_lt hlive
      unfold walkLimit
      omega
  | false =>
      have halone : dom.parent? node = none := by
        rw [parent?, dom.links_of_not_contains hlive]
      rw [h.ancestors_of_alone halone]
      exact Nat.zero_le _

theorem mem_elementAncestors (h : Forest dom kids) {node other : Handle} :
    other ∈ dom.elementAncestors node ↔
      Relation.TransGen (Leads dom.parentElement?) node other := by
  rw [h.elementAncestors_eq]
  exact (h.trail_elementAncestors node).mem_iff_transGen

/-! ### Sideways -/

/-- The nearest element on the left of a child is the last element of the children in front. -/
theorem previousElement?_eq_getLast? (h : Forest dom kids) {parent child : Handle}
    {before after : List Handle} (hsplit : kids parent = before ++ child :: after) :
    dom.previousElement? child = (before.filter dom.isElement).getLast? := by
  rw [previousElement?, h.precedingSiblings_eq hsplit, ← List.head?_filter, List.filter_reverse,
    List.head?_reverse]

/-- The nearest element on the right of a child is the first element of the children behind. -/
theorem nextElement?_eq_head? (h : Forest dom kids) {parent child : Handle}
    {before after : List Handle} (hsplit : kids parent = before ++ child :: after) :
    dom.nextElement? child = (after.filter dom.isElement).head? := by
  rw [nextElement?, h.followingSiblings_eq hsplit, ← List.head?_filter]

/-- The position of an element among the elements comes from its position among all
children. -/
theorem exists_children_split (h : Forest dom kids) {parent child : Handle}
    {before after : List Handle}
    (hsplit : dom.elementChildren parent = before ++ child :: after) :
    ∃ left right, kids parent = left ++ child :: right ∧
      left.filter dom.isElement = before ∧ right.filter dom.isElement = after := by
  rw [elementChildren, h.children_eq, List.filter_eq_append_iff] at hsplit
  obtain ⟨left, rest, hkids, hleft, hrest⟩ := hsplit
  obtain ⟨skipped, right, rfl, hskipped, -, hright⟩ := List.filter_eq_cons_iff.mp hrest
  refine ⟨left ++ skipped, right, by simp [hkids], ?_, hright⟩
  rw [List.filter_append, hleft, List.filter_eq_nil_iff.mpr hskipped, List.append_nil]

theorem exists_elementChildren_split (h : Forest dom kids) {parent child : Handle}
    (hparent : dom.parent? child = some parent) (helement : dom.isElement child = true) :
    ∃ before after, dom.elementChildren parent = before ++ child :: after := by
  refine List.append_of_mem (List.mem_filter.mpr ⟨?_, helement⟩)
  rw [h.children_eq]
  exact (h.parent_iff child parent).mp hparent

/-- The elements in front of an element, where it stands among the children. -/
theorem precedingElements_eq (h : Forest dom kids) {parent child : Handle}
    {before after : List Handle}
    (hsplit : dom.elementChildren parent = before ++ child :: after) :
    dom.precedingElements child = before.reverse := by
  obtain ⟨left, right, hkids, hleft, -⟩ := h.exists_children_split hsplit
  rw [precedingElements, h.precedingSiblings_eq hkids, List.filter_reverse, hleft]

theorem previousElement?_eq (h : Forest dom kids) {parent child : Handle}
    {before after : List Handle}
    (hsplit : dom.elementChildren parent = before ++ child :: after) :
    dom.previousElement? child = before.getLast? := by
  obtain ⟨left, right, hkids, hleft, -⟩ := h.exists_children_split hsplit
  rw [h.previousElement?_eq_getLast? hkids, hleft]

/-- The elements behind an element, where it stands among the children. -/
theorem followingElements_eq (h : Forest dom kids) {parent child : Handle}
    {before after : List Handle}
    (hsplit : dom.elementChildren parent = before ++ child :: after) :
    (dom.followingSiblings child).filter dom.isElement = after := by
  obtain ⟨left, right, hkids, -, hright⟩ := h.exists_children_split hsplit
  rw [h.followingSiblings_eq hkids, hright]

theorem nextElement?_eq (h : Forest dom kids) {parent child : Handle}
    {before after : List Handle}
    (hsplit : dom.elementChildren parent = before ++ child :: after) :
    dom.nextElement? child = after.head? := by
  obtain ⟨left, right, hkids, -, hright⟩ := h.exists_children_split hsplit
  rw [h.nextElement?_eq_head? hkids, hright]

/-- The index of an element is its place among the element children of its parent. -/
theorem elementIndex?_eq (h : Forest dom kids) {parent child : Handle}
    {before after : List Handle}
    (hsplit : dom.elementChildren parent = before ++ child :: after) :
    dom.elementIndex? child = some before.length := by
  have helement : dom.isElement child = true := by
    have hmem : child ∈ dom.elementChildren parent := by simp [hsplit]
    exact (List.mem_filter.mp hmem).2
  rw [elementIndex?, if_pos helement, h.precedingElements_eq hsplit, List.length_reverse]

theorem nodup_elementChildren (h : Forest dom kids) (parent : Handle) :
    (dom.elementChildren parent).Nodup := by
  rw [elementChildren, h.children_eq]
  exact (h.nodup parent).filter _

theorem parent_of_mem_elementChildren (h : Forest dom kids) {parent child : Handle}
    (hmem : child ∈ dom.elementChildren parent) : dom.parent? child = some parent := by
  refine (h.parent_iff child parent).mpr ?_
  rw [← h.children_eq]
  exact List.mem_of_mem_filter hmem

theorem precedingElements_of_alone (h : Forest dom kids) {child : Handle}
    (halone : dom.parent? child = none) : dom.precedingElements child = [] := by
  rw [precedingElements, (h.siblings_eq_nil halone).1, List.filter_nil]

/-! ### Below a node -/

section Below

variable {node parent top : Handle}

theorem parent_of_mem_descendants (h : Forest dom kids) (hmem : node ∈ dom.descendants top)
    (hparent : dom.parent? node = some parent) :
    parent = top ∨ parent ∈ dom.descendants top := by
  obtain ⟨next, hstep, hrest⟩ := Relation.TransGen.head'_iff.mp (h.mem_descendants.mp hmem)
  have heq : next = parent := Option.some.inj ((hstep : _ = _).symm.trans hparent)
  rw [heq] at hrest
  rcases Relation.reflTransGen_iff_eq_or_transGen.mp hrest with hsame | hbelow
  · exact Or.inl hsame.symm
  · exact Or.inr (h.mem_descendants.mpr hbelow)

theorem mem_descendants_of_parent (h : Forest dom kids) (hparent : dom.parent? node = some parent)
    (hmem : parent = top ∨ parent ∈ dom.descendants top) : node ∈ dom.descendants top := by
  rw [h.mem_descendants]
  rcases hmem with rfl | hbelow
  · exact Relation.TransGen.single hparent
  · exact Relation.TransGen.head hparent (h.mem_descendants.mp hbelow)

/-- The children of one parent are below the same nodes. -/
theorem mem_descendants_of_sibling (h : Forest dom kids) {other : Handle}
    (hmem : node ∈ dom.descendants top) (hparent : dom.parent? node = some parent)
    (hother : dom.parent? other = some parent) : other ∈ dom.descendants top :=
  h.mem_descendants_of_parent hother (h.parent_of_mem_descendants hmem hparent)

/-- No node has more element children than there are nodes below the top. -/
theorem elementChildren_length_le (h : Forest dom kids)
    (hmem : parent = top ∨ parent ∈ dom.descendants top) :
    (dom.elementChildren parent).length ≤ (dom.descendants top).length := by
  refine ((h.nodup_elementChildren parent).subperm fun child hchild => ?_).length_le
  exact h.mem_descendants_of_parent (h.parent_of_mem_elementChildren hchild) hmem

end Below

/-- No node has more element children than there are live nodes. -/
theorem elementChildren_length_le_toList (h : Forest dom kids) (parent : Handle) :
    (dom.elementChildren parent).length ≤ dom.nodes.toList.length := by
  apply dom.nodes.length_le_toList_of_nodup
  · exact h.nodup_elementChildren parent
  · intro child hchild
    exact dom.contains_of_isElement (List.mem_filter.mp hchild).2

end Forest

end DomQuery.Dom

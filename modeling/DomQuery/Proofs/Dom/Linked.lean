import DomQuery.Proofs.Dom.Reachable

/-!
# The link invariant

What the links of the nodes promise each other in every reachable state.  Links lead to live
nodes only, a node is in the child list of its parent and in no other, siblings point at each
other, the ends of a child list are where the parent says, and every walk along the links ends.
-/

namespace DomQuery.Dom

/-- The links of all nodes are consistent. -/
structure Linked (dom : Dom) : Prop where
  /-- Every link leads to a live node. -/
  contains_of_link : ∀ {node other : Handle},
    (dom.links node).parent = some other ∨ (dom.links node).previousSibling = some other ∨
      (dom.links node).nextSibling = some other ∨ (dom.links node).firstChild = some other ∨
      (dom.links node).lastChild = some other → dom.contains other = true
  /-- The chain from the first child along the siblings ends, and holds the children. -/
  trail_children : ∀ parent : Handle,
    Trail (fun child => (dom.links child).nextSibling) (dom.links parent).firstChild
      (dom.children parent)
  /-- The parent of a node is the one whose chain of children holds it, and it does once. -/
  parent_iff_count : ∀ child parent : Handle,
    (dom.links child).parent = some parent ↔ (dom.children parent).count child = 1
  count_le_one : ∀ child parent : Handle, (dom.children parent).count child ≤ 1
  next_iff_previous : ∀ node other : Handle,
    (dom.links node).nextSibling = some other ↔ (dom.links other).previousSibling = some node
  previous_firstChild : ∀ {parent child : Handle}, (dom.links parent).firstChild = some child →
    (dom.links child).previousSibling = none
  next_lastChild : ∀ {parent child : Handle}, (dom.links parent).lastChild = some child →
    (dom.links child).nextSibling = none
  lastChild_eq : ∀ parent : Handle, (dom.links parent).lastChild = (dom.children parent).getLast?
  firstChild_none_iff : ∀ parent : Handle,
    (dom.links parent).firstChild = none ↔ (dom.links parent).lastChild = none
  /-- A node without parent has no siblings. -/
  alone : ∀ node : Handle, (dom.links node).parent = none →
    (dom.links node).previousSibling = none ∧ (dom.links node).nextSibling = none
  parent_acyclic : ∀ node : Handle, ¬ dom.Below node node
  next_acyclic : ∀ node : Handle,
    ¬ Relation.TransGen (Leads fun sibling => (dom.links sibling).nextSibling) node node
  previous_acyclic : ∀ node : Handle,
    ¬ Relation.TransGen (Leads fun sibling => (dom.links sibling).previousSibling) node node
  /-- The walks to the ancestors and to the siblings on either side end, and so does the
  traversal of the descendants. -/
  trail_ancestors : ∀ node : Handle,
    Trail dom.parent? (dom.links node).parent (dom.ancestors node)
  trail_preceding : ∀ node : Handle,
    Trail (fun sibling => (dom.links sibling).previousSibling) (dom.links node).previousSibling
      (dom.precedingSiblings node)
  trail_following : ∀ node : Handle,
    Trail (fun sibling => (dom.links sibling).nextSibling) (dom.links node).nextSibling
      (dom.followingSiblings node)
  traversal_descendants : ∀ node : Handle,
    Traversal dom (dom.children node) (dom.descendants node)

namespace Forest

variable {dom : Dom} {kids : Handle → List Handle}

/-- A node that has a sibling link has a place in a child list. -/
theorem exists_place (h : Forest dom kids) {node : Handle}
    (hlink : (dom.links node).previousSibling ≠ none ∨ (dom.links node).nextSibling ≠ none) :
    ∃ parent before after, kids parent = before ++ node :: after := by
  cases hparent : (dom.links node).parent with
  | none =>
      obtain ⟨hprevious, hnext⟩ := h.alone node hparent
      exact absurd hlink (by simp [hprevious, hnext])
  | some parent =>
      obtain ⟨before, after, hsplit⟩ := List.append_of_mem ((h.parent_iff node parent).mp hparent)
      exact ⟨parent, before, after, hsplit⟩

/-- A node is the next sibling of another where the two stand next to each other. -/
theorem nextSibling_iff (h : Forest dom kids) {node other : Handle} :
    (dom.links node).nextSibling = some other ↔
      ∃ parent before after, kids parent = before ++ node :: other :: after := by
  constructor
  · intro hnext
    have hlink : (dom.links node).nextSibling ≠ none := by simp [hnext]
    obtain ⟨parent, before, after, hsplit⟩ := h.exists_place (Or.inr hlink)
    rw [h.nextSibling hsplit] at hnext
    obtain ⟨rest, rfl⟩ := List.head?_eq_some_iff.mp hnext
    exact ⟨parent, before, rest, hsplit⟩
  · rintro ⟨parent, before, after, hsplit⟩
    rw [h.nextSibling hsplit, List.head?_cons]

theorem previousSibling_iff (h : Forest dom kids) {node other : Handle} :
    (dom.links other).previousSibling = some node ↔
      ∃ parent before after, kids parent = before ++ node :: other :: after := by
  constructor
  · intro hprevious
    have hlink : (dom.links other).previousSibling ≠ none := by simp [hprevious]
    obtain ⟨parent, before, after, hsplit⟩ := h.exists_place (Or.inl hlink)
    rw [h.previousSibling hsplit] at hprevious
    obtain ⟨rest, rfl⟩ := List.getLast?_eq_some_iff.mp hprevious
    exact ⟨parent, rest, after, by simp [hsplit]⟩
  · rintro ⟨parent, before, after, hsplit⟩
    rw [h.previousSibling (show kids parent = (before ++ [node]) ++ other :: after by
      simp [hsplit])]
    simp

theorem trail_followingSiblings (h : Forest dom kids) (node : Handle) :
    Trail (fun sibling => (dom.links sibling).nextSibling) (dom.links node).nextSibling
      (dom.followingSiblings node) := by
  cases hparent : dom.parent? node with
  | none =>
      rw [(h.siblings_eq_nil hparent).2, (h.alone node hparent).2]
      exact Trail.nil
  | some parent =>
      obtain ⟨before, after, hsplit⟩ := List.append_of_mem ((h.parent_iff node parent).mp hparent)
      rw [h.followingSiblings_eq hsplit]
      exact h.trail_following hsplit

theorem trail_precedingSiblings (h : Forest dom kids) (node : Handle) :
    Trail (fun sibling => (dom.links sibling).previousSibling) (dom.links node).previousSibling
      (dom.precedingSiblings node) := by
  cases hparent : dom.parent? node with
  | none =>
      rw [(h.siblings_eq_nil hparent).1, (h.alone node hparent).1]
      exact Trail.nil
  | some parent =>
      obtain ⟨before, after, hsplit⟩ := List.append_of_mem ((h.parent_iff node parent).mp hparent)
      rw [h.precedingSiblings_eq hsplit]
      exact h.trail_preceding hsplit

theorem contains_of_link (h : Forest dom kids) {node other : Handle}
    (hlink : (dom.links node).parent = some other ∨
      (dom.links node).previousSibling = some other ∨
      (dom.links node).nextSibling = some other ∨ (dom.links node).firstChild = some other ∨
      (dom.links node).lastChild = some other) : dom.contains other = true := by
  rcases hlink with hlink | hlink | hlink | hlink | hlink
  · exact (h.contains_of_mem ((h.parent_iff node other).mp hlink)).2
  · obtain ⟨parent, before, after, hsplit⟩ := h.previousSibling_iff.mp hlink
    exact (h.contains_of_mem (show other ∈ kids parent by simp [hsplit])).1
  · obtain ⟨parent, before, after, hsplit⟩ := h.nextSibling_iff.mp hlink
    exact (h.contains_of_mem (show other ∈ kids parent by simp [hsplit])).1
  · rw [h.firstChild] at hlink
    exact (h.contains_of_mem (List.mem_of_head? hlink)).1
  · rw [h.lastChild] at hlink
    exact (h.contains_of_mem (List.mem_of_getLast? hlink)).1

theorem linked (h : Forest dom dom.children) : dom.Linked where
  contains_of_link := h.contains_of_link
  trail_children := h.trail_children
  parent_iff_count child parent := by
    rw [h.parent_iff]
    constructor
    · exact List.count_eq_one_of_mem (h.nodup parent)
    · intro hcount
      exact List.count_pos_iff.mp (by omega)
  count_le_one child parent := List.nodup_iff_count_le_one.mp (h.nodup parent) child
  next_iff_previous node other := by rw [h.nextSibling_iff, h.previousSibling_iff]
  previous_firstChild := by
    intro parent child hfirst
    rw [h.firstChild] at hfirst
    obtain ⟨rest, hrest⟩ := List.head?_eq_some_iff.mp hfirst
    exact h.previousSibling (show dom.children parent = [] ++ child :: rest from hrest)
  next_lastChild := by
    intro parent child hlast
    rw [h.lastChild] at hlast
    obtain ⟨rest, hrest⟩ := List.getLast?_eq_some_iff.mp hlast
    exact h.nextSibling (show dom.children parent = rest ++ child :: [] from hrest)
  lastChild_eq := h.lastChild
  firstChild_none_iff parent := by
    rw [h.firstChild, h.lastChild, List.head?_eq_none_iff, List.getLast?_eq_none_iff]
  alone := h.alone
  parent_acyclic := h.not_below_self
  next_acyclic node := (h.trail_followingSiblings node).not_transGen_self
  previous_acyclic node := (h.trail_precedingSiblings node).not_transGen_self
  trail_ancestors := h.trail_ancestors
  trail_preceding := h.trail_precedingSiblings
  trail_following := h.trail_followingSiblings
  traversal_descendants := h.traversal_descendants

end Forest

/-- **The links of every reachable state are consistent.** -/
theorem linked_of_reachable {dom : Dom} (h : dom.Reachable) : dom.Linked :=
  h.forest.linked

theorem linked_listing : listing.Linked :=
  linked_of_reachable reachable_listing

end DomQuery.Dom

import DomQuery.Proofs.Dom.Elements
import DomQuery.Proofs.Dom.Linked

/-!
# Elements beside a node

The nearest elements on both sides of a node are found along its sibling links, past any number of
texts and comments, and the index of an element is the number of elements that are found one after
the other in this way.  None of these walks looks at the list of children, which is read off the
links in the other direction, from the parent.

In a forest the siblings on either side are the parts of that list around the node, so the walks
find what is next to the node in the list without the texts and comments, and count what is in front
of it there (`walksAmong_of_reachable`).
-/

namespace DomQuery.Dom

/-- If every walk along a step ends, so does every walk from one node with a property to the next
one, and it visits the nodes of the walk that have the property. -/
theorem Trail.filter {step : Handle → Option Handle} {walk : Handle → List Handle}
    (hwalk : ∀ node, Trail step (step node) (walk node)) (p : Handle → Bool)
    {start : Option Handle} {nodes : List Handle} (h : Trail step start nodes) :
    Trail (fun node => (walk node).find? p) (nodes.find? p) (nodes.filter p) := by
  induction h with
  | nil => exact Trail.nil
  | @cons node nodes hrest ih =>
      cases hp : p node with
      | true =>
          rw [List.find?_cons_of_pos hp, List.filter_cons_of_pos hp]
          rw [← (hwalk node).unique hrest] at ih ⊢
          exact Trail.cons ih
      | false =>
          have hneg : ¬ p node = true := by simp [hp]
          rw [List.find?_cons_of_neg hneg, List.filter_cons_of_neg hneg]
          exact ih

/-- The walks from a child of the parent to the elements beside it agree with the lists of
children. -/
structure WalksAmong (dom : Dom) (parent node : Handle) : Prop where
  mem_children : node ∈ dom.children parent
  nodup_children : (dom.children parent).Nodup
  previousElement?_eq : ∀ before after, dom.children parent = before ++ node :: after →
    dom.previousElement? node = (before.filter dom.isElement).getLast?
  nextElement?_eq : ∀ before after, dom.children parent = before ++ node :: after →
    dom.nextElement? node = (after.filter dom.isElement).head?
  /-- A node that is no element has no index, and is at no place of the list either. -/
  elementIndex?_iff : ∀ index, dom.elementIndex? node = some index ↔
    (dom.elementChildren parent)[index]? = some node
  eq_of_elementIndex? : ∀ other index, dom.parent? other = some parent →
    dom.elementIndex? node = some index → dom.elementIndex? other = some index → node = other

namespace Forest

variable {dom : Dom} {kids : Handle → List Handle} {parent node : Handle}

/-- The elements in front of a node are those that are found one after the other. -/
theorem trail_precedingElements (h : Forest dom kids) (node : Handle) :
    Trail dom.previousElement? (dom.previousElement? node) (dom.precedingElements node) :=
  (h.trail_precedingSiblings node).filter h.trail_precedingSiblings dom.isElement

/-- An element is at one place of the list, and its index says which. -/
theorem elementIndex?_eq_some_iff (h : Forest dom kids) (hparent : dom.parent? node = some parent)
    (index : Nat) :
    dom.elementIndex? node = some index ↔ (dom.elementChildren parent)[index]? = some node := by
  cases helement : dom.isElement node with
  | true =>
      obtain ⟨before, after, hsplit⟩ := h.exists_elementChildren_split hparent helement
      have hplace : (dom.elementChildren parent)[before.length]? = some node := by
        rw [hsplit, List.getElem?_append_right le_rfl, Nat.sub_self, List.getElem?_cons_zero]
      rw [h.elementIndex?_eq hsplit, Option.some.injEq]
      constructor
      · rintro rfl
        exact hplace
      · intro hindex
        have hlength : before.length < (dom.elementChildren parent).length := by simp [hsplit]
        exact (List.getElem?_inj hlength (h.nodup_elementChildren parent)).mp
          (hplace.trans hindex.symm)
  | false =>
      rw [elementIndex?, helement, if_neg (by simp)]
      refine iff_of_false (by simp) fun hindex => ?_
      have hmem := (List.mem_filter.mp (List.mem_of_getElem? hindex)).2
      rw [helement] at hmem
      exact absurd hmem (by simp)

theorem walksAmong (h : Forest dom dom.children) (hparent : dom.parent? node = some parent) :
    dom.WalksAmong parent node where
  mem_children := (h.parent_iff node parent).mp hparent
  nodup_children := h.nodup parent
  previousElement?_eq _ _ := h.previousElement?_eq_getLast?
  nextElement?_eq _ _ := h.nextElement?_eq_head?
  elementIndex?_iff := h.elementIndex?_eq_some_iff hparent
  eq_of_elementIndex? other index hother hnode hindex := by
    rw [h.elementIndex?_eq_some_iff hparent] at hnode
    rw [h.elementIndex?_eq_some_iff hother, hnode] at hindex
    exact Option.some.inj hindex

end Forest

/-- **The walks to the elements beside a node agree with the lists of children.**  A node without
parent has no elements beside it, and its index is `0` if it is an element.  The index is counted
along the walk from each element to the one before it. -/
theorem walksAmong_of_reachable {dom : Dom} (h : dom.Reachable) (node : Handle) :
    (∀ parent, dom.parent? node = some parent → dom.WalksAmong parent node) ∧
      (dom.parent? node = none → dom.previousElement? node = none ∧ dom.nextElement? node = none ∧
        (dom.isElement node = true → dom.elementIndex? node = some 0)) ∧
      ∃ walk, Trail dom.previousElement? (dom.previousElement? node) walk ∧
        (dom.isElement node = true → dom.elementIndex? node = some walk.length) := by
  refine ⟨fun parent => h.forest.walksAmong, fun halone => ?_,
    dom.precedingElements node, h.forest.trail_precedingElements node,
    fun helement => by rw [elementIndex?, if_pos helement]⟩
  obtain ⟨hpreceding, hfollowing⟩ := h.forest.siblings_eq_nil halone
  refine ⟨by rw [previousElement?, hpreceding, List.find?_nil],
    by rw [nextElement?, hfollowing, List.find?_nil], fun helement => ?_⟩
  rw [elementIndex?, if_pos helement, h.forest.precedingElements_of_alone halone, List.length_nil]

/-- In the outline the walk from the element `p` to the left passes a text. -/
theorem walksAmong_outline :
    outline.parent? ⟨6, 0⟩ = some ⟨1, 0⟩ ∧ outline.WalksAmong ⟨1, 0⟩ ⟨6, 0⟩ ∧
      outline.children ⟨1, 0⟩ = [⟨2, 0⟩, ⟨5, 0⟩, ⟨6, 0⟩, ⟨7, 0⟩] ∧
      outline.elementChildren ⟨1, 0⟩ = [⟨2, 0⟩, ⟨6, 0⟩, ⟨7, 0⟩] ∧
      outline.previousElement? ⟨6, 0⟩ = some ⟨2, 0⟩ ∧ outline.elementIndex? ⟨6, 0⟩ = some 1 ∧
      outline.parent? ⟨0, 0⟩ = none ∧ outline.nextElement? ⟨0, 0⟩ = none :=
  ⟨by decide, (walksAmong_of_reachable reachable_outline _).1 ⟨1, 0⟩ (by decide), by decide,
    by decide, by decide, by decide, by decide,
    ((walksAmong_of_reachable reachable_outline _).2.1 (by decide)).2.1⟩

end DomQuery.Dom

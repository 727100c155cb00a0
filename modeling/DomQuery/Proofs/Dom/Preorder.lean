import DomQuery.Proofs.Dom.Reachable

/-!
# Everything below a node, in order

The walk downwards keeps a pile of pending nodes and looks at nothing but the children of the
node that it visits.  In every reachable state it comes to an end by itself, with an empty pile,
and what it has visited then is the complete pre-order of what is below its start: every child
followed by everything below it, no node twice, and exactly the nodes that have the start among
their ancestors (`listsBelow_of_reachable`).

The step of the walk and its whole run are told in `Traversal.run_eq`; that there is a pre-order
for it to yield rests on the forest behind the links.
-/

namespace DomQuery.Dom

/-- The descendants of the node are the complete pre-order of the nodes below it. -/
structure ListsBelow (dom : Dom) (node : Handle) : Prop where
  descendants_eq : dom.descendants node =
    (dom.children node).flatMap fun child => child :: dom.descendants child
  /-- No other lists are made in this way. -/
  eq_of_isPreorder : ∀ below, dom.IsPreorder below → dom.descendants node = below node
  nodup : (dom.descendants node).Nodup
  not_mem_self : node ∉ dom.descendants node
  mem_iff : ∀ other, other ∈ dom.descendants node ↔ node ∈ dom.ancestors other
  /-- The walk ends with an empty pile, and no bound on its steps cuts it off that leaves it one
  for each node visited. -/
  run_eq : ∀ limit, (dom.descendants node).length ≤ limit →
    (Descent.start dom node).run dom limit = ⟨dom.descendants node, []⟩
  length_le : (dom.descendants node).length ≤ dom.descentLimit
  /-- The walks along the children and up to the ancestors end as well. -/
  trail_children : ∀ parent, Trail (fun child => (dom.links child).nextSibling)
    (dom.links parent).firstChild (dom.children parent)
  trail_ancestors : ∀ other, Trail dom.parent? (dom.parent? other) (dom.ancestors other)

/-- **The descendants of a node are the complete pre-order of the nodes below it.** -/
theorem listsBelow_of_reachable {dom : Dom} (h : dom.Reachable) (node : Handle) :
    dom.ListsBelow node where
  descendants_eq := h.forest.descendants_eq node
  eq_of_isPreorder _ hbelow := h.forest.descendants_eq_preorder hbelow node
  nodup := h.forest.nodup_descendants node
  not_mem_self := fun hmem => h.forest.not_below_self node (h.forest.mem_descendants.mp hmem)
  mem_iff _ := by rw [h.forest.mem_descendants, h.forest.mem_ancestors]
  run_eq _ hlimit := h.forest.run_start_eq h.forest.descendants_eq node hlimit
  length_le := (h.forest.length_preorder_le h.forest.descendants_eq node).trans dom.slots_le_descentLimit
  trail_children := h.forest.trail_children
  trail_ancestors := h.forest.trail_ancestors

/-- In the outline the walk goes down into the first item before it goes on to the next. -/
theorem listsBelow_outline :
    outline.ListsBelow ⟨1, 0⟩ ∧ outline.children ⟨1, 0⟩ = [⟨2, 0⟩, ⟨5, 0⟩, ⟨6, 0⟩, ⟨7, 0⟩] ∧
      outline.descendants ⟨1, 0⟩ = [⟨2, 0⟩, ⟨3, 0⟩, ⟨4, 0⟩, ⟨5, 0⟩, ⟨6, 0⟩, ⟨7, 0⟩] :=
  ⟨listsBelow_of_reachable reachable_outline _, by decide, by decide⟩

end DomQuery.Dom

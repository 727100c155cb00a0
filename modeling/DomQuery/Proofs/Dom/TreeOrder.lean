import DomQuery.Proofs.Dom.Elements

/-!
# The order of a tree

All nodes that are connected by parents are one tree, with the same root
(`Forest.root_eq_of_within`).  The root and then its descendants list the tree in its order, each
node before those below it, and none of them twice (`Forest.nodup_tree`).  The descendants of any
node of the tree stand in this list in the same order (`Forest.descendants_sublist`).
-/

namespace DomQuery.Dom

/-- The nodes are in the tree of the given one, in the order of the tree, and none of them twice. -/
structure InTreeOrder (dom : Dom) (node : Handle) (nodes : List Handle) : Prop where
  nodup : nodes.Nodup
  sublist : nodes.Sublist (dom.root node :: dom.descendants (dom.root node))

namespace Forest

variable {dom : Dom} {kids : Handle → List Handle} {node other parent top : Handle}

/-! ### One root -/

theorem root_of_alone (h : Forest dom kids) (halone : dom.parent? node = none) :
    dom.root node = node := by
  rw [root, h.ancestors_of_alone halone, List.getLast?_nil, Option.getD_none]

theorem root_of_parent (h : Forest dom kids) (hparent : dom.parent? node = some parent) :
    dom.root node = dom.root parent := by
  rw [root, h.ancestors_of_parent hparent, List.getLast?_cons, Option.getD_some, root]

theorem root_eq_of_within (h : Forest dom kids) (hwithin : dom.Within node top) :
    dom.root node = dom.root top := by
  induction hwithin with
  | refl => rfl
  | tail _ hstep ih => exact ih.trans (h.root_of_parent hstep)

theorem root_root (h : Forest dom kids) (node : Handle) : dom.root (dom.root node) = dom.root node :=
  h.root_of_alone (h.parent_root node)

theorem root_of_mem_descendants (h : Forest dom kids) (hmem : node ∈ dom.descendants top) :
    dom.root node = dom.root top :=
  h.root_eq_of_within (h.mem_descendants.mp hmem).to_reflTransGen

theorem within_root (h : Forest dom kids) (node : Handle) : dom.Within node (dom.root node) := by
  rcases h.eq_or_mem_descendants_root node with hroot | hbelow
  · rw [hroot]
    exact Relation.ReflTransGen.refl
  · exact (h.mem_descendants.mp hbelow).to_reflTransGen

theorem root_of_precedingSibling (h : Forest dom kids) (hmem : other ∈ dom.precedingSiblings node) :
    dom.root other = dom.root node := by
  cases hparent : dom.parent? node with
  | none =>
      rw [(h.siblings_eq_nil hparent).1] at hmem
      exact absurd hmem (by simp)
  | some parent =>
      obtain ⟨before, after, hsplit⟩ := List.append_of_mem ((h.parent_iff node parent).mp hparent)
      rw [h.precedingSiblings_eq hsplit, List.mem_reverse] at hmem
      have hother : dom.parent? other = some parent :=
        (h.parent_iff other parent).mpr (by simp [hsplit, hmem])
      rw [h.root_of_parent hother, h.root_of_parent hparent]

/-! ### One order -/

/-- A child and its descendants are among the descendants of its parent, in the same order. -/
theorem cons_descendants_sublist (h : Forest dom kids) (hparent : dom.parent? node = some parent) :
    (node :: dom.descendants node).Sublist (dom.descendants parent) := by
  have hmem : node ∈ dom.children parent := by
    rw [h.children_eq]
    exact (h.parent_iff node parent).mp hparent
  obtain ⟨before, after, hsplit⟩ := List.append_of_mem hmem
  rw [h.descendants_eq parent, hsplit, List.flatMap_append, List.flatMap_cons]
  exact (List.sublist_append_left _ _).trans (List.sublist_append_right _ _)

theorem descendants_sublist (h : Forest dom kids) (hwithin : dom.Within node top) :
    (dom.descendants node).Sublist (dom.descendants top) := by
  induction hwithin with
  | refl => exact List.Sublist.refl _
  | tail _ hstep ih =>
      have hbelow := h.cons_descendants_sublist hstep
      exact ih.trans ((List.sublist_cons_self _ _).trans hbelow)

theorem nodup_tree (h : Forest dom kids) (top : Handle) : (top :: dom.descendants top).Nodup := by
  refine List.nodup_cons.mpr ⟨?_, h.nodup_descendants top⟩
  rw [h.mem_descendants]
  exact h.not_below_self top

theorem inTreeOrder_of_sublist (h : Forest dom kids) {nodes : List Handle}
    (hsublist : nodes.Sublist (dom.root node :: dom.descendants (dom.root node))) :
    dom.InTreeOrder node nodes :=
  ⟨hsublist.nodup (h.nodup_tree _), hsublist⟩

/-- Some of the nodes below a node of the tree. -/
theorem inTreeOrder_filter (h : Forest dom kids) (hroot : dom.root top = dom.root node)
    (p : Handle → Bool) : dom.InTreeOrder node ((dom.descendants top).filter p) := by
  apply h.inTreeOrder_of_sublist
  have hbelow := h.descendants_sublist (h.within_root top)
  rw [hroot] at hbelow
  exact (List.filter_sublist.trans hbelow).trans (List.sublist_cons_self _ _)

/-- At most one node of the tree. -/
theorem inTreeOrder_toList (h : Forest dom kids) {found : Option Handle}
    (hroot : ∀ other ∈ found, dom.root other = dom.root node) :
    dom.InTreeOrder node found.toList := by
  apply h.inTreeOrder_of_sublist
  cases found with
  | none => exact List.nil_sublist _
  | some other =>
      have hmem : other ∈ dom.root node :: dom.descendants (dom.root node) := by
        rw [← hroot other rfl]
        rcases h.eq_or_mem_descendants_root other with hsame | hbelow
        · rw [hsame]
          exact List.mem_cons_self
        · exact List.mem_cons_of_mem _ hbelow
      exact List.singleton_sublist.mpr hmem

end Forest

theorem InTreeOrder.root_eq_of_mem {dom : Dom} {kids : Handle → List Handle} {node other : Handle}
    {nodes : List Handle} (hnodes : dom.InTreeOrder node nodes) (h : Forest dom kids)
    (hmem : other ∈ nodes) : dom.root other = dom.root node := by
  rcases List.mem_cons.mp (hnodes.sublist.mem hmem) with rfl | hbelow
  · exact h.root_root node
  · exact (h.root_of_mem_descendants hbelow).trans (h.root_root node)

end DomQuery.Dom

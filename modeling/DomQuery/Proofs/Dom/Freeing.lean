import DomQuery.Proofs.Arena.Size
import DomQuery.Proofs.Dom.StaleMoves

/-!
# Freeing a subtree

Dropping a subtree takes its top out of the tree, lists what is below it, and then frees one node
after the other.  The list is taken from the links while nodes are still there, so it has to be
complete and without repetitions: a node left out would stay behind with links to freed nodes,
and a node listed twice would be freed twice.

Both come from the forest behind the links.  Taking the top out changes no child list below it,
so the nodes freed are the top and its descendants from before (`Forest.descendants_detach`).
They make up whole trees then, and nothing outside is linked to them.  The number of nodes that
the arena keeps falls by as many (`Arena.IsCounted.size_foldl_erase`), and for that the number has
to be right in every state (`Reachable.isCounted`).
-/

namespace DomQuery.Dom

/-! ### The number of nodes -/

section Tally

variable {dom : Dom}

@[simp] theorem tally_modifyElement (node : Handle) (f : Element → Element) :
    (dom.modifyElement node f).nodes.tally = dom.nodes.tally := by
  simp [modifyElement]

@[simp] theorem tally_modifyLinks (node : Handle) (f : Links → Links) :
    (dom.modifyLinks node f).nodes.tally = dom.nodes.tally := by
  simp [modifyLinks]

@[simp] theorem tally_linkForward (parent : Handle) (previous target : Option Handle) :
    (dom.linkForward parent previous target).nodes.tally = dom.nodes.tally := by
  unfold linkForward
  split <;> simp

@[simp] theorem tally_linkBackward (parent : Handle) (next target : Option Handle) :
    (dom.linkBackward parent next target).nodes.tally = dom.nodes.tally := by
  unfold linkBackward
  split <;> simp

@[simp] theorem tally_attach (parent child : Handle) (previous next : Option Handle) :
    (dom.attach parent child previous next).nodes.tally = dom.nodes.tally := by
  simp [attach]

@[simp] theorem tally_detach (child : Handle) :
    (dom.detach child).nodes.tally = dom.nodes.tally := by
  unfold detach
  dsimp only
  split <;> simp

@[simp] theorem tally_appendChild (parent child : Handle) :
    (dom.appendChild parent child).nodes.tally = dom.nodes.tally := by
  simp [appendChild]

end Tally

/-- Every edit keeps the number of nodes right. -/
theorem isCounted_apply {dom : Dom} (h : dom.nodes.IsCounted) (e : Edit) :
    (dom.apply e).nodes.IsCounted := by
  have hkeep : ∀ {other : Dom}, other.nodes.tally = dom.nodes.tally → other.nodes.IsCounted := by
    intro other htally
    rwa [Arena.IsCounted, htally]
  cases e with
  | createDocument => exact h.allocate _
  | createElement tagName attributes => exact h.allocate _
  | createText data => exact h.allocate _
  | createComment data => exact h.allocate _
  | setAttribute node name value => exact hkeep (tally_modifyElement node _)
  | removeAttribute node name => exact hkeep (tally_modifyElement node _)
  | appendChild parent child => exact hkeep (tally_appendChild parent child)
  | insertBefore parent child reference =>
      refine hkeep ?_
      rw [apply, insertBefore]
      split <;> simp
  | removeChild parent child =>
      refine hkeep ?_
      rw [apply, removeChild]
      split <;> simp
  | dropSubtree node =>
      have hdetached : (dom.detach node).nodes.IsCounted := hkeep (tally_detach node)
      exact hdetached.foldl_erase _

/-- In every reachable state the arena keeps the right number of nodes. -/
theorem Reachable.isCounted {dom : Dom} (h : dom.Reachable) : dom.nodes.IsCounted := by
  induction h with
  | empty => exact Arena.IsCounted.empty
  | edit _ _ ih => exact isCounted_apply ih _

/-! ### What is freed -/

/-- `other` is `dom` after the node and everything below it have been freed. -/
structure Freed (dom other : Dom) (node : Handle) : Prop where
  contains_iff : ∀ handle, other.contains handle = true ↔
    dom.contains handle = true ∧ handle ≠ node ∧ handle ∉ dom.descendants node
  size_eq : other.nodes.size + (1 + (dom.descendants node).length) = dom.nodes.size
  children_former : ∀ parent, dom.parent? node = some parent →
    other.children parent = (dom.children parent).erase node
  payload_eq : ∀ handle, other.contains handle = true →
    other.payload? handle = dom.payload? handle
  parent_eq : ∀ handle, other.contains handle = true → other.parent? handle = dom.parent? handle
  children_eq : ∀ handle, other.contains handle = true → dom.parent? node ≠ some handle →
    other.children handle = dom.children handle
  /-- No node that is left is linked to a freed one. -/
  not_linksTo : ∀ handle gone, other.contains handle = true → other.LinksTo handle gone →
    gone ≠ node ∧ gone ∉ dom.descendants node

namespace Forest

variable {dom : Dom} {kids : Handle → List Handle}

/-- Taking a node out changes no child list below it. -/
theorem descendants_detach (h : Forest dom kids) (top : Handle) :
    (dom.detach top).descendants top = dom.descendants top := by
  have hwithin : ∀ node, dom.Within node top →
      (dom.detach top).descendants node = dom.descendants node := by
    intro node
    induction node using h.induction_children with
    | _ node ih =>
        intro hnode
        have hnotin : top ∉ kids node := fun hmem =>
          h.not_below_self top (Relation.TransGen.head' ((h.parent_iff top node).mpr hmem) hnode)
        rw [(h.detach top).descendants_eq, h.descendants_eq, (h.detach top).children_eq,
          h.children_eq, List.erase_of_not_mem hnotin]
        refine List.flatMap_congr fun child hchild => ?_
        rw [ih child hchild (Relation.ReflTransGen.head ((h.parent_iff child node).mpr hchild) hnode)]
  exact hwithin top Relation.ReflTransGen.refl

/-- The nodes of a subtree, from the lists before its top is taken out. -/
theorem dropSubtree_eq (h : Forest dom kids) (node : Handle) :
    dom.dropSubtree node =
      ⟨(dom.descendants node ++ [node]).foldl Arena.erase (dom.detach node).nodes⟩ := by
  rw [Dom.dropSubtree, h.descendants_detach]

theorem contains_dropSubtree (h : Forest dom kids) (node handle : Handle) :
    (dom.dropSubtree node).contains handle = true ↔
      dom.contains handle = true ∧ handle ≠ node ∧ handle ∉ dom.descendants node := by
  rw [h.dropSubtree_eq, contains_foldl_erase, contains_detach, Bool.and_eq_true,
    decide_eq_true_iff, List.mem_append, List.mem_singleton, not_or]
  tauto

/-- The child lists after a subtree has been dropped. -/
theorem children_dropSubtree (h : Forest dom kids) {node handle : Handle}
    (hlive : (dom.dropSubtree node).contains handle = true) :
    (dom.dropSubtree node).children handle = (dom.children handle).erase node := by
  obtain ⟨-, hne, hbelow⟩ := (h.contains_dropSubtree node handle).mp hlive
  have hleft : handle ∉ (dom.detach node).descendants node ++ [node] := by
    rw [h.descendants_detach, List.mem_append, List.mem_singleton, not_or]
    exact ⟨hbelow, hne⟩
  rw [(h.dropSubtree node).children_eq, if_neg hleft, h.children_eq]

/-- A node that is left has the parent that it had. -/
theorem parent_dropSubtree (h : Forest dom kids) {node handle : Handle}
    (hlive : (dom.dropSubtree node).contains handle = true) :
    (dom.dropSubtree node).parent? handle = dom.parent? handle := by
  obtain ⟨-, hne, hbelow⟩ := (h.contains_dropSubtree node handle).mp hlive
  refine Option.ext fun parent => ?_
  have hparent := (h.dropSubtree node).parent_iff handle parent
  refine hparent.trans (Iff.trans ?_ (h.parent_iff handle parent).symm)
  split
  · next hgone =>
      -- the parent of a node that is left is left as well
      refine iff_of_false List.not_mem_nil fun hmem => hbelow ?_
      rw [h.descendants_detach, List.mem_append, List.mem_singleton, h.mem_descendants] at hgone
      have hstep : Leads dom.parent? handle parent := (h.parent_iff handle parent).mpr hmem
      rw [h.mem_descendants]
      rcases hgone with hgone | rfl
      · exact Relation.TransGen.head hstep hgone
      · exact Relation.TransGen.single hstep
  · exact List.mem_erase_of_ne hne

theorem payload_dropSubtree (h : Forest dom kids) {node handle : Handle}
    (hlive : (dom.dropSubtree node).contains handle = true) :
    (dom.dropSubtree node).payload? handle = dom.payload? handle := by
  obtain ⟨-, hne, hbelow⟩ := (h.contains_dropSubtree node handle).mp hlive
  rw [h.dropSubtree_eq, payload?_foldl_erase, if_neg, payload?_detach]
  rw [List.mem_append, List.mem_singleton, not_or]
  exact ⟨hbelow, hne⟩

/-- Every node of the subtree is freed once. -/
theorem size_dropSubtree (h : Forest dom kids) (hcounted : dom.nodes.IsCounted) {node : Handle}
    (hlive : dom.contains node = true) :
    (dom.dropSubtree node).nodes.size + (1 + (dom.descendants node).length) =
      dom.nodes.size := by
  have hgone : (dom.descendants node ++ [node]).Nodup := by
    refine List.Nodup.append (h.nodup_descendants node) (List.nodup_singleton node) ?_
    rw [List.disjoint_singleton, h.mem_descendants]
    exact h.not_below_self node
  have hall : ∀ handle ∈ dom.descendants node ++ [node],
      (dom.detach node).nodes.contains handle = true := by
    intro handle hmem
    change (dom.detach node).contains handle = true
    rw [contains_detach]
    rcases List.mem_append.mp hmem with hbelow | hself
    · exact (h.contains_of_below (h.mem_descendants.mp hbelow)).1
    · rwa [List.mem_singleton.mp hself]
  have htally : (dom.detach node).nodes.tally = dom.nodes.tally := tally_detach node
  have hdetached : (dom.detach node).nodes.IsCounted := by rwa [Arena.IsCounted, htally]
  have hsame : (dom.detach node).nodes.size = dom.nodes.size := congrArg Prod.fst htally
  have hsize := hdetached.size_foldl_erase hgone hall
  rw [List.length_append, List.length_singleton, hsame] at hsize
  rw [h.dropSubtree_eq, Nat.add_comm 1]
  exact hsize

/-- Dropping what is not there changes nothing. -/
theorem dropSubtree_of_stale (h : Forest dom kids) {node : Handle}
    (hstale : dom.contains node = false) : dom.dropSubtree node = dom := by
  have hnone : dom.nodes.get? node = none := by simpa [contains_eq_isSome] using hstale
  have hleaf : dom.descendants node = [] := by
    rw [List.eq_nil_iff_forall_not_mem]
    intro other hmem
    rw [h.mem_descendants] at hmem
    rw [(h.contains_of_below hmem).2] at hstale
    exact absurd hstale (by simp)
  rw [h.dropSubtree_eq, hleaf, detach_of_stale hstale, List.nil_append, List.foldl_cons,
    List.foldl_nil, Arena.erase_of_none hnone]

end Forest

/-- **Dropping a subtree frees the live node and everything below it, and nothing else.** -/
theorem freed_dropSubtree {dom : Dom} (h : dom.Reachable) (node : Handle) :
    (dom.contains node = true → dom.Freed (dom.dropSubtree node) node) ∧
      (dom.contains node = false → dom.dropSubtree node = dom) := by
  have hforest := h.forest
  have hafter : (dom.dropSubtree node).Linked :=
    linked_of_reachable (h.edit (e := .dropSubtree node) trivial)
  refine ⟨fun hlive => ?_, hforest.dropSubtree_of_stale⟩
  constructor
  case contains_iff => exact hforest.contains_dropSubtree node
  case size_eq => exact hforest.size_dropSubtree h.isCounted hlive
  case children_former =>
    intro parent hparent
    have hbelow : dom.Below node parent := Relation.TransGen.single hparent
    refine hforest.children_dropSubtree ((hforest.contains_dropSubtree node parent).mpr
      ⟨(hforest.contains_of_below hbelow).2, ?_, fun hmem => ?_⟩)
    · rintro rfl
      exact hforest.not_below_self parent hbelow
    · exact hforest.not_below_self node (hbelow.trans (hforest.mem_descendants.mp hmem))
  case payload_eq => exact fun handle => hforest.payload_dropSubtree
  case parent_eq => exact fun handle => hforest.parent_dropSubtree
  case children_eq =>
    intro handle hleft hformer
    have hnotin : node ∉ dom.children handle := fun hmem =>
      hformer ((hforest.parent_iff node handle).mpr hmem)
    rw [hforest.children_dropSubtree hleft, List.erase_of_not_mem hnotin]
  case not_linksTo =>
    intro handle gone _ hlink
    exact ((hforest.contains_dropSubtree node gone).mp (hafter.contains_of_link hlink)).2

/-- In the outline the first item can be dropped, with the element and the text inside. -/
theorem freed_outline :
    outline.contains ⟨2, 0⟩ = true ∧ outline.Freed (outline.dropSubtree ⟨2, 0⟩) ⟨2, 0⟩ ∧
      outline.descendants ⟨2, 0⟩ = [⟨3, 0⟩, ⟨4, 0⟩] ∧
      (outline.dropSubtree ⟨2, 0⟩).children ⟨1, 0⟩ = [⟨5, 0⟩, ⟨6, 0⟩, ⟨7, 0⟩] ∧
      outline.contains ⟨2, 1⟩ = false ∧ outline.dropSubtree ⟨2, 1⟩ = outline :=
  ⟨by decide, (freed_dropSubtree reachable_outline _).1 (by decide), by decide, by decide,
    by decide, (freed_dropSubtree reachable_outline _).2 (by decide)⟩

end DomQuery.Dom

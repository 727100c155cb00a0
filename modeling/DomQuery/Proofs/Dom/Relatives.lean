import DomQuery.Proofs.Dom.Forest

/-!
# Walks through a forest

In a forest every walk ends, and the lists that the walks return are lists of the forest: the
children are the child list (`Forest.children_eq`), the siblings on either side are the parts
of the child list around the node, the ancestors are the nodes that it is below
(`Forest.mem_ancestors`), and the descendants are the nodes below it
(`Forest.mem_descendants`), each child with its own descendants behind it
(`Forest.descendants_eq`).

The bounds on the length of a walk count the slots.  No walk visits a node twice and all nodes
that it visits are live, so it never meets them.

The walk downwards works on a pile of pending nodes, and it is not clear at once that it comes
to an end.  What it has to yield is therefore first said without it: the lists of a *pre-order*
(`IsPreorder`) are made of the children, each followed by its own list.  There is a pre-order,
its lists hold the nodes below and no node twice, and the walk takes one step for each node of
them (`Traversal.run_eq`).
-/

namespace DomQuery.Dom

/-- The traversal that visits the first of the pending nodes and puts its children in front of
the others, until none is pending: the nodes that it visits, in order. -/
inductive Traversal (dom : Dom) : List Handle → List Handle → Prop where
  | done : Traversal dom [] []
  | visit {node : Handle} {pending visited : List Handle} :
      Traversal dom (dom.children node ++ pending) visited →
        Traversal dom (node :: pending) (node :: visited)

/-- The list of every node holds its children, each followed by its own list. -/
def IsPreorder (dom : Dom) (below : Handle → List Handle) : Prop :=
  ∀ node, below node = (dom.children node).flatMap fun child => child :: below child

/-- The nodes at most `depth` levels below the node, each one before those below it. -/
def descendantsTo (dom : Dom) : Nat → Handle → List Handle
  | 0, _ => []
  | depth + 1, node =>
      (dom.children node).flatMap fun child => child :: dom.descendantsTo depth child

/-! ### The walk downwards -/

section Descent

variable {dom : Dom}

theorem slots_le_descentLimit (dom : Dom) : dom.nodes.slots.size ≤ dom.descentLimit :=
  (Nat.le_succ _).trans Nat.lt_two_pow_self.le

theorem Descent.step?_nil (visited : List Handle) :
    Descent.step? dom ⟨visited, []⟩ = none := rfl

theorem Descent.step?_concat (visited pending : List Handle) (node : Handle) :
    Descent.step? dom ⟨visited, pending ++ [node]⟩ =
      some ⟨visited ++ [node], pending ++ (dom.children node).reverse⟩ := by
  simp [Descent.step?]

/-- The walk visits what a traversal visits, and then its pile is empty.  The traversal has its
next node in front, and the pile has it at the end. -/
theorem Traversal.run_eq {pending visited : List Handle} (h : Traversal dom pending visited)
    (before : List Handle) {limit : Nat} (hlimit : visited.length ≤ limit) :
    Descent.run dom limit ⟨before, pending.reverse⟩ = ⟨before ++ visited, []⟩ := by
  induction h generalizing before limit with
  | done =>
      rw [List.append_nil]
      cases limit with
      | zero => rfl
      | succ limit => rw [Descent.run, List.reverse_nil, Descent.step?_nil]
  | @visit node pending visited _ ih =>
      obtain ⟨limit, rfl⟩ : ∃ fewer, limit = fewer + 1 :=
        Nat.exists_eq_succ_of_ne_zero (by rw [List.length_cons] at hlimit; omega)
      rw [List.length_cons, Nat.add_le_add_iff_right] at hlimit
      have hpile : pending.reverse ++ (dom.children node).reverse =
          (dom.children node ++ pending).reverse := (List.reverse_append ..).symm
      rw [Descent.run, List.reverse_cons, Descent.step?_concat, hpile]
      dsimp only
      rw [ih _ hlimit, List.append_assoc, List.singleton_append]

end Descent

namespace Forest

variable {dom : Dom} {kids : Handle → List Handle}

theorem kids_length_le (h : Forest dom kids) (parent : Handle) :
    (kids parent).length ≤ dom.nodes.slots.size :=
  dom.nodes.length_le_of_nodup (h.nodup parent) fun _ hm => (h.contains_of_mem hm).1

/-! ### Children and siblings -/

theorem trail_children (h : Forest dom kids) (parent : Handle) :
    Trail (fun child => (dom.links child).nextSibling) (dom.links parent).firstChild
      (kids parent) := by
  rw [h.firstChild]
  exact Trail.of_splits fun _ _ _ hsplit => h.nextSibling hsplit

theorem children_eq (h : Forest dom kids) (parent : Handle) :
    dom.children parent = kids parent :=
  (h.trail_children parent).follow_eq ((h.kids_length_le parent).trans (Nat.le_succ _))

/-- The child lists of a forest are the lists of children that the links lead through. -/
theorem children (h : Forest dom kids) : Forest dom dom.children := by
  have heq : dom.children = kids := funext h.children_eq
  rw [heq]
  exact h

theorem trail_following (h : Forest dom kids) {parent child : Handle}
    {before after : List Handle} (hsplit : kids parent = before ++ child :: after) :
    Trail (fun sibling => (dom.links sibling).nextSibling) (dom.links child).nextSibling after := by
  have htrail := h.trail_children parent
  rw [hsplit] at htrail
  exact htrail.tail_of_append

theorem followingSiblings_eq (h : Forest dom kids) {parent child : Handle}
    {before after : List Handle} (hsplit : kids parent = before ++ child :: after) :
    dom.followingSiblings child = after := by
  refine (h.trail_following hsplit).follow_eq ?_
  have hlength := h.kids_length_le parent
  rw [hsplit, List.length_append, List.length_cons] at hlength
  unfold walkLimit
  omega

theorem trail_preceding (h : Forest dom kids) {parent child : Handle}
    {before after : List Handle} (hsplit : kids parent = before ++ child :: after) :
    Trail (fun sibling => (dom.links sibling).previousSibling) (dom.links child).previousSibling
      before.reverse := by
  rw [h.previousSibling hsplit, ← List.head?_reverse]
  refine Trail.of_splits fun left node right heq => ?_
  have hbefore : before = right.reverse ++ node :: left.reverse := by
    rw [← List.reverse_reverse before, heq]
    simp
  rw [h.previousSibling (show kids parent = right.reverse ++ node :: (left.reverse ++
    child :: after) by simp [hsplit, hbefore]), List.getLast?_reverse]

theorem precedingSiblings_eq (h : Forest dom kids) {parent child : Handle}
    {before after : List Handle} (hsplit : kids parent = before ++ child :: after) :
    dom.precedingSiblings child = before.reverse := by
  refine (h.trail_preceding hsplit).follow_eq ?_
  have hlength := h.kids_length_le parent
  rw [hsplit, List.length_append, List.length_cons] at hlength
  unfold walkLimit
  rw [List.length_reverse]
  omega

/-- A node without parent has no siblings. -/
theorem siblings_eq_nil (h : Forest dom kids) {child : Handle}
    (halone : dom.parent? child = none) :
    dom.precedingSiblings child = [] ∧ dom.followingSiblings child = [] := by
  obtain ⟨hprevious, hnext⟩ := h.alone child halone
  simp [precedingSiblings, followingSiblings, hprevious, hnext, walkLimit, follow]

/-! ### Ancestors -/

theorem exists_trail_ancestors (h : Forest dom kids) (node : Handle) :
    ∃ nodes, Trail dom.parent? (dom.parent? node) nodes := by
  obtain ⟨depth, hdepth⟩ := h.ranked
  induction hn : depth node using Nat.strong_induction_on generalizing node with
  | _ n ih =>
      cases hparent : dom.parent? node with
      | none => exact ⟨[], Trail.nil⟩
      | some parent =>
          have hless : depth parent < n := hn ▸ hdepth ((h.parent_iff node parent).mp hparent)
          obtain ⟨nodes, htrail⟩ := ih _ hless parent rfl
          exact ⟨parent :: nodes, Trail.cons htrail⟩

theorem contains_of_below (h : Forest dom kids) {node top : Handle} (hbelow : dom.Below node top) :
    dom.contains node = true ∧ dom.contains top = true := by
  obtain ⟨next, hstep, -⟩ := Relation.TransGen.head'_iff.mp hbelow
  obtain ⟨last, -, hlast⟩ := Relation.TransGen.tail'_iff.mp hbelow
  exact ⟨(h.contains_of_mem ((h.parent_iff _ _).mp hstep)).1,
    (h.contains_of_mem ((h.parent_iff _ _).mp hlast)).2⟩

/-- A live node and its ancestors have slots of their own. -/
theorem trail_length_lt (h : Forest dom kids) {node : Handle} {nodes : List Handle}
    (htrail : Trail dom.parent? (dom.parent? node) nodes) (hlive : dom.contains node = true) :
    nodes.length < dom.nodes.slots.size := by
  have hnodup : (node :: nodes).Nodup := (Trail.cons htrail).nodup
  refine dom.nodes.length_le_of_nodup hnodup fun other hmem => ?_
  rcases List.mem_cons.mp hmem with rfl | hmem
  · exact hlive
  · exact (h.contains_of_below (htrail.mem_iff_transGen.mp hmem)).2

theorem trail_ancestors (h : Forest dom kids) (node : Handle) :
    Trail dom.parent? (dom.parent? node) (dom.ancestors node) := by
  obtain ⟨nodes, htrail⟩ := h.exists_trail_ancestors node
  have heq : dom.ancestors node = nodes := by
    cases hlive : dom.contains node with
    | true =>
        exact htrail.follow_eq (by have := h.trail_length_lt htrail hlive; unfold walkLimit; omega)
    | false =>
        have hparent : dom.parent? node = none := by
          rw [parent?, dom.links_of_not_contains hlive]
        rw [hparent] at htrail
        cases htrail
        simp [ancestors, hparent, walkLimit, follow]
  rw [heq]
  exact htrail

theorem ancestors_length_lt (h : Forest dom kids) {node : Handle}
    (hlive : dom.contains node = true) :
    (dom.ancestors node).length < dom.nodes.slots.size :=
  h.trail_length_lt (h.trail_ancestors node) hlive

theorem ancestors_of_parent (h : Forest dom kids) {node parent : Handle}
    (hparent : dom.parent? node = some parent) :
    dom.ancestors node = parent :: dom.ancestors parent := by
  refine (h.trail_ancestors node).unique ?_
  rw [hparent]
  exact Trail.cons (h.trail_ancestors parent)

theorem ancestors_of_alone (h : Forest dom kids) {node : Handle}
    (halone : dom.parent? node = none) : dom.ancestors node = [] := by
  refine (h.trail_ancestors node).unique ?_
  rw [halone]
  exact Trail.nil

theorem mem_ancestors (h : Forest dom kids) {node top : Handle} :
    top ∈ dom.ancestors node ↔ dom.Below node top :=
  (h.trail_ancestors node).mem_iff_transGen

/-! ### Descendants -/

/-- What holds of a node as soon as it holds of its children holds of every node. -/
theorem induction_children (h : Forest dom kids) {motive : Handle → Prop}
    (step : ∀ node, (∀ child ∈ kids node, motive child) → motive node) (node : Handle) :
    motive node := by
  induction hn : dom.nodes.slots.size - (dom.ancestors node).length using
    Nat.strong_induction_on generalizing node with
  | _ n ih =>
      refine step node fun child hchild => ih _ ?_ child rfl
      have hlength := h.ancestors_length_lt (h.contains_of_mem hchild).1
      rw [h.ancestors_of_parent ((h.parent_iff child node).mpr hchild), List.length_cons] at hlength
      rw [h.ancestors_of_parent ((h.parent_iff child node).mpr hchild), List.length_cons]
      omega

/-- No traversal goes deeper than there are slots. -/
theorem descendantsTo_succ (h : Forest dom kids) {depth : Nat} {node : Handle}
    (hdepth : dom.nodes.slots.size ≤ (dom.ancestors node).length + depth) :
    dom.descendantsTo (depth + 1) node = dom.descendantsTo depth node := by
  induction depth generalizing node with
  | zero =>
      have hleaf : dom.children node = [] := by
        rw [List.eq_nil_iff_forall_not_mem]
        intro child hchild
        rw [h.children_eq] at hchild
        have hlength := h.ancestors_length_lt (h.contains_of_mem hchild).1
        rw [h.ancestors_of_parent ((h.parent_iff child node).mpr hchild),
          List.length_cons] at hlength
        omega
      simp [descendantsTo, hleaf]
  | succ depth ih =>
      rw [descendantsTo, descendantsTo]
      refine List.flatMap_congr fun child hchild => ?_
      rw [h.children_eq, ← h.parent_iff] at hchild
      rw [ih]
      rw [h.ancestors_of_parent hchild, List.length_cons]
      omega

/-- The forest has a pre-order. -/
theorem isPreorder_descendantsTo (h : Forest dom kids) :
    dom.IsPreorder (dom.descendantsTo dom.nodes.slots.size) := by
  intro node
  rw [← descendantsTo, h.descendantsTo_succ (Nat.le_add_left _ _)]

section Preorder

variable {below : Handle → List Handle}

theorem mem_preorder (h : Forest dom kids) (hbelow : dom.IsPreorder below) {node top : Handle} :
    node ∈ below top ↔ dom.Below node top := by
  constructor
  · induction top using h.induction_children with
    | _ top ih =>
        intro hmem
        rw [hbelow, List.mem_flatMap] at hmem
        obtain ⟨child, hchild, hmem⟩ := hmem
        rw [h.children_eq] at hchild
        have hstep : Leads dom.parent? child top := (h.parent_iff child top).mpr hchild
        rcases List.mem_cons.mp hmem with rfl | hmem
        · exact Relation.TransGen.single hstep
        · exact Relation.TransGen.tail (ih child hchild hmem) hstep
  · intro hnode
    induction hnode with
    | single hstep =>
        rw [hbelow, List.mem_flatMap]
        exact ⟨node, by rw [h.children_eq]; exact (h.parent_iff _ _).mp hstep, by simp⟩
    | @tail child top _ hstep ih =>
        rw [hbelow, List.mem_flatMap]
        exact ⟨child, by rw [h.children_eq]; exact (h.parent_iff _ _).mp hstep,
          List.mem_cons_of_mem _ ih⟩

/-- Two nodes that the same node is within are one within the other. -/
theorem within_total {node first second : Handle} (hfirst : dom.Within node first)
    (hsecond : dom.Within node second) : dom.Within first second ∨ dom.Within second first :=
  Relation.ReflTransGen.total_of_right_unique
    (fun _ _ _ hleft hright => Option.some.inj (Eq.trans (Eq.symm hleft) hright)) hfirst hsecond

/-- Siblings have no nodes below them in common. -/
theorem eq_of_within_siblings (h : Forest dom kids) {node parent first second : Handle}
    (hfirst : first ∈ kids parent) (hsecond : second ∈ kids parent)
    (hinFirst : dom.Within node first) (hinSecond : dom.Within node second) : first = second := by
  have habsurd : ∀ {above below : Handle}, above ∈ kids parent → below ∈ kids parent →
      dom.Within below above → below = above := by
    intro above below habove hbelow hwithin
    have hup : Leads dom.parent? above parent := (h.parent_iff above parent).mpr habove
    have hstep : Leads dom.parent? below parent := (h.parent_iff below parent).mpr hbelow
    rcases Relation.ReflTransGen.cases_head hwithin with heq | ⟨next, hnext, hrest⟩
    · exact heq
    · -- otherwise the parent is within one of its children
      obtain rfl : next = parent := Option.some.inj (Eq.trans (Eq.symm hnext) hstep)
      exact absurd (Relation.TransGen.tail' hrest hup) (h.not_below_self next)
  rcases within_total hinFirst hinSecond with hwithin | hwithin
  · exact habsurd hsecond hfirst hwithin
  · exact (habsurd hfirst hsecond hwithin).symm

theorem nodup_preorder (h : Forest dom kids) (hbelow : dom.IsPreorder below) (node : Handle) :
    (below node).Nodup := by
  have hwithin : ∀ {child other : Handle}, other ∈ child :: below child →
      dom.Within other child := by
    intro child other hmem
    rcases List.mem_cons.mp hmem with rfl | hmem
    · exact Relation.ReflTransGen.refl
    · exact ((h.mem_preorder hbelow).mp hmem).to_reflTransGen
  induction node using h.induction_children with
  | _ node ih =>
      rw [hbelow, List.nodup_flatMap]
      constructor
      · intro child hchild
        rw [h.children_eq] at hchild
        refine List.nodup_cons.mpr ⟨?_, ih child hchild⟩
        rw [h.mem_preorder hbelow]
        exact h.not_below_self child
      · rw [h.children_eq]
        refine (h.nodup node).imp_of_mem fun hfirst hsecond hne => ?_
        refine List.disjoint_left.mpr fun other hinFirst hinSecond => ?_
        exact hne (h.eq_of_within_siblings hfirst hsecond (hwithin hinFirst) (hwithin hinSecond))

/-- The nodes below a node have slots of their own. -/
theorem length_preorder_le (h : Forest dom kids) (hbelow : dom.IsPreorder below)
    (node : Handle) : (below node).length ≤ dom.nodes.slots.size :=
  dom.nodes.length_le_of_nodup (h.nodup_preorder hbelow node) fun _ hmem =>
    (h.contains_of_below ((h.mem_preorder hbelow).mp hmem)).1

/-- The traversal from the children of a node ends, and visits the list of the node. -/
theorem traversal_preorder (h : Forest dom kids) (hbelow : dom.IsPreorder below)
    (node : Handle) : Traversal dom (dom.children node) (below node) := by
  have hlist : ∀ {nodes pending visited : List Handle},
      (∀ child ∈ nodes, ∀ pending visited, Traversal dom pending visited →
        Traversal dom (child :: pending) (child :: below child ++ visited)) →
      Traversal dom pending visited →
      Traversal dom (nodes ++ pending)
        ((nodes.flatMap fun child => child :: below child) ++ visited) := by
    intro nodes pending visited hnodes hpending
    induction nodes with
    | nil => exact hpending
    | cons child rest ih =>
        rw [List.flatMap_cons, List.append_assoc]
        exact hnodes child (by simp) _ _ (ih fun other hmem => hnodes other (by simp [hmem]))
  have hnode : ∀ node pending visited, Traversal dom pending visited →
      Traversal dom (node :: pending) (node :: below node ++ visited) := by
    intro node
    induction node using h.induction_children with
    | _ node ih =>
        intro pending visited hpending
        rw [hbelow, List.cons_append]
        refine Traversal.visit (hlist (fun child hchild => ih child ?_) hpending)
        rwa [h.children_eq] at hchild
  rw [hbelow]
  simpa using hlist (fun child _ => hnode child) Traversal.done

/-- The walk downwards yields the list of the pre-order, whatever bound on its steps it is
given, as long as there can be one for each node of the list. -/
theorem run_start_eq (h : Forest dom kids) (hbelow : dom.IsPreorder below) (node : Handle)
    {limit : Nat} (hlimit : (below node).length ≤ limit) :
    (Descent.start dom node).run dom limit = ⟨below node, []⟩ :=
  (h.traversal_preorder hbelow node).run_eq [] hlimit

theorem descendants_eq_preorder (h : Forest dom kids) (hbelow : dom.IsPreorder below)
    (node : Handle) : dom.descendants node = below node := by
  have hlimit := (h.length_preorder_le hbelow node).trans dom.slots_le_descentLimit
  rw [descendants, h.run_start_eq hbelow node hlimit]

end Preorder

/-- The descendants of a node are its children, each followed by its own descendants. -/
theorem descendants_eq (h : Forest dom kids) : dom.IsPreorder dom.descendants := by
  have heq : dom.descendants = dom.descendantsTo dom.nodes.slots.size :=
    funext (h.descendants_eq_preorder h.isPreorder_descendantsTo)
  rw [heq]
  exact h.isPreorder_descendantsTo

theorem mem_descendants (h : Forest dom kids) {node top : Handle} :
    node ∈ dom.descendants top ↔ dom.Below node top :=
  h.mem_preorder h.descendants_eq

theorem nodup_descendants (h : Forest dom kids) (node : Handle) :
    (dom.descendants node).Nodup :=
  h.nodup_preorder h.descendants_eq node

/-- The traversal from the children of a node ends, and visits its descendants. -/
theorem traversal_descendants (h : Forest dom kids) (node : Handle) :
    Traversal dom (dom.children node) (dom.descendants node) :=
  h.traversal_preorder h.descendants_eq node

/-! ### The root of a node -/

/-- The root of a node has no parent. -/
theorem parent_root (h : Forest dom kids) (node : Handle) :
    dom.parent? (dom.root node) = none := by
  have htrail := h.trail_ancestors node
  rw [root]
  rcases List.eq_nil_or_concat' (dom.ancestors node) with hnil | ⟨before, top, hsplit⟩
  · rw [hnil] at htrail ⊢
    exact htrail.head?_eq.symm
  · rw [hsplit] at htrail ⊢
    rw [List.getLast?_concat, Option.getD_some]
    exact htrail.tail_of_append.head?_eq.symm

/-- A node is its own root or below its root. -/
theorem eq_or_mem_descendants_root (h : Forest dom kids) (node : Handle) :
    dom.root node = node ∨ node ∈ dom.descendants (dom.root node) := by
  rcases List.eq_nil_or_concat' (dom.ancestors node) with hnil | ⟨before, top, hsplit⟩
  · left
    rw [root, hnil, List.getLast?_nil, Option.getD_none]
  · right
    have hroot : dom.root node = top := by
      rw [root, hsplit, List.getLast?_concat, Option.getD_some]
    rw [hroot, h.mem_descendants]
    exact h.mem_ancestors.mp (by simp [hsplit])

end Forest

end DomQuery.Dom

import DomQuery.Proofs.Dom.Forest

/-!
# Exchanging a node

The two moves of raw links, `detach` and `attach`, are edits of child lists: one erases a node
from the list that holds it (`Forest.detach`), the other puts a node without parent between two
siblings (`Forest.attach`).  Everything that moves nodes is made of these.

Both moves exchange what stands between two parts of one child list: the node for nothing, or
nothing for the node.  `Exchange` says which links they change, and `Exchange.forest` that the
result describes the edited forest.
-/

namespace DomQuery.Dom

/-! ### Where two child lists differ by one node -/

/-- The places of a list that is put together from two parts: a place lies in the first part
or in the second. -/
theorem append_eq_append_cons {before after left right : List Handle} {node : Handle}
    (heq : before ++ after = left ++ node :: right) :
    (∃ middle, before = left ++ node :: middle ∧ right = middle ++ after) ∨
      (∃ middle, left = before ++ middle ∧ after = middle ++ node :: right) := by
  rcases List.append_eq_append_iff.mp heq with ⟨middle, hleft, hafter⟩ | ⟨middle, hbefore, hright⟩
  · exact Or.inr ⟨middle, hleft, hafter⟩
  · cases middle with
    | nil => exact Or.inr ⟨[], by simpa using hbefore.symm, by simpa using hright.symm⟩
    | cons first middle =>
        simp only [List.cons_append, List.cons.injEq] at hright
        obtain ⟨rfl, rfl⟩ := hright
        exact Or.inl ⟨middle, hbefore, rfl⟩

/-- The link to the sibling before a node, where some nodes between two parts of its list are
exchanged for others: only the first node behind the exchange gets a new one. -/
theorem getLast?_of_exchange {before new after left right : List Handle} {node : Handle}
    {link : Option Handle} (old : List Handle) (hnodup : (before ++ new ++ after).Nodup)
    (hnew : node ∉ new)
    (hold : ∀ l r, before ++ old ++ after = l ++ node :: r → link = l.getLast?)
    (hplace : before ++ new ++ after = left ++ node :: right) :
    (if after.head? = some node then (before ++ new).getLast? else link) = left.getLast? := by
  rcases append_eq_append_cons hplace with ⟨rest, hbefore, rfl⟩ | ⟨middle, rfl, rfl⟩
  · rcases append_eq_append_cons hbefore with ⟨middle, rfl, rfl⟩ | ⟨_, _, rfl⟩
    · have hnot : after.head? ≠ some node := by
        intro hhead
        exact (List.nodup_append.mp hnodup).2.2 node (by simp) node (List.mem_of_head? hhead) rfl
      rw [if_neg hnot]
      exact hold left (middle ++ old ++ after) (by simp)
    · simp at hnew
  · cases middle with
    | nil => simp
    | cons first middle =>
        have hnot : first ≠ node := by
          rintro rfl
          exact (List.nodup_cons.mp (List.nodup_append.mp hnodup).2.1).1 (by simp)
        rw [if_neg (by simpa using hnot)]
        rw [hold (before ++ old ++ first :: middle) right (by simp)]
        simp [List.getLast?_append, List.getLast?_cons]

/-- The link to the sibling after a node in the same situation. -/
theorem head?_of_exchange {before new after left right : List Handle} {node : Handle}
    {link : Option Handle} (old : List Handle) (hnodup : (before ++ new ++ after).Nodup)
    (hnew : node ∉ new)
    (hold : ∀ l r, before ++ old ++ after = l ++ node :: r → link = r.head?)
    (hplace : before ++ new ++ after = left ++ node :: right) :
    (if before.getLast? = some node then (new ++ after).head? else link) = right.head? := by
  have hmirror := @getLast?_of_exchange after.reverse new.reverse before.reverse
    right.reverse left.reverse node link old.reverse
    (by simpa [List.append_assoc] using List.nodup_reverse.mpr hnodup) (by simpa using hnew)
    (fun l r heq => by
      rw [hold r.reverse l.reverse (by simpa using congrArg List.reverse heq)]
      simp)
    (by simpa using congrArg List.reverse hplace)
  simpa [← List.reverse_append] using hmirror

/-! ### Exchanging part of a child list -/

namespace Forest

variable {dom : Dom} {kids : Handle → List Handle}

/-- The siblings next to a place are live. -/
theorem contains_getLast? (h : Forest dom kids) {parent : Handle} {before after : List Handle}
    (hsplit : kids parent = before ++ after) {sibling : Handle}
    (hlast : before.getLast? = some sibling) : dom.contains sibling = true := by
  have hmem : sibling ∈ kids parent := by
    rw [hsplit]
    exact List.mem_append_left _ (List.mem_of_getLast? hlast)
  exact (h.contains_of_mem hmem).1

theorem contains_head? (h : Forest dom kids) {parent : Handle} {before after : List Handle}
    (hsplit : kids parent = before ++ after) {sibling : Handle}
    (hhead : after.head? = some sibling) : dom.contains sibling = true := by
  have hmem : sibling ∈ kids parent := by
    rw [hsplit]
    exact List.mem_append_right _ (List.mem_of_head? hhead)
  exact (h.contains_of_mem hmem).1

end Forest

/-- The links of a node after the child list of the parent has got `new` between `before` and
`after`.  Only the parent and the nodes next to the exchange get other links. -/
def exchangedLinks (links : Links) (parent : Handle) (before new after : List Handle)
    (node : Handle) : Links where
  parent := links.parent
  previousSibling :=
    if after.head? = some node then (before ++ new).getLast? else links.previousSibling
  nextSibling :=
    if before.getLast? = some node then (new ++ after).head? else links.nextSibling
  firstChild :=
    if before.getLast? = none ∧ node = parent then (new ++ after).head? else links.firstChild
  lastChild :=
    if after.head? = none ∧ node = parent then (before ++ new).getLast? else links.lastChild

/-- Between `before` and `after`, the child list of the parent has `old` in the first state and
`new` in the second one.  One of these is the child alone, the other one is empty. -/
structure Exchange (dom other : Dom) (kids : Handle → List Handle) (parent child : Handle)
    (before old new after : List Handle) : Prop where
  split : kids parent = before ++ old ++ after
  cases : (old = [child] ∧ new = []) ∨ (old = [] ∧ new = [child])
  /-- The child has no other place in the first state. -/
  place : ∀ top, child ∈ kids top → top = parent ∧ old = [child]
  contains_eq : ∀ node, other.contains node = dom.contains node
  live : dom.contains child = true ∧ dom.contains parent = true
  child_ne : child ≠ parent
  links_child : other.links child =
    if new = [] then
      { dom.links child with parent := none, previousSibling := none, nextSibling := none }
    else
      { dom.links child with
        parent := some parent, previousSibling := before.getLast?, nextSibling := after.head? }
  links_eq : ∀ node, node ≠ child →
    other.links node = exchangedLinks (dom.links node) parent before new after node

namespace Exchange

variable {dom other : Dom} {kids : Handle → List Handle} {parent child : Handle}
  {before old new after : List Handle}

theorem not_mem (hex : Exchange dom other kids parent child before old new after)
    (h : Forest dom kids) : child ∉ before ++ after := by
  rcases hex.cases with ⟨rfl, rfl⟩ | ⟨rfl, rfl⟩
  · have hnodup := h.nodup parent
    rw [hex.split, List.append_assoc, List.singleton_append] at hnodup
    exact (List.nodup_cons.mp (List.nodup_middle.mp hnodup)).1
  · intro hmem
    have hold := (hex.place parent (by simpa [hex.split] using hmem)).2
    exact absurd hold (by simp)

theorem nodup_new (hex : Exchange dom other kids parent child before old new after)
    (h : Forest dom kids) : (before ++ new ++ after).Nodup := by
  have hmem := hex.not_mem h
  have hnodup := h.nodup parent
  rw [hex.split] at hnodup
  rcases hex.cases with ⟨rfl, rfl⟩ | ⟨rfl, rfl⟩
  · rw [List.append_assoc, List.singleton_append] at hnodup
    simpa using (List.nodup_cons.mp (List.nodup_middle.mp hnodup)).2
  · rw [List.append_assoc, List.singleton_append]
    exact List.nodup_middle.mpr (List.nodup_cons.mpr ⟨hmem, by simpa using hnodup⟩)

/-- The child lists of the second state differ in the place of the child only. -/
theorem mem_iff (hex : Exchange dom other kids parent child before old new after)
    (h : Forest dom kids) (node top : Handle) :
    node ∈ Function.update kids parent (before ++ new ++ after) top ↔
      (node ≠ child ∧ node ∈ kids top) ∨ (node = child ∧ top = parent ∧ new = [child]) := by
  have hmem := hex.not_mem h
  by_cases htop : top = parent
  · subst htop
    rw [Function.update_self, hex.split]
    by_cases hnode : node = child
    · subst hnode
      rcases hex.cases with ⟨rfl, rfl⟩ | ⟨rfl, rfl⟩
      · simpa using hmem
      · simp
    · rcases hex.cases with ⟨rfl, rfl⟩ | ⟨rfl, rfl⟩ <;> simp [hnode]
  · rw [Function.update_of_ne htop]
    by_cases hnode : node = child
    · subst hnode
      simp only [ne_eq, not_true, false_and, htop, and_false, or_self, iff_false]
      exact fun hmem => htop (hex.place top hmem).1
    · simp [hnode]

/-- The nodes next to the exchange are children of the parent. -/
theorem mem_of_next (hex : Exchange dom other kids parent child before old new after)
    {node : Handle} (hnode : before.getLast? = some node ∨ after.head? = some node) :
    node ∈ kids parent := by
  rw [hex.split]
  rcases hnode with hlast | hhead
  · exact List.mem_append_left _ (List.mem_append_left _ (List.mem_of_getLast? hlast))
  · exact List.mem_append_right _ (List.mem_of_head? hhead)

theorem parent_iff (hex : Exchange dom other kids parent child before old new after)
    (h : Forest dom kids) (node top : Handle) :
    (other.links node).parent = some top ↔
      node ∈ Function.update kids parent (before ++ new ++ after) top := by
  rw [hex.mem_iff h]
  by_cases hnode : node = child
  · subst hnode
    rw [hex.links_child]
    rcases hex.cases with ⟨-, rfl⟩ | ⟨-, rfl⟩ <;> simp [eq_comm]
  · rw [hex.links_eq node hnode]
    simp [exchangedLinks, hnode, h.parent_iff]

theorem firstChild (hex : Exchange dom other kids parent child before old new after)
    (h : Forest dom kids) (top : Handle) : (other.links top).firstChild =
      (Function.update kids parent (before ++ new ++ after) top).head? := by
  by_cases htop : top = parent
  · subst htop
    rw [hex.links_eq top hex.child_ne.symm, Function.update_self]
    cases before with
    | nil => simp [exchangedLinks]
    | cons first before => simp [exchangedLinks, h.firstChild, hex.split]
  · rw [Function.update_of_ne htop, ← h.firstChild]
    by_cases hnode : top = child
    · rw [hnode, hex.links_child]
      split <;> rfl
    · simp [hex.links_eq top hnode, exchangedLinks, htop]

theorem lastChild (hex : Exchange dom other kids parent child before old new after)
    (h : Forest dom kids) (top : Handle) : (other.links top).lastChild =
      (Function.update kids parent (before ++ new ++ after) top).getLast? := by
  by_cases htop : top = parent
  · subst htop
    rw [hex.links_eq top hex.child_ne.symm, Function.update_self]
    cases after with
    | nil => simp [exchangedLinks]
    | cons first after => simp [exchangedLinks, h.lastChild, hex.split, List.getLast?_cons]
  · rw [Function.update_of_ne htop, ← h.lastChild]
    by_cases hnode : top = child
    · rw [hnode, hex.links_child]
      split <;> rfl
    · simp [hex.links_eq top hnode, exchangedLinks, htop]

/-- Where the child stands in the second state. -/
theorem eq_of_place (hex : Exchange dom other kids parent child before old new after)
    (h : Forest dom kids) {left right : List Handle}
    (hplace : before ++ new ++ after = left ++ child :: right) :
    new = [child] ∧ left = before ∧ right = after := by
  have hmem := hex.not_mem h
  rw [List.mem_append, not_or] at hmem
  rcases hex.cases with ⟨-, rfl⟩ | ⟨-, rfl⟩
  · rw [List.append_nil] at hplace
    have hin : child ∈ before ++ after := by simp [hplace]
    exact absurd hin (by simpa using hmem)
  · rw [List.append_assoc, List.singleton_append] at hplace
    obtain ⟨hleft, -, hright⟩ := (List.append_cons_inj_of_notMem hmem.1 hmem.2).mp hplace
    exact ⟨rfl, hleft.symm, hright.symm⟩

theorem previousSibling (hex : Exchange dom other kids parent child before old new after)
    (h : Forest dom kids) {top node : Handle} {left right : List Handle}
    (hplace : Function.update kids parent (before ++ new ++ after) top = left ++ node :: right) :
    (other.links node).previousSibling = left.getLast? := by
  have hin : node ∈ Function.update kids parent (before ++ new ++ after) top := by
    rw [hplace]
    simp
  by_cases htop : top = parent
  · subst htop
    rw [Function.update_self] at hplace
    by_cases hnode : node = child
    · subst hnode
      obtain ⟨rfl, rfl, rfl⟩ := hex.eq_of_place h hplace
      simp [hex.links_child]
    · have hnew : node ∉ new := by
        rcases hex.cases with ⟨-, rfl⟩ | ⟨-, rfl⟩ <;> simp [hnode]
      rw [hex.links_eq node hnode]
      exact getLast?_of_exchange old (hex.nodup_new h) hnew
        (fun l r hold => h.previousSibling (show kids top = l ++ node :: r from
          hex.split.trans hold)) hplace
  · rw [Function.update_of_ne htop] at hplace hin
    have hnode : node ≠ child := by
      rintro rfl
      exact htop (hex.place top hin).1
    -- the other lists have no part in the exchange
    have hnot : after.head? ≠ some node := fun hhead =>
      htop (h.parent_unique hin (hex.mem_of_next (Or.inr hhead)))
    rw [hex.links_eq node hnode, exchangedLinks]
    simp only [if_neg hnot]
    exact h.previousSibling hplace

theorem nextSibling (hex : Exchange dom other kids parent child before old new after)
    (h : Forest dom kids) {top node : Handle} {left right : List Handle}
    (hplace : Function.update kids parent (before ++ new ++ after) top = left ++ node :: right) :
    (other.links node).nextSibling = right.head? := by
  have hin : node ∈ Function.update kids parent (before ++ new ++ after) top := by
    rw [hplace]
    simp
  by_cases htop : top = parent
  · subst htop
    rw [Function.update_self] at hplace
    by_cases hnode : node = child
    · subst hnode
      obtain ⟨rfl, rfl, rfl⟩ := hex.eq_of_place h hplace
      simp [hex.links_child]
    · have hnew : node ∉ new := by
        rcases hex.cases with ⟨-, rfl⟩ | ⟨-, rfl⟩ <;> simp [hnode]
      rw [hex.links_eq node hnode]
      exact head?_of_exchange old (hex.nodup_new h) hnew
        (fun l r hold => h.nextSibling (show kids top = l ++ node :: r from
          hex.split.trans hold)) hplace
  · rw [Function.update_of_ne htop] at hplace hin
    have hnode : node ≠ child := by
      rintro rfl
      exact htop (hex.place top hin).1
    have hnot : before.getLast? ≠ some node := fun hlast =>
      htop (h.parent_unique hin (hex.mem_of_next (Or.inl hlast)))
    rw [hex.links_eq node hnode, exchangedLinks]
    simp only [if_neg hnot]
    exact h.nextSibling hplace

theorem alone (hex : Exchange dom other kids parent child before old new after)
    (h : Forest dom kids) {node : Handle} (hnone : (other.links node).parent = none) :
    (other.links node).previousSibling = none ∧ (other.links node).nextSibling = none := by
  by_cases hnode : node = child
  · rw [hnode, hex.links_child] at hnone ⊢
    split at hnone
    · rw [if_pos ‹_›]
      exact ⟨rfl, rfl⟩
    · exact absurd hnone (by simp)
  · rw [hex.links_eq node hnode] at hnone ⊢
    have hnot : node ∉ kids parent := fun hmem => by
      rw [← h.parent_iff] at hmem
      exact absurd (hmem.symm.trans hnone) (by simp)
    simp only [exchangedLinks]
    rw [if_neg fun hhead => hnot (hex.mem_of_next (Or.inr hhead)),
      if_neg fun hlast => hnot (hex.mem_of_next (Or.inl hlast))]
    exact h.alone node hnone

/-- An exchange edits the child list of the parent, provided that no cycle comes about. -/
theorem forest (hex : Exchange dom other kids parent child before old new after)
    (h : Forest dom kids) (hranked : ∃ depth : Handle → Nat, ∀ {top node : Handle},
      node ∈ Function.update kids parent (before ++ new ++ after) top → depth top < depth node) :
    Forest other (Function.update kids parent (before ++ new ++ after)) where
  contains_of_mem := by
    intro top node hmem
    rw [hex.contains_eq, hex.contains_eq]
    rcases (hex.mem_iff h node top).mp hmem with ⟨-, hmem⟩ | ⟨rfl, rfl, -⟩
    · exact h.contains_of_mem hmem
    · exact hex.live
  parent_iff := hex.parent_iff h
  nodup := by
    intro top
    by_cases htop : top = parent
    · rw [htop, Function.update_self]
      exact hex.nodup_new h
    · rw [Function.update_of_ne htop]
      exact h.nodup top
  firstChild := hex.firstChild h
  lastChild := hex.lastChild h
  previousSibling := hex.previousSibling h
  nextSibling := hex.nextSibling h
  alone := fun _ => hex.alone h
  ranked := hranked

end Exchange

/-! ### Taking a node out -/

namespace Forest

variable {dom : Dom} {kids : Handle → List Handle}

/-- Taking a node out from between two parts of a child list. -/
theorem exchange_detach (h : Forest dom kids) {parent child : Handle} {before after : List Handle}
    (hsplit : kids parent = before ++ [child] ++ after) :
    Exchange dom (dom.detach child) kids parent child before [child] [] after := by
  have hmem : child ∈ kids parent := by simp [hsplit]
  -- the neighbours are read off the child list
  have hplace : kids parent = before ++ child :: after := by simp [hsplit]
  have hne := h.parent_ne hmem
  obtain ⟨hchild, hparent⟩ := h.contains_of_mem hmem
  have hlinks : ∀ node, (dom.detach child).links node =
      if node = child then
        { dom.links child with parent := none, previousSibling := none, nextSibling := none }
      else exchangedLinks (dom.links node) parent before [] after node := by
    intro node
    unfold Dom.detach
    simp only [(h.parent_iff child parent).mpr hmem, h.previousSibling hplace,
      h.nextSibling hplace, links_modifyLinks, contains_linkBackward, contains_linkForward, hchild,
      and_true]
    rw [links_linkForward_linkBackward _ _ _ (fun sibling => h.contains_getLast? hplace)
      (fun sibling => h.contains_head? hsplit) hparent]
    by_cases hnode : node = child
    · subst hnode
      simp [hne]
    · simp [hnode, exchangedLinks]
  exact
    { split := hsplit
      cases := Or.inl ⟨rfl, rfl⟩
      place := fun top htop => ⟨h.parent_unique htop hmem, rfl⟩
      contains_eq := fun node => by simp
      live := ⟨hchild, hparent⟩
      child_ne := hne
      links_child := by rw [hlinks, if_pos rfl, if_pos rfl]
      links_eq := fun node hnode => by rw [hlinks, if_neg hnode] }

theorem detach_of_alone (h : Forest dom kids) {child : Handle}
    (hparent : (dom.links child).parent = none) :
    dom.detach child = dom ∧ (fun parent => (kids parent).erase child) = kids := by
  constructor
  · unfold Dom.detach
    simp only [hparent]
  · funext parent
    refine List.erase_of_not_mem fun hmem => ?_
    rw [← h.parent_iff, hparent] at hmem
    exact absurd hmem (by simp)

/-- Taking a node out erases it from the child list that holds it. -/
theorem detach (h : Forest dom kids) (child : Handle) :
    Forest (dom.detach child) fun parent => (kids parent).erase child := by
  cases hlink : (dom.links child).parent with
  | none =>
      obtain ⟨hdom, hkids⟩ := h.detach_of_alone hlink
      rw [hdom, hkids]
      exact h
  | some parent =>
      have hmem : child ∈ kids parent := (h.parent_iff _ _).mp hlink
      obtain ⟨before, after, hplace⟩ := List.append_of_mem hmem
      have hsplit : kids parent = before ++ [child] ++ after := by simp [hplace]
      have hex := h.exchange_detach hsplit
      have hbefore : child ∉ before := fun hin => hex.not_mem h (List.mem_append_left _ hin)
      have hkids : (fun parent => (kids parent).erase child) =
          Function.update kids parent (before ++ [] ++ after) := by
        funext top
        by_cases htop : top = parent
        · rw [htop, Function.update_self, hplace, List.erase_append_right _ hbefore,
            List.erase_cons_head, List.append_nil]
        · rw [Function.update_of_ne htop]
          exact List.erase_of_not_mem fun hin => htop (hex.place top hin).1
      -- nothing gets nearer to the top
      obtain ⟨depth, hdepth⟩ := h.ranked
      rw [hkids]
      refine hex.forest h ⟨depth, fun {top node} hin => ?_⟩
      rw [← hkids] at hin
      exact hdepth (List.mem_of_mem_erase hin)

/-! ### Putting a node in -/

/-- Putting a node without parent between two parts of a child list. -/
theorem exchange_attach (h : Forest dom kids) {parent child : Handle} {before after : List Handle}
    (hsplit : kids parent = before ++ [] ++ after) (hchild : dom.contains child = true)
    (hparent : dom.contains parent = true) (halone : (dom.links child).parent = none)
    (hne : child ≠ parent) :
    Exchange dom (dom.attach parent child before.getLast? after.head?) kids parent child before []
      [child] after := by
  -- a node without parent is in no list
  have horphan : ∀ top, child ∉ kids top := fun top hmem => by
    rw [← h.parent_iff, halone] at hmem
    exact absurd hmem (by simp)
  have hplace : kids parent = before ++ after := by simp [hsplit]
  have hlast : before.getLast? ≠ some child := fun hin => horphan parent (by
    rw [hplace]
    exact List.mem_append_left _ (List.mem_of_getLast? hin))
  have hhead : after.head? ≠ some child := fun hin => horphan parent (by
    rw [hplace]
    exact List.mem_append_right _ (List.mem_of_head? hin))
  have hlinks : ∀ node, (dom.attach parent child before.getLast? after.head?).links node =
      if node = child then
        { dom.links child with
          parent := some parent, previousSibling := before.getLast?, nextSibling := after.head? }
      else exchangedLinks (dom.links node) parent before [child] after node := by
    intro node
    unfold Dom.attach
    rw [links_linkForward_linkBackward _ _ _
      (fun sibling hin => by simpa using h.contains_getLast? hplace hin)
      (fun sibling hin => by simpa using h.contains_head? hplace hin) (by simpa using hparent),
      links_modifyLinks]
    by_cases hnode : node = child
    · subst hnode
      simp [hchild, hne, hlast, hhead]
    · simp [hnode, exchangedLinks]
  exact
    { split := hsplit
      cases := Or.inr ⟨rfl, rfl⟩
      place := fun top hin => absurd hin (horphan top)
      contains_eq := fun node => by simp
      live := ⟨hchild, hparent⟩
      child_ne := hne
      links_child := by rw [hlinks, if_pos rfl, if_neg (by simp)]
      links_eq := fun node hnode => by rw [hlinks, if_neg hnode] }

/-- Putting a node without parent below a node that is not within it adds it to the child list
there. -/
theorem attach (h : Forest dom kids) {parent child : Handle} {before after : List Handle}
    (hsplit : kids parent = before ++ after) (hchild : dom.contains child = true)
    (hparent : dom.contains parent = true) (halone : (dom.links child).parent = none)
    (hwithin : ¬ dom.Within parent child) :
    Forest (dom.attach parent child before.getLast? after.head?)
      (Function.update kids parent (before ++ child :: after)) := by
  have hne : child ≠ parent := by
    rintro rfl
    exact hwithin Relation.ReflTransGen.refl
  have hex := h.exchange_attach (show kids parent = before ++ [] ++ after by simp [hsplit]) hchild
    hparent halone hne
  have hforest := hex.forest h
  rw [List.append_assoc, List.singleton_append] at hforest
  refine hforest ?_
  obtain ⟨depth, hdepth⟩ := h.ranked
  classical
  -- the whole subtree of the node moves below its new parent
  refine ⟨fun node => if dom.Within node child then depth node + depth parent + 1
    else depth node, ?_⟩
  intro top node hmem
  rw [← List.singleton_append, ← List.append_assoc, hex.mem_iff h] at hmem
  rcases hmem with ⟨hnode, hold⟩ | ⟨rfl, rfl, -⟩
  · have hstep : Leads dom.parent? node top := (h.parent_iff _ _).mpr hold
    have hless := hdepth hold
    by_cases htop : dom.Within top child
    · have hin : dom.Within node child := Relation.ReflTransGen.head hstep htop
      simp only [if_pos htop, if_pos hin]
      omega
    · have hout : ¬ dom.Within node child := by
        intro hin
        rcases Relation.ReflTransGen.cases_head hin with rfl | ⟨next, hnext, hin⟩
        · exact hnode rfl
        · have heq : next = top := Option.some.inj (Eq.trans (Eq.symm hnext) hstep)
          exact htop (heq ▸ hin)
      simpa only [if_neg htop, if_neg hout] using hless
  · simp only [if_neg hwithin, if_pos (show dom.Within node node from Relation.ReflTransGen.refl)]
    omega

end Forest

end DomQuery.Dom

import DomQuery.Proofs.Dom.Reachable

/-!
# Moves refine an ordered forest

What a move is to an observer who sees parents, child lists and payloads only, and no links.
Appending, inserting and removing are edits of one or two child lists (`EditsLists`), and apart
from these lists and the parent of the moved node nothing changes (`Moved`).

Both rest on the forests before and after the move, which `Forest.moved` compares: outside the
new parent every list is the old one without the moved node, and in the new parent the moved
node is added to it.
-/

namespace DomQuery.Dom

/-- `other` is `dom` after the child has left its place and has got the new parent, if there is
one.  The list of the new parent is the only one about which nothing is said. -/
structure Moved (dom other : Dom) (child : Handle) (parent : Option Handle) : Prop where
  parent_child : other.parent? child = parent
  parent_other : ∀ node, node ≠ child → other.parent? node = dom.parent? node
  /-- A parent that the child leaves loses the child and nothing else. -/
  children_former : ∀ former, dom.parent? child = some former → parent ≠ some former →
    ∃ before after, dom.children former = before ++ child :: after ∧
      other.children former = before ++ after
  children_other : ∀ node, dom.parent? child ≠ some node → parent ≠ some node →
    other.children node = dom.children node
  payload_eq : ∀ node, other.payload? node = dom.payload? node
  contains_eq : ∀ node, other.contains node = dom.contains node

/-- The moves are edits of child lists. -/
structure EditsLists (dom : Dom) : Prop where
  /-- The child lists and the parents are two views of one forest. -/
  mem_children : ∀ child parent : Handle,
    child ∈ dom.children parent ↔ dom.parent? child = some parent
  children_appendChild : ∀ {parent child : Handle}, dom.Movable parent child →
    (dom.appendChild parent child).children parent =
      (dom.children parent).erase child ++ [child]
  moved_appendChild : ∀ {parent child : Handle}, dom.Movable parent child →
    Moved dom (dom.appendChild parent child) child (some parent)
  /-- The child stands in front of the reference, and the others stand as they stood. -/
  children_insertBefore : ∀ {parent child reference : Handle}, dom.Movable parent child →
    dom.parent? reference = some parent → reference ≠ child →
    ∃ before after, (dom.children parent).erase child = before ++ reference :: after ∧
      (dom.insertBefore parent child (some reference)).children parent =
        before ++ child :: reference :: after
  moved_insertBefore : ∀ {parent child reference : Handle}, dom.Movable parent child →
    dom.parent? reference = some parent → reference ≠ child →
    Moved dom (dom.insertBefore parent child (some reference)) child (some parent)
  insertBefore_none : ∀ parent child : Handle,
    dom.insertBefore parent child none = dom.appendChild parent child
  insertBefore_self : ∀ parent child : Handle,
    dom.insertBefore parent child (some child) = dom.appendChild parent child
  insertBefore_foreign : ∀ {parent child reference : Handle},
    dom.parent? reference ≠ some parent →
    dom.insertBefore parent child (some reference) = dom.appendChild parent child
  children_removeChild : ∀ {parent child : Handle}, dom.parent? child = some parent →
    (dom.removeChild parent child).children parent = (dom.children parent).erase child
  moved_removeChild : ∀ {parent child : Handle}, dom.parent? child = some parent →
    Moved dom (dom.removeChild parent child) child none
  removeChild_foreign : ∀ {parent child : Handle}, dom.parent? child ≠ some parent →
    dom.removeChild parent child = dom

/-! ### Two forests compared -/

namespace Forest

variable {dom other : Dom} {kids lists : Handle → List Handle} {child : Handle}

/-- The child has left its list and, where a new parent is given, has been added to the list
there: the rest of the forest is as it was. -/
theorem moved (h : Forest dom kids) (hother : Forest other lists) {parent : Option Handle}
    (hlists : ∀ node, parent ≠ some node → lists node = (kids node).erase child)
    (hparent : ∀ node, parent = some node → (lists node).Perm (child :: (kids node).erase child))
    (hpayload : ∀ node, other.payload? node = dom.payload? node)
    (hcontains : ∀ node, other.contains node = dom.contains node) :
    Moved dom other child parent where
  parent_child := by
    have hmem : ∀ node, child ∈ lists node ↔ parent = some node := by
      intro node
      by_cases hnode : parent = some node
      · simp [(hparent node hnode).mem_iff, hnode]
      · simp [hlists node hnode, hnode, (h.nodup node).not_mem_erase]
    refine Option.ext fun node => ?_
    exact (hother.parent_iff child node).trans (hmem node)
  parent_other := by
    intro node hne
    have hmem : ∀ top, node ∈ lists top ↔ node ∈ kids top := by
      intro top
      by_cases htop : parent = some top
      · rw [(hparent top htop).mem_iff, List.mem_cons, List.mem_erase_of_ne hne]
        exact or_iff_right hne
      · rw [hlists top htop, List.mem_erase_of_ne hne]
    refine Option.ext fun top => ?_
    exact (hother.parent_iff node top).trans ((hmem top).trans (h.parent_iff node top).symm)
  children_former := by
    intro former hformer hne
    obtain ⟨before, after, -, hsplit, herase⟩ :=
      List.exists_erase_eq ((h.parent_iff child former).mp hformer)
    refine ⟨before, after, ?_, ?_⟩
    · rw [h.children_eq, hsplit]
    · rw [hother.children_eq, hlists former hne, herase]
  children_other := by
    intro node hformer hne
    have hnotin : child ∉ kids node := fun hmem => hformer ((h.parent_iff child node).mpr hmem)
    rw [hother.children_eq, hlists node hne, List.erase_of_not_mem hnotin, h.children_eq]
  payload_eq := hpayload
  contains_eq := hcontains

/-- Where the child has been added to one list and erased from all others, it has moved to the
parent with that list. -/
theorem moved_of_update (h : Forest dom kids) {parent : Handle} {list : List Handle}
    (hother : Forest other (Function.update (fun node => (kids node).erase child) parent list))
    (hlist : list.Perm (child :: (kids parent).erase child))
    (hpayload : ∀ node, other.payload? node = dom.payload? node)
    (hcontains : ∀ node, other.contains node = dom.contains node) :
    Moved dom other child (some parent) := by
  refine h.moved hother (fun node hne => ?_) (fun node heq => ?_) hpayload hcontains
  · exact Function.update_of_ne (fun heq => hne (by rw [heq])) _ _
  · obtain rfl : parent = node := Option.some.inj heq
    rwa [Function.update_self]

/-! ### The moves -/

theorem movable_appendChild (h : Forest dom kids) {parent : Handle}
    (hmovable : dom.Movable parent child) :
    (dom.appendChild parent child).children parent = (kids parent).erase child ++ [child] ∧
      Moved dom (dom.appendChild parent child) child (some parent) := by
  have hother := h.appendChild hmovable.parent_live hmovable.child_live hmovable.not_within
  constructor
  · rw [hother.children_eq, Function.update_self]
  · exact h.moved_of_update hother List.perm_append_comm (by simp) (by simp)

theorem movable_insertBefore (h : Forest dom kids) {parent reference : Handle}
    (hmovable : dom.Movable parent child) (hreference : reference ∈ kids parent)
    (hne : reference ≠ child) :
    (∃ before after, (kids parent).erase child = before ++ reference :: after ∧
      (dom.insertBefore parent child (some reference)).children parent =
        before ++ child :: reference :: after) ∧
      Moved dom (dom.insertBefore parent child (some reference)) child (some parent) := by
  obtain ⟨before, after, hsplit⟩ :=
    List.append_of_mem ((List.mem_erase_of_ne hne).mpr hreference)
  have hother := h.insertBefore hmovable.parent_live hmovable.child_live hmovable.not_within hne
    hsplit
  constructor
  · refine ⟨before, after, hsplit, ?_⟩
    rw [hother.children_eq, Function.update_self]
  · refine h.moved_of_update hother ?_ (by simp) (by simp)
    rw [hsplit]
    exact List.perm_middle

theorem moved_removeChild (h : Forest dom kids) {parent : Handle} (hmem : child ∈ kids parent) :
    (dom.removeChild parent child).children parent = (kids parent).erase child ∧
      Moved dom (dom.removeChild parent child) child none := by
  have hother := h.removeChild hmem
  constructor
  · rw [hother.children_eq]
  · exact h.moved hother (fun _ _ => rfl) (fun _ heq => absurd heq (by simp)) (by simp) (by simp)

theorem editsLists (h : Forest dom dom.children) : dom.EditsLists where
  mem_children child parent := (h.parent_iff child parent).symm
  children_appendChild hmovable := (h.movable_appendChild hmovable).1
  moved_appendChild hmovable := (h.movable_appendChild hmovable).2
  children_insertBefore hmovable hreference hne :=
    (h.movable_insertBefore hmovable ((h.parent_iff _ _).mp hreference) hne).1
  moved_insertBefore hmovable hreference hne :=
    (h.movable_insertBefore hmovable ((h.parent_iff _ _).mp hreference) hne).2
  insertBefore_none parent child := h.insertBefore_eq fun _ hsome => absurd hsome (by simp)
  insertBefore_self parent child :=
    h.insertBefore_eq fun _ hsome _ => (Option.some.inj hsome).symm
  insertBefore_foreign := by
    intro parent child reference hforeign
    refine h.insertBefore_eq fun sibling hsome hmem => ?_
    obtain rfl : reference = sibling := Option.some.inj hsome
    exact absurd ((h.parent_iff reference parent).mpr hmem) hforeign
  children_removeChild hparent := (h.moved_removeChild ((h.parent_iff _ _).mp hparent)).1
  moved_removeChild hparent := (h.moved_removeChild ((h.parent_iff _ _).mp hparent)).2
  removeChild_foreign hforeign :=
    h.removeChild_eq fun hmem => hforeign ((h.parent_iff _ _).mpr hmem)

end Forest

/-- **In every reachable state the moves are edits of child lists.** -/
theorem editsLists_of_reachable {dom : Dom} (h : dom.Reachable) : dom.EditsLists :=
  h.forest.editsLists

/-- In the listing the second item can be put in front of the first. -/
theorem editsLists_listing :
    listing.EditsLists ∧ listing.Movable ⟨1, 0⟩ ⟨3, 0⟩ ∧
      listing.children ⟨1, 0⟩ = [⟨2, 0⟩, ⟨3, 0⟩] ∧
      (listing.insertBefore ⟨1, 0⟩ ⟨3, 0⟩ (some ⟨2, 0⟩)).children ⟨1, 0⟩ =
        [⟨3, 0⟩, ⟨2, 0⟩] :=
  ⟨editsLists_of_reachable reachable_listing,
    (isMovable_iff reachable_listing _ _).mp (by decide), by decide, by decide⟩

end DomQuery.Dom

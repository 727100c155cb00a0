import DomQuery.Dom.Edit
import DomQuery.Proofs.Arena.Lookup

/-!
# Single nodes before and after an operation

Whether a handle resolves, what its node is and how it is linked, after each of the operations
that change one node.  A handle that does not resolve has no links, so a node that is created
changes no links at all, and neither does an edit of attributes.
-/

namespace DomQuery.Dom

variable (dom : Dom)

theorem contains_eq_isSome (node : Handle) :
    dom.contains node = (dom.nodes.get? node).isSome := rfl

@[simp] theorem contains_empty (node : Handle) : empty.contains node = false := by
  simp [contains_eq_isSome, show empty.nodes = (Arena.empty : Arena Node) from rfl]

theorem contains_eq_isSome_payload? (node : Handle) :
    dom.contains node = (dom.payload? node).isSome := by
  rw [payload?, Option.isSome_map, contains_eq_isSome]

theorem links_of_not_contains {node : Handle} (h : dom.contains node = false) :
    dom.links node = {} := by
  have hnone : dom.nodes.get? node = none := by simpa [contains_eq_isSome] using h
  simp [links, hnone]

theorem contains_of_isElement {node : Handle} (h : dom.isElement node = true) :
    dom.contains node = true := by
  rw [contains_eq_isSome]
  cases hnode : dom.nodes.get? node with
  | none => exact absurd h (by simp [isElement, element?, payload?, hnode])
  | some value => rfl

/-- No node is an element and a document. -/
theorem isElement_eq_false_of_isDocument {node : Handle} (h : dom.isDocument node = true) :
    dom.isElement node = false := by
  unfold isElement element?
  unfold isDocument at h
  cases hpayload : dom.payload? node with
  | none => rfl
  | some payload => cases payload <;> simp_all [Payload.isDocument, Payload.element?]

theorem isDocument_eq_false_of_isElement {node : Handle} (h : dom.isElement node = true) :
    dom.isDocument node = false := by
  by_contra htrue
  rw [Bool.not_eq_false] at htrue
  rw [dom.isElement_eq_false_of_isDocument htrue] at h
  exact absurd h (by simp)

/-! ### Creation -/

theorem contains_create_fst (payload : Payload) :
    dom.contains (dom.create payload).1 = false := by
  simp [contains_eq_isSome, create, Arena.get?_allocate_fst]

theorem contains_create (payload : Payload) (node : Handle) :
    (dom.create payload).2.contains node =
      (decide (node = (dom.create payload).1) || dom.contains node) := by
  simp only [contains_eq_isSome, create, Arena.get?_allocate]
  split <;> simp_all

/-- The new node has no links, and no other node is linked to it. -/
theorem links_create (payload : Payload) (node : Handle) :
    (dom.create payload).2.links node = dom.links node := by
  by_cases h : node = (dom.create payload).1
  · rw [h, dom.links_of_not_contains (dom.contains_create_fst payload)]
    simp [links, create, Arena.get?_allocate]
  · have h' : node ≠ (dom.nodes.allocate { payload := payload }).1 := h
    simp [links, create, Arena.get?_allocate, h']

theorem payload?_create (payload : Payload) (node : Handle) :
    (dom.create payload).2.payload? node =
      if node = (dom.create payload).1 then some payload else dom.payload? node := by
  simp only [payload?, create, Arena.get?_allocate]
  split <;> simp_all

/-! ### Attributes -/

@[simp] theorem contains_modifyElement (target : Handle) (f : Element → Element)
    (node : Handle) : (dom.modifyElement target f).contains node = dom.contains node := by
  simp only [contains_eq_isSome, modifyElement, Arena.get?_modify]
  split <;> simp_all

@[simp] theorem links_modifyElement (target : Handle) (f : Element → Element) (node : Handle) :
    (dom.modifyElement target f).links node = dom.links node := by
  simp only [links, modifyElement, Arena.get?_modify]
  split
  · next h =>
      subst h
      cases dom.nodes.get? node <;> rfl
  · rfl

theorem payload?_modifyElement (target : Handle) (f : Element → Element) (node : Handle) :
    (dom.modifyElement target f).payload? node =
      if node = target then (dom.payload? node).map (Payload.mapElement f)
      else dom.payload? node := by
  simp only [payload?, modifyElement, Arena.get?_modify]
  split
  · next h =>
      subst h
      cases dom.nodes.get? node <;> rfl
  · rfl

/-! ### Links -/

@[simp] theorem contains_modifyLinks (target : Handle) (f : Links → Links) (node : Handle) :
    (dom.modifyLinks target f).contains node = dom.contains node := by
  simp only [contains_eq_isSome, modifyLinks, Arena.get?_modify]
  split <;> simp_all

@[simp] theorem payload?_modifyLinks (target : Handle) (f : Links → Links) (node : Handle) :
    (dom.modifyLinks target f).payload? node = dom.payload? node := by
  simp only [payload?, modifyLinks, Arena.get?_modify]
  split
  · next h =>
      subst h
      cases dom.nodes.get? node <;> rfl
  · rfl

theorem links_modifyLinks (target : Handle) (f : Links → Links) (node : Handle) :
    (dom.modifyLinks target f).links node =
      if node = target ∧ dom.contains target = true then f (dom.links node)
      else dom.links node := by
  simp only [links, modifyLinks, Arena.get?_modify, contains_eq_isSome]
  by_cases h : node = target
  · rcases Option.eq_none_or_eq_some (dom.nodes.get? target) with hget | ⟨value, hget⟩ <;>
      simp [h, hget]
  · simp [h]

@[simp] theorem contains_linkForward (parent : Handle) (previous target : Option Handle)
    (node : Handle) :
    (dom.linkForward parent previous target).contains node = dom.contains node := by
  unfold linkForward
  split <;> simp

@[simp] theorem contains_linkBackward (parent : Handle) (next target : Option Handle)
    (node : Handle) :
    (dom.linkBackward parent next target).contains node = dom.contains node := by
  unfold linkBackward
  split <;> simp

@[simp] theorem payload?_linkForward (parent : Handle) (previous target : Option Handle)
    (node : Handle) :
    (dom.linkForward parent previous target).payload? node = dom.payload? node := by
  unfold linkForward
  split <;> simp

@[simp] theorem payload?_linkBackward (parent : Handle) (next target : Option Handle)
    (node : Handle) :
    (dom.linkBackward parent next target).payload? node = dom.payload? node := by
  unfold linkBackward
  split <;> simp

/-- The link forward over a place is kept by the sibling before it, if there is one, and
otherwise by the parent. -/
theorem links_linkForward {parent : Handle} {previous : Option Handle} (target : Option Handle)
    (hprevious : ∀ sibling, previous = some sibling → dom.contains sibling = true)
    (hparent : dom.contains parent = true) (node : Handle) :
    (dom.linkForward parent previous target).links node =
      if previous = some node then { dom.links node with nextSibling := target }
      else if previous = none ∧ node = parent then { dom.links node with firstChild := target }
      else dom.links node := by
  unfold linkForward
  cases previous with
  | none => simp [links_modifyLinks, hparent]
  | some sibling =>
      have hsibling := hprevious sibling rfl
      simp [links_modifyLinks, hsibling, Option.filter_some, eq_comm]

/-- The link backward over a place is kept by the sibling after it, if there is one, and
otherwise by the parent. -/
theorem links_linkBackward {parent : Handle} {next : Option Handle} (target : Option Handle)
    (hnext : ∀ sibling, next = some sibling → dom.contains sibling = true)
    (hparent : dom.contains parent = true) (node : Handle) :
    (dom.linkBackward parent next target).links node =
      if next = some node then { dom.links node with previousSibling := target }
      else if next = none ∧ node = parent then { dom.links node with lastChild := target }
      else dom.links node := by
  unfold linkBackward
  cases next with
  | none => simp [links_modifyLinks, hparent]
  | some sibling =>
      have hsibling := hnext sibling rfl
      simp [links_modifyLinks, hsibling, Option.filter_some, eq_comm]

/-- The links over a place after both sides of it have been set. -/
theorem links_linkForward_linkBackward {parent : Handle} {previous next : Option Handle}
    (forward backward : Option Handle)
    (hprevious : ∀ sibling, previous = some sibling → dom.contains sibling = true)
    (hnext : ∀ sibling, next = some sibling → dom.contains sibling = true)
    (hparent : dom.contains parent = true) (node : Handle) :
    ((dom.linkForward parent previous forward).linkBackward parent next backward).links node =
      { parent := (dom.links node).parent
        previousSibling :=
          if next = some node then backward else (dom.links node).previousSibling
        nextSibling := if previous = some node then forward else (dom.links node).nextSibling
        firstChild :=
          if previous = none ∧ node = parent then forward else (dom.links node).firstChild
        lastChild :=
          if next = none ∧ node = parent then backward else (dom.links node).lastChild } := by
  rw [links_linkBackward _ _ (by simpa using hnext) (by simpa using hparent),
    links_linkForward _ _ hprevious hparent]
  cases previous <;> cases next <;> simp only [reduceCtorEq, false_and, true_and, if_false,
    Option.some.injEq] <;> split_ifs <;> rfl

@[simp] theorem contains_attach (parent child : Handle) (previous next : Option Handle)
    (node : Handle) :
    (dom.attach parent child previous next).contains node = dom.contains node := by
  simp [attach]

@[simp] theorem payload?_attach (parent child : Handle) (previous next : Option Handle)
    (node : Handle) :
    (dom.attach parent child previous next).payload? node = dom.payload? node := by
  simp [attach]

@[simp] theorem contains_detach (child node : Handle) :
    (dom.detach child).contains node = dom.contains node := by
  unfold detach
  dsimp only
  split <;> simp

@[simp] theorem payload?_detach (child node : Handle) :
    (dom.detach child).payload? node = dom.payload? node := by
  unfold detach
  dsimp only
  split <;> simp

/-! ### What moves leave alone -/

section Frame

variable (parent child node : Handle) (reference : Option Handle)

@[simp] theorem contains_appendChild :
    (dom.appendChild parent child).contains node = dom.contains node := by
  simp [appendChild]

@[simp] theorem payload?_appendChild :
    (dom.appendChild parent child).payload? node = dom.payload? node := by
  simp [appendChild]

@[simp] theorem contains_insertBefore :
    (dom.insertBefore parent child reference).contains node = dom.contains node := by
  unfold insertBefore
  split <;> simp

@[simp] theorem payload?_insertBefore :
    (dom.insertBefore parent child reference).payload? node = dom.payload? node := by
  unfold insertBefore
  split <;> simp

@[simp] theorem contains_removeChild :
    (dom.removeChild parent child).contains node = dom.contains node := by
  unfold removeChild
  split <;> simp

@[simp] theorem payload?_removeChild :
    (dom.removeChild parent child).payload? node = dom.payload? node := by
  unfold removeChild
  split <;> simp

end Frame

end DomQuery.Dom

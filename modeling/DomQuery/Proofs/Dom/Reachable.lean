import DomQuery.Proofs.Dom.Moves

/-!
# Reachable states

The states of a document object model that a sequence of edits leads to from the empty one.
Every edit may be given any handle.  Only a move has conditions: parent and child are live, and
the parent is not within the child, so that no node comes to lie below itself.

The links of a reachable state always describe a forest (`Reachable.forest`): each edit changes
the child lists as the move lemmas say, and the empty state describes the forest without nodes.
Slots are numbered without a bound here, so nothing is assumed about their number.
-/

namespace DomQuery

/-- One operation on the nodes. -/
inductive Edit where
  | createDocument
  | createElement (tagName : String) (attributes : List Attribute)
  | createText (data : String)
  | createComment (data : String)
  | setAttribute (node : Handle) (name value : String)
  | removeAttribute (node : Handle) (name : String)
  | appendChild (parent child : Handle)
  | insertBefore (parent child : Handle) (reference : Option Handle)
  | removeChild (parent child : Handle)
  | dropSubtree (node : Handle)
  deriving DecidableEq, Repr

namespace Dom

/-- The state after an edit. -/
def apply (dom : Dom) : Edit → Dom
  | .createDocument => dom.createDocument.2
  | .createElement tagName attributes => (dom.createElement tagName attributes).2
  | .createText data => (dom.createText data).2
  | .createComment data => (dom.createComment data).2
  | .setAttribute node name value => dom.setAttribute node name value
  | .removeAttribute node name => dom.removeAttribute node name
  | .appendChild parent child => dom.appendChild parent child
  | .insertBefore parent child reference => dom.insertBefore parent child reference
  | .removeChild parent child => dom.removeChild parent child
  | .dropSubtree node => dom.dropSubtree node

/-- The child can be moved below the parent: both are live, and the parent is not within the
child. -/
structure Movable (dom : Dom) (parent child : Handle) : Prop where
  parent_live : dom.contains parent = true
  child_live : dom.contains child = true
  not_within : ¬ dom.Within parent child

/-- Whether an edit may be applied: moves have conditions, and all other edits have none. -/
def Permits (dom : Dom) : Edit → Prop
  | .appendChild parent child => dom.Movable parent child
  | .insertBefore parent child _ => dom.Movable parent child
  | _ => True

/-- The states reached from the empty one by permitted edits. -/
inductive Reachable : Dom → Prop where
  | empty : Reachable Dom.empty
  | edit {dom : Dom} {e : Edit} : Reachable dom → dom.Permits e → Reachable (dom.apply e)

/-! ### The forest of a reachable state -/

namespace Forest

variable {dom : Dom} {kids : Handle → List Handle}

theorem create (h : Forest dom kids) (payload : Payload) :
    Forest (dom.create payload).2 kids :=
  h.congr (fun node hnode => by simp [contains_create, hnode]) (dom.links_create payload)

theorem modifyElement (h : Forest dom kids) (node : Handle) (f : Element → Element) :
    Forest (dom.modifyElement node f) kids :=
  h.congr (fun _ hnode => by simpa using hnode) (dom.links_modifyElement node f)

/-- Every permitted edit leads from a forest to a forest. -/
theorem apply (h : Forest dom kids) {e : Edit} (hpermits : dom.Permits e) :
    ∃ kids', Forest (dom.apply e) kids' := by
  cases e with
  | createDocument => exact ⟨_, h.create _⟩
  | createElement tagName attributes => exact ⟨_, h.create _⟩
  | createText data => exact ⟨_, h.create _⟩
  | createComment data => exact ⟨_, h.create _⟩
  | setAttribute node name value => exact ⟨_, h.modifyElement node _⟩
  | removeAttribute node name => exact ⟨_, h.modifyElement node _⟩
  | appendChild parent child =>
      exact ⟨_, h.appendChild hpermits.parent_live hpermits.child_live hpermits.not_within⟩
  | insertBefore parent child reference =>
      by_cases hreference : ∃ sibling, reference = some sibling ∧ sibling ∈ kids parent ∧
        sibling ≠ child
      · obtain ⟨sibling, rfl, hmem, hne⟩ := hreference
        obtain ⟨before, after, hsplit⟩ :=
          List.append_of_mem ((List.mem_erase_of_ne hne).mpr hmem)
        exact ⟨_, h.insertBefore hpermits.parent_live hpermits.child_live hpermits.not_within
          hne hsplit⟩
      · have heq : dom.insertBefore parent child reference = dom.appendChild parent child := by
          refine h.insertBefore_eq fun sibling hsome hmem => ?_
          by_contra hne
          exact hreference ⟨sibling, hsome, hmem, hne⟩
        rw [Dom.apply, heq]
        exact ⟨_, h.appendChild hpermits.parent_live hpermits.child_live hpermits.not_within⟩
  | removeChild parent child =>
      by_cases hmem : child ∈ kids parent
      · exact ⟨_, h.removeChild hmem⟩
      · rw [Dom.apply, h.removeChild_eq hmem]
        exact ⟨kids, h⟩
  | dropSubtree node => exact ⟨_, h.dropSubtree node⟩

end Forest

/-- The links of a reachable state describe a forest, whose child lists are the lists of
children. -/
theorem Reachable.forest {dom : Dom} (h : dom.Reachable) : Forest dom dom.children := by
  induction h with
  | empty => exact Forest.empty.children
  | edit _ hpermits ih =>
      obtain ⟨kids, hkids⟩ := ih.apply hpermits
      exact hkids.children

/-! ### Deciding whether a move is permitted -/

theorem Forest.within_iff {dom : Dom} {kids : Handle → List Handle} (h : Forest dom kids)
    {node top : Handle} : dom.Within node top ↔ top = node ∨ top ∈ dom.ancestors node := by
  rw [h.mem_ancestors]
  exact Relation.reflTransGen_iff_eq_or_transGen

/-- Decides whether the child can be moved below the parent. -/
def isMovable (dom : Dom) (parent child : Handle) : Bool :=
  dom.contains parent && dom.contains child && child != parent &&
    !(dom.ancestors parent).contains child

/-- Decides whether an edit may be applied. -/
def permits (dom : Dom) : Edit → Bool
  | .appendChild parent child => dom.isMovable parent child
  | .insertBefore parent child _ => dom.isMovable parent child
  | _ => true

theorem isMovable_iff {dom : Dom} (h : dom.Reachable) (parent child : Handle) :
    dom.isMovable parent child = true ↔ dom.Movable parent child := by
  simp only [isMovable, Bool.and_eq_true, bne_iff_ne, Bool.not_eq_true',
    List.contains_eq_mem, decide_eq_false_iff_not]
  constructor
  · rintro ⟨⟨⟨hparent, hchild⟩, hne⟩, hancestor⟩
    exact ⟨hparent, hchild, fun hwithin => (h.forest.within_iff.mp hwithin).elim hne hancestor⟩
  · rintro ⟨hparent, hchild, hwithin⟩
    exact ⟨⟨⟨hparent, hchild⟩, fun heq => hwithin (h.forest.within_iff.mpr (Or.inl heq))⟩,
      fun hancestor => hwithin (h.forest.within_iff.mpr (Or.inr hancestor))⟩

theorem permits_iff {dom : Dom} (h : dom.Reachable) (e : Edit) :
    dom.permits e = true ↔ dom.Permits e := by
  cases e <;> simp [permits, Permits, isMovable_iff h]

/-- The state after a list of edits, if each of them is permitted. -/
def run? (dom : Dom) : List Edit → Option Dom
  | [] => some dom
  | e :: rest => if dom.permits e then (dom.apply e).run? rest else none

theorem Reachable.run? {dom result : Dom} (h : dom.Reachable) {edits : List Edit}
    (hrun : dom.run? edits = some result) : result.Reachable := by
  induction edits generalizing dom with
  | nil =>
      cases hrun
      exact h
  | cons e rest ih =>
      rw [Dom.run?] at hrun
      split at hrun
      · next hpermits => exact ih (h.edit ((permits_iff h e).mp hpermits)) hrun
      · exact absurd hrun (by simp)

/-! ### Small documents -/

/-- The edits that build a document whose root element `ul` holds two elements `li`.  The first
of them, with the `id`, is put before the other one. -/
def listingEdits : List Edit :=
  [.createDocument, .createElement "ul" [], .createElement "li" [⟨"id", "a"⟩],
    .createElement "li" [], .appendChild ⟨0, 0⟩ ⟨1, 0⟩, .appendChild ⟨1, 0⟩ ⟨3, 0⟩,
    .insertBefore ⟨1, 0⟩ ⟨2, 0⟩ (some ⟨3, 0⟩)]

def listing : Dom :=
  (Dom.empty.run? listingEdits).getD Dom.empty

theorem reachable_listing : listing.Reachable :=
  Reachable.empty.run? (show Dom.empty.run? listingEdits = some listing from rfl)

/-- The edits that build a document with more than one level: below its root element `ol` stand
an element `li` with an element `em` and a text inside, a blank text, an element `p` and an
empty element `li`. -/
def outlineEdits : List Edit :=
  [.createDocument, .createElement "ol" [], .createElement "li" [], .createElement "em" [],
    .createText "x", .createText " ", .createElement "p" [], .createElement "li" [],
    .appendChild ⟨0, 0⟩ ⟨1, 0⟩, .appendChild ⟨1, 0⟩ ⟨2, 0⟩, .appendChild ⟨2, 0⟩ ⟨3, 0⟩,
    .appendChild ⟨2, 0⟩ ⟨4, 0⟩, .appendChild ⟨1, 0⟩ ⟨5, 0⟩, .appendChild ⟨1, 0⟩ ⟨6, 0⟩,
    .appendChild ⟨1, 0⟩ ⟨7, 0⟩]

def outline : Dom :=
  (Dom.empty.run? outlineEdits).getD Dom.empty

theorem reachable_outline : outline.Reachable :=
  Reachable.empty.run? (show Dom.empty.run? outlineEdits = some outline from rfl)

end Dom

end DomQuery

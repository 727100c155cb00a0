import DomQuery.Proofs.Dom.Reachable
import DomQuery.Proofs.Text.Case

/-!
# Labels of elements

An element keeps its `id` and its classes beside its attributes, and its tag name in lower case.
In every reachable state they agree (`Reachable.labels`): an element is made from its attributes,
an edit of the attributes makes it anew from the edited ones, and no other edit changes an
element at all.
-/

namespace DomQuery

namespace Element

/-- What the element keeps beside its attributes is what they say. -/
structure Labelled (element : Element) : Prop where
  tagName_lower : Text.lowercase element.tagName = element.tagName
  id_eq : element.id = element.attributeValue? "id"
  classes_eq : element.classes = ((element.attributeValue? "class").map classWords).getD []

theorem labelled_withAttributes {element : Element}
    (h : Text.lowercase element.tagName = element.tagName) (attributes : List Attribute) :
    (element.withAttributes attributes).Labelled where
  tagName_lower := h
  id_eq := rfl
  classes_eq := rfl

theorem labelled_new (tagName : String) (attributes : List Attribute) :
    (new tagName attributes).Labelled :=
  @labelled_withAttributes ⟨Text.lowercase tagName, [], none, []⟩
    (Text.lowercase_lowercase tagName) attributes

end Element

namespace Dom

/-- All elements are labelled as their attributes say. -/
def Labelled (dom : Dom) : Prop :=
  ∀ node element, dom.payload? node = some (.element element) → element.Labelled

namespace Labelled

variable {dom : Dom}

/-- An edit that leaves every node what it is, or frees it, changes no label. -/
theorem congr (h : dom.Labelled) {other : Dom}
    (hpayload : ∀ node, other.payload? node = none ∨ other.payload? node = dom.payload? node) :
    other.Labelled := by
  intro node element helement
  rcases hpayload node with hnone | hsame
  · rw [hnone] at helement
    exact absurd helement (by simp)
  · exact h node element (hsame ▸ helement)

theorem create (h : dom.Labelled) {payload : Payload}
    (hpayload : ∀ element, payload = .element element → element.Labelled) :
    (dom.create payload).2.Labelled := by
  intro node element helement
  rw [payload?_create] at helement
  split at helement
  · exact hpayload element (Option.some.inj helement)
  · exact h node element helement

theorem modifyElement (h : dom.Labelled) (target : Handle) {f : Element → Element}
    (hf : ∀ element, element.Labelled → (f element).Labelled) :
    (dom.modifyElement target f).Labelled := by
  intro node element helement
  rw [payload?_modifyElement] at helement
  split at helement
  · obtain ⟨payload, hpayload, hmap⟩ := Option.map_eq_some_iff.mp helement
    cases payload with
    | element old =>
        cases hmap
        exact hf old (h node old hpayload)
    | document => cases hmap
    | text data => cases hmap
    | comment data => cases hmap
  · exact h node element helement

/-- Every edit keeps the labels in agreement with the attributes. -/
theorem apply (h : dom.Labelled) (e : Edit) : (dom.apply e).Labelled := by
  cases e with
  | createDocument => exact h.create (by simp)
  | createElement tagName attributes =>
      refine h.create fun element helement => ?_
      cases helement
      exact Element.labelled_new tagName attributes
  | createText data => exact h.create (by simp)
  | createComment data => exact h.create (by simp)
  | setAttribute node name value =>
      exact h.modifyElement node fun _ hold =>
        Element.labelled_withAttributes hold.tagName_lower _
  | removeAttribute node name =>
      exact h.modifyElement node fun _ hold =>
        Element.labelled_withAttributes hold.tagName_lower _
  | appendChild parent child =>
      exact h.congr fun node => Or.inr (dom.payload?_appendChild parent child node)
  | insertBefore parent child reference =>
      exact h.congr fun node => Or.inr (dom.payload?_insertBefore parent child node reference)
  | removeChild parent child =>
      exact h.congr fun node => Or.inr (dom.payload?_removeChild parent child node)
  | dropSubtree top => exact h.congr (dom.payload?_dropSubtree top)

theorem empty : Dom.empty.Labelled := by
  intro node element helement
  have hlive : Dom.empty.payload? node = none := by
    have hgone := contains_empty node
    rw [contains_eq_isSome, Option.isSome_eq_false_iff, Option.isNone_iff_eq_none] at hgone
    rw [payload?, hgone, Option.map_none]
  rw [hlive] at helement
  exact absurd helement (by simp)

/-- All edits keep the labels in agreement with the attributes, permitted or not. -/
theorem foldl (h : dom.Labelled) (edits : List Edit) : (edits.foldl Dom.apply dom).Labelled := by
  induction edits generalizing dom with
  | nil => exact h
  | cons e rest ih => exact ih (h.apply e)

theorem labels (h : dom.Labelled) {node : Handle} {element : Element}
    (helement : dom.element? node = some element) : element.Labelled := by
  obtain ⟨payload, hpayload, hsome⟩ := Option.bind_eq_some_iff.mp helement
  cases payload with
  | element found =>
      cases hsome
      exact h node _ hpayload
  | document => cases hsome
  | text data => cases hsome
  | comment data => cases hsome

end Labelled

theorem Reachable.labelled {dom : Dom} (h : dom.Reachable) : dom.Labelled := by
  induction h with
  | empty => exact Labelled.empty
  | edit _ _ ih => exact ih.apply _

/-- In every reachable state the labels of an element are what its attributes say. -/
theorem Reachable.labels {dom : Dom} (h : dom.Reachable) {node : Handle} {element : Element}
    (helement : dom.element? node = some element) : element.Labelled :=
  h.labelled.labels helement

end Dom

end DomQuery

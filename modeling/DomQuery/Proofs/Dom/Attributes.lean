import DomQuery.Proofs.Dom.Labels
import DomQuery.Proofs.Text.Words

/-!
# Attributes

To a reader, the attributes of an element are a map from names to values in which the case of a name
does not count, although the list behind it can hold one name several times and in any case: a
lookup takes the first attribute with the name, an assignment changes the first, and a removal takes
all of them (`Element.attributeValue?_setAttribute`, `Element.attributeValue?_removeAttribute`).

The tag name, the `id` and the classes that an element keeps are those that the map says, in every
state that edits lead to (`attributed_of_edits`).  Nothing is assumed about the edits: a move that
is not permitted may damage the links of nodes, but no move changes what a node is.
-/

namespace DomQuery

/-! ### Elements -/

namespace Element

variable {attributes : List Attribute} {name other : String}

theorem isNamed_eq_of_sameFolded (h : Text.sameFolded name other = true) (a : Attribute) :
    a.isNamed other = a.isNamed name := by
  rw [Attribute.isNamed, Attribute.isNamed, Text.sameFolded, Text.sameFolded, beq_iff_eq.mp h]

theorem sameFolded_comm (first second : String) :
    Text.sameFolded first second = Text.sameFolded second first := by
  rw [Text.sameFolded, Text.sameFolded, Bool.beq_comm]

/-- An attribute has not two names that differ in more than case. -/
theorem isNamed_eq_false (hother : Text.sameFolded name other = false) {a : Attribute}
    (ha : a.isNamed name = true) : a.isNamed other = false := by
  rw [Attribute.isNamed, sameFolded_comm] at ha
  rw [Attribute.isNamed, ← hother, Text.sameFolded, Text.sameFolded, beq_iff_eq.mp ha]

/-- The value of the first attribute with the name. -/
def firstValue? (attributes : List Attribute) (name : String) : Option String :=
  (attributes.find? (·.isNamed name)).map Attribute.value

theorem firstValue?_cons (a : Attribute) (attributes : List Attribute) (name : String) :
    firstValue? (a :: attributes) name =
      if a.isNamed name then some a.value else firstValue? attributes name := by
  rw [firstValue?, List.find?_cons]
  cases a.isNamed name <;> rfl

theorem firstValue?_assign (name value other : String) (attributes : List Attribute) :
    firstValue? (assign name value attributes) other =
      if Text.sameFolded name other then some value else firstValue? attributes other := by
  induction attributes with
  | nil =>
      rw [assign, firstValue?_cons]
      rfl
  | cons a rest ih =>
      rw [assign]
      split
      · next hnamed =>
          -- the first attribute with the name is the one that gets the value
          have hsame : a.isNamed other = Text.sameFolded name other := by
            rw [Attribute.isNamed, Text.sameFolded, beq_iff_eq.mp hnamed, Text.sameFolded]
          rw [firstValue?_cons, firstValue?_cons, hsame,
            show Attribute.isNamed ⟨a.name, value⟩ other = a.isNamed other from rfl, hsame]
          split <;> rfl
      · next hnamed =>
          rw [firstValue?_cons, firstValue?_cons, ih]
          cases hother : Text.sameFolded name other with
          | false => rfl
          | true =>
              rw [isNamed_eq_of_sameFolded hother, if_neg hnamed]
              rfl

theorem firstValue?_filter (name other : String) (attributes : List Attribute) :
    firstValue? (attributes.filter fun a => !a.isNamed name) other =
      if Text.sameFolded name other then none else firstValue? attributes other := by
  rw [firstValue?, List.find?_filter]
  cases hother : Text.sameFolded name other with
  | true =>
      rw [List.find?_eq_none.mpr fun a _ => ?_]
      · rfl
      · rw [isNamed_eq_of_sameFolded hother]
        simp
  | false =>
      have hkept : (fun a : Attribute =>
          decide ((!a.isNamed name) = true ∧ a.isNamed other = true)) =
            fun a => a.isNamed other := by
        funext a
        cases hnamed : a.isNamed name with
        | true => simp [isNamed_eq_false hother hnamed]
        | false => simp
      rw [hkept]
      rfl

theorem attributeValue?_congr (element : Element) (h : Text.sameFolded name other = true) :
    element.attributeValue? other = element.attributeValue? name := by
  have hnamed : (fun a : Attribute => a.isNamed other) = fun a => a.isNamed name :=
    funext (isNamed_eq_of_sameFolded h)
  rw [attributeValue?, attributeValue?, hnamed]

/-- A value that was given to a name is the value of the name in any case. -/
theorem attributeValue?_setAttribute (element : Element) (name value other : String) :
    (element.setAttribute name value).attributeValue? other =
      if Text.sameFolded name other then some value else element.attributeValue? other :=
  firstValue?_assign name value other element.attributes

/-- A name that was removed has no value in any case. -/
theorem attributeValue?_removeAttribute (element : Element) (name other : String) :
    (element.removeAttribute name).attributeValue? other =
      if Text.sameFolded name other then none else element.attributeValue? other :=
  firstValue?_filter name other element.attributes

end Element

/-! ### Nodes -/

theorem Payload.element?_mapElement (f : Element → Element) (payload : Payload) :
    (payload.mapElement f).element? = payload.element?.map f := by
  cases payload <;> rfl

theorem Payload.mapElement_of_none {payload : Payload} (h : payload.element? = none)
    (f : Element → Element) : payload.mapElement f = payload := by
  cases payload with
  | element e => exact absurd h (by simp [Payload.element?])
  | document => rfl
  | text data => rfl
  | comment data => rfl

namespace Dom

variable {dom : Dom} {node : Handle}

theorem element?_modifyElement (dom : Dom) (node : Handle) (f : Element → Element) :
    (dom.modifyElement node f).element? node = (dom.element? node).map f := by
  rw [element?, payload?_modifyElement, if_pos rfl, element?]
  cases dom.payload? node with
  | none => rfl
  | some payload => exact payload.element?_mapElement f

/-- Where there is no element, nothing is changed. -/
theorem modifyElement_of_not_isElement (h : dom.isElement node = false) (f : Element → Element) :
    dom.modifyElement node f = dom := by
  rw [isElement, Option.isSome_eq_false_iff, Option.isNone_iff_eq_none] at h
  rw [modifyElement]
  congr 1
  cases hnode : dom.nodes.get? node with
  | none => exact Arena.modify_of_none hnode _
  | some found =>
      have hpayload : found.payload.element? = none := by
        rwa [element?, payload?, hnode] at h
      exact Arena.modify_of_fixed hnode (by rw [Payload.mapElement_of_none hpayload])

/-- The attributes of elements are a map in which the case of a name does not count, and the tag
names, the `id`s and the classes are what the map says. -/
structure Attributed (dom : Dom) : Prop where
  tagName_lower : ∀ node element, dom.element? node = some element →
    ∀ c ∈ element.tagName.toList, c.isUpper = false
  id_eq : ∀ node element, dom.element? node = some element →
    element.id = dom.attributeValue? node "id"
  classes_of_none : ∀ node element, dom.element? node = some element →
    dom.attributeValue? node "class" = none → element.classes = []
  classes_of_some : ∀ node element, dom.element? node = some element →
    ∀ value, dom.attributeValue? node "class" = some value →
      Text.IsSplit value.toList (element.classes.map String.toList)
  attributeValue?_eq : ∀ node name other, Text.sameFolded name other = true →
    dom.attributeValue? node other = dom.attributeValue? node name
  attributeValue?_set : ∀ node, dom.isElement node = true → ∀ name value other,
    (dom.setAttribute node name value).attributeValue? node other =
      if Text.sameFolded name other then some value else dom.attributeValue? node other
  attributeValue?_remove : ∀ node, dom.isElement node = true → ∀ name other,
    (dom.removeAttribute node name).attributeValue? node other =
      if Text.sameFolded name other then none else dom.attributeValue? node other
  setAttribute_eq : ∀ node, dom.isElement node = false → ∀ name value,
    dom.setAttribute node name value = dom
  removeAttribute_eq : ∀ node, dom.isElement node = false → ∀ name,
    dom.removeAttribute node name = dom

theorem attributeValue?_of_element? {element : Element} (h : dom.element? node = some element)
    (name : String) : dom.attributeValue? node name = element.attributeValue? name := by
  rw [attributeValue?, h, Option.bind_some]

theorem attributeValue?_modifyElement (dom : Dom) {element : Element}
    (h : dom.element? node = some element) (f : Element → Element) (name : String) :
    (dom.modifyElement node f).attributeValue? node name = (f element).attributeValue? name := by
  rw [attributeValue?, element?_modifyElement, h, Option.map_some, Option.bind_some]

theorem isUpper_of_lowercase {text : String} (h : Text.lowercase text = text) :
    ∀ c ∈ text.toList, c.isUpper = false := by
  intro c hc
  rw [← h, Text.lowercase, String.toList_ofList] at hc
  obtain ⟨d, -, rfl⟩ := List.mem_map.mp hc
  exact Text.isUpper_toLower d

theorem Labelled.attributed (h : dom.Labelled) : dom.Attributed where
  tagName_lower _ _ helement := isUpper_of_lowercase (h.labels helement).tagName_lower
  id_eq node element helement := by
    rw [attributeValue?_of_element? helement]
    exact (h.labels helement).id_eq
  classes_of_none node element helement hnone := by
    rw [attributeValue?_of_element? helement] at hnone
    rw [(h.labels helement).classes_eq, hnone]
    rfl
  classes_of_some node element helement value hvalue := by
    rw [attributeValue?_of_element? helement] at hvalue
    rw [(h.labels helement).classes_eq, hvalue, Option.map_some, Option.getD_some,
      Element.classWords, List.map_map, Function.comp_def]
    simpa using Text.isSplit_words value.toList
  attributeValue?_eq node name other hsame := by
    rw [attributeValue?, attributeValue?]
    exact congrArg _ (funext fun element => element.attributeValue?_congr hsame)
  attributeValue?_set node hnode name value other := by
    obtain ⟨element, helement⟩ := Option.isSome_iff_exists.mp hnode
    rw [setAttribute, attributeValue?_modifyElement dom helement,
      element.attributeValue?_setAttribute, attributeValue?_of_element? helement]
  attributeValue?_remove node hnode name other := by
    obtain ⟨element, helement⟩ := Option.isSome_iff_exists.mp hnode
    rw [removeAttribute, attributeValue?_modifyElement dom helement,
      element.attributeValue?_removeAttribute, attributeValue?_of_element? helement]
  setAttribute_eq _ hnode _ _ := modifyElement_of_not_isElement hnode _
  removeAttribute_eq _ hnode _ := modifyElement_of_not_isElement hnode _

/-- **After any edits the attributes of elements are a map in which the case of a name does not
count, and the tag names, the `id`s and the classes are what the map says.** -/
theorem attributed_of_edits (edits : List Edit) : (edits.foldl Dom.apply Dom.empty).Attributed :=
  (Labelled.empty.foldl edits).attributed

/-- Of two attributes with one name the first counts, and both are removed. -/
example :
    let made := (Element.new "P" [⟨"ID", "a"⟩, ⟨"id", "b"⟩, ⟨"Class", " x  y "⟩])
    (made.id, made.classes, (made.setAttribute "Id" "c").id, (made.removeAttribute "iD").id) =
      (some "a", ["x", "y"], some "c", none) := by
  decide +kernel

end Dom

end DomQuery

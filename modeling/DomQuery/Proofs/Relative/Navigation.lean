import DomQuery.Proofs.Matching.Position
import DomQuery.Proofs.Matching.Query
import DomQuery.Proofs.Relative.Legible

/-!
# Where a path leads

A path is written for one element, and this file tells which elements it leads to in a document
whose names can be written (`Navigable`).  Going down the path, an `id` is met by one element
only, and a step below a parent by one of its children only.  The first step below a document is
different.  It has no position, and the selector does not say that it begins at the document, so
every element with the tag name of the root element meets it, wherever it stands.

Accordingly a path leads to the *echoes* of its element (`Navigable.matchesComplex_path_iff`):
those that the same steps lead to from the element with the `id`, or from any element with the
tag name of the root element.  It leads to its element alone if and only if there is no other
echo (`querySelectorAll_path_eq_iff`).  That is so below an element with an `id`, and where no
other element has the tag name of the root element (`Navigable.eq_of_echo`), but not in every
document (`exists_echo_nested`).
-/

namespace DomQuery.Dom

/-- The names in the document can be written in a path, and its `id`s tell elements apart. -/
structure Navigable (dom : Dom) (document : Handle) : Prop where
  isDocument : dom.isDocument document = true
  tag_written : ∀ node ∈ dom.descendants document, ∀ name, dom.tagName? node = some name →
    name ≠ "" ∧ Identifier.escape name = name
  id_unique : ∀ node ∈ dom.descendants document, ∀ other ∈ dom.descendants document, ∀ id,
    id ≠ "" → dom.attributeValue? node "id" = some id →
      dom.attributeValue? other "id" = some id → node = other
  null_not_mem_id : ∀ node ∈ dom.descendants document, ∀ id, id ≠ "" →
    dom.attributeValue? node "id" = some id → '\x00' ∉ id.toList
  small : (dom.descendants document).length < 2147483648

/-- The node is an element that only elements stand above, up to the given node at the top, which
may be a document or an element itself. -/
inductive Rooted (dom : Dom) (document : Handle) : Handle → Prop where
  | top {node : Handle} : dom.isElement node = true → dom.parent? node = some document →
      Rooted dom document node
  | child {node parent : Handle} : dom.isElement node = true → dom.parent? node = some parent →
      Rooted dom document parent → Rooted dom document node

/-- The path of the node leads to the other one as well: to an element with the same `id`, to any
element with the tag name of the root element, and by the same step from where the path of the
parent leads to. -/
inductive Echo (dom : Dom) (document : Handle) : Handle → Handle → Prop where
  | id {node other : Handle} {id : String} : dom.pathId? node = some id →
      dom.pathId? other = some id → Echo dom document node other
  | top {node other : Handle} : dom.pathId? node = none → dom.parent? node = some document →
      dom.tagName? other = dom.tagName? node → Echo dom document node other
  | step {node parent other above : Handle} : dom.pathId? node = none →
      dom.parent? node = some parent → parent ≠ document → dom.parentElement? other = some above →
      Echo dom document parent above → dom.tagName? other = dom.tagName? node →
      dom.elementPosition? other = dom.elementPosition? node → Echo dom document node other

/-! ### Elements and what they are called -/

section Names

variable {dom : Dom} {node : Handle}

theorem elementPosition?_eq (hdom : dom.Reachable) {parent : Handle} {before after : List Handle}
    (hsplit : dom.elementChildren parent = before ++ node :: after) :
    dom.elementPosition? node = some (before.length + 1) := by
  rw [elementPosition?, hdom.forest.elementIndex?_eq hsplit, Option.map_some]

theorem matchesCompound_iff {scope : Option Handle} {simples : List SimpleSelector} :
    dom.matchesCompound scope simples node = true ↔
      ∃ element, dom.element? node = some element ∧
        dom.satisfiesAll scope simples node element = true := by
  rw [matchesCompound, Option.any_eq_true]

/-- Two elements below one parent that have the same position are the same. -/
theorem eq_of_elementPosition? (hdom : dom.Reachable) {parent other : Handle}
    (hparent : dom.parent? node = some parent) (hparent' : dom.parent? other = some parent)
    (helement : dom.isElement node = true) (helement' : dom.isElement other = true)
    (hposition : dom.elementPosition? other = dom.elementPosition? node) : other = node := by
  obtain ⟨before, after, hsplit⟩ := hdom.forest.exists_elementChildren_split hparent helement
  obtain ⟨left, right, hsplit'⟩ := hdom.forest.exists_elementChildren_split hparent' helement'
  rw [elementPosition?_eq hdom hsplit, elementPosition?_eq hdom hsplit', Option.some.injEq]
    at hposition
  exact eq_of_same_position hsplit' hsplit (by omega)

/-- A tag name in lower case is met by the elements that have it. -/
theorem satisfies_tag_iff (hdom : dom.Reachable) (scope : Option Handle) {name : String}
    (hlower : Text.lowercase name = name) {element : Element}
    (helement : dom.element? node = some element) :
    dom.satisfies scope (.tag name) node element = true ↔ dom.tagName? node = some name := by
  rw [satisfies, Text.sameFolded_iff (hdom.labels helement).tagName_lower hlower, tagName?,
    helement, Option.map_some, Option.some.injEq]

/-- An `id` is met by the elements that have it. -/
theorem matchesCompound_id_iff (hdom : dom.Reachable) (scope : Option Handle) {id : String}
    (hne : id ≠ "") :
    dom.matchesCompound scope [.id id] node = true ↔ dom.pathId? node = some id := by
  have hattribute : dom.pathId? node = some id ↔ dom.attributeValue? node "id" = some id := by
    simp [pathId?, Option.filter_eq_some_iff, hne]
  rw [matchesCompound_iff, hattribute, attributeValue?, Option.bind_eq_some_iff]
  refine exists_congr fun element => and_congr_right fun helement => ?_
  simp only [satisfiesAll, satisfies, Bool.and_true, beq_iff_eq]
  rw [(hdom.labels helement).id_eq]

/-- A step below a parent that is no document is met by the elements with the tag name that have a
parent and stand at the position. -/
theorem PlainlyNamed.matchesCompound_step_iff (h : dom.PlainlyNamed node) (hdom : dom.Reachable)
    (scope : Option Handle) {parent other : Handle} (hparent : dom.isDocument parent = false)
    (hbound : ∀ above, dom.parent? other = some above →
      (dom.elementChildren above).length < 2147483648) :
    dom.matchesCompound scope (dom.stepSimples node parent) other = true ↔
      dom.tagName? other = dom.tagName? node ∧ (∃ above, dom.parent? other = some above) ∧
        dom.elementPosition? other = dom.elementPosition? node := by
  obtain ⟨name, hname, -, hlower⟩ := h.exists_tag
  obtain ⟨position, hposition⟩ : ∃ position, dom.elementPosition? node = some position := by
    rw [elementPosition?, elementIndex?, if_pos (isElement_of_tagName? hname)]
    exact ⟨_, rfl⟩
  have hlt : position < 2147483648 := by
    have hlegible := h.position_lt
    rwa [hposition] at hlegible
  have hsimples : dom.stepSimples node parent = [.tag name, .nthChild (.single position)] := by
    simp [stepSimples, hname, hparent, hposition]
  -- where the other node is an element, the position says where it stands
  have hplace : ∀ element, dom.element? other = some element →
      (dom.satisfies scope (.nthChild (.single position)) other element = true ↔
        (∃ above, dom.parent? other = some above) ∧ dom.elementPosition? other = some position) := by
    intro element hsome
    cases habove : dom.parent? other with
    | none => simp [satisfies, hasParent, habove]
    | some above =>
        have hotherElement : dom.isElement other = true := by
          rw [isElement, hsome, Option.isSome_some]
        obtain ⟨left, _, hsplit⟩ := hdom.forest.exists_elementChildren_split habove hotherElement
        rw [hdom.forest.satisfies_nthChild_single scope hsplit (hbound above habove) hlt,
          elementPosition?_eq hdom hsplit, Option.some.injEq]
        exact (and_iff_right ⟨above, rfl⟩).symm
  rw [matchesCompound_iff, hsimples, hname, hposition]
  simp only [satisfiesAll, Bool.and_true, Bool.and_eq_true]
  constructor
  · rintro ⟨element, hsome, htag, hnth⟩
    exact ⟨(satisfies_tag_iff hdom scope hlower hsome).mp htag, (hplace element hsome).mp hnth⟩
  · rintro ⟨htag, hnth⟩
    obtain ⟨element, hsome⟩ := exists_element (isElement_of_tagName? htag)
    exact ⟨element, hsome, (satisfies_tag_iff hdom scope hlower hsome).mpr htag,
      (hplace element hsome).mpr hnth⟩

theorem attributeValue?_of_pathId? {id : String} (hid : dom.pathId? node = some id) :
    id ≠ "" ∧ dom.attributeValue? node "id" = some id :=
  ⟨ne_empty_of_pathId? hid, (Option.filter_eq_some_iff.mp hid).1⟩

/-- The names of an element can be written in a path if its tag name is an identifier and its `id`
does not hold U+0000. -/
theorem Reachable.plainlyNamed (hdom : dom.Reachable) (helement : dom.isElement node = true)
    (htag : ∀ name, dom.tagName? node = some name → name ≠ "" ∧ Identifier.escape name = name)
    (hid : ∀ id, id ≠ "" → dom.attributeValue? node "id" = some id → '\x00' ∉ id.toList)
    (hposition : (dom.elementPosition? node).getD 1 < 2147483648) : dom.PlainlyNamed node where
  exists_tag := by
    obtain ⟨name, hname⟩ := exists_tagName helement
    exact ⟨name, hname, hdom.isKeyword_tagName hname (htag name hname)⟩
  null_not_mem_id := by
    intro id hpath
    obtain ⟨hne, hvalue⟩ := attributeValue?_of_pathId? hpath
    exact hid id hne hvalue
  position_lt := hposition

theorem pathId?_of_isDocument (hdocument : dom.isDocument node = true) :
    dom.pathId? node = none := by
  have hnone : dom.element? node = none := by
    simpa [isElement] using dom.isElement_eq_false_of_isDocument hdocument
  simp [pathId?, attributeValue?, hnone]

end Names

/-! ### The way from the document -/

namespace Rooted

variable {dom : Dom} {document node : Handle}

theorem isElement (h : dom.Rooted document node) : dom.isElement node = true := by
  cases h with
  | top helement _ => exact helement
  | child helement _ _ => exact helement

theorem mem_descendants (h : dom.Rooted document node) (hdom : dom.Reachable) :
    node ∈ dom.descendants document := by
  induction h with
  | top _ hparent => exact hdom.forest.mem_descendants_of_parent hparent (Or.inl rfl)
  | child _ hparent _ ih => exact hdom.forest.mem_descendants_of_parent hparent (Or.inr ih)

theorem exists_parent (h : dom.Rooted document node) :
    ∃ parent, dom.parent? node = some parent := by
  cases h with
  | top _ hparent => exact ⟨document, hparent⟩
  | child _ hparent _ => exact ⟨_, hparent⟩

/-- An element is rooted as soon as the nodes above it are elements, the document apart. -/
theorem of_ancestors (hdom : dom.Reachable) (hnode : node ∈ dom.descendants document)
    (helement : dom.isElement node = true)
    (hline : ∀ other ∈ dom.ancestors node, other ≠ document → dom.isElement other = true) :
    dom.Rooted document node := by
  have hbelow := hdom.forest.mem_descendants.mp hnode
  clear hnode
  induction hbelow using Relation.TransGen.head_induction_on with
  | single hstep => exact Rooted.top helement hstep
  | @head node parent hstep hrest ih =>
      have hancestors := hdom.forest.ancestors_of_parent hstep
      by_cases heq : parent = document
      · exact Rooted.top helement (heq ▸ hstep)
      · have hparent : dom.isElement parent = true := hline parent (by simp [hancestors]) heq
        refine Rooted.child helement hstep (ih hparent fun other hother => ?_)
        exact hline other (by simp [hancestors, hother])

theorem pathSteps_ne_nil (h : dom.Rooted document node) (hdom : dom.Reachable) :
    dom.pathSteps (node :: dom.ancestors node) ≠ [] := by
  obtain ⟨parent, hparent⟩ := h.exists_parent
  rw [hdom.forest.ancestors_of_parent hparent]
  exact Dom.pathSteps_ne_nil _ _ _

/-- A path calls elements below the top only. -/
theorem of_mem_calledNodes (h : dom.Rooted document node) (hdom : dom.Reachable)
    (halone : dom.parent? document = none) :
    ∀ called ∈ dom.calledNodes (node :: dom.ancestors node), dom.Rooted document called := by
  induction h with
  | @top node helement hparent =>
      rw [hdom.forest.ancestors_of_parent hparent, hdom.forest.ancestors_of_alone halone, calledNodes]
      split
      · simp
      · simpa [calledNodes] using Rooted.top helement hparent
  | @child node parent helement hparent hrest ih =>
      rw [hdom.forest.ancestors_of_parent hparent, calledNodes]
      split
      · simp
      · exact List.forall_mem_cons.mpr ⟨Rooted.child helement hparent hrest, ih⟩

/-- If the names of the elements below the top can be written, a path is read as it was written. -/
theorem readPath_eq (h : dom.Rooted document node) (hdom : dom.Reachable)
    (halone : dom.parent? document = none)
    (hnamed : ∀ other, dom.Rooted document other → dom.PlainlyNamed other) :
    dom.readPath (node :: dom.ancestors node) = dom.pathSelector (node :: dom.ancestors node) := by
  induction h with
  | @top node helement hparent =>
      rw [hdom.forest.ancestors_of_parent hparent, hdom.forest.ancestors_of_alone halone]
      exact (hnamed node (Rooted.top helement hparent)).readPath_eq fun _ => rfl
  | @child node parent helement hparent hrest ih =>
      rw [hdom.forest.ancestors_of_parent hparent]
      exact (hnamed node (Rooted.child helement hparent hrest)).readPath_eq fun _ => ih

theorem spelled_path (h : dom.Rooted document node) (hdom : dom.Reachable)
    (halone : dom.parent? document = none)
    (hnamed : ∀ other, dom.Rooted document other → dom.PlainlyNamed other) :
    (dom.pathSelector (node :: dom.ancestors node)).Spelled (dom.path node).toList := by
  rw [← h.readPath_eq hdom halone hnamed, toList_path]
  exact spelled_readPath (h.pathSteps_ne_nil hdom) fun called hcalled =>
    (hnamed called (h.of_mem_calledNodes hdom halone called hcalled)).legible

end Rooted

namespace Navigable

variable {dom : Dom} {document node parent other : Handle}

theorem ne_document (h : dom.Navigable document) (helement : dom.isElement node = true) :
    node ≠ document := by
  rintro rfl
  rw [dom.isElement_eq_false_of_isDocument h.isDocument] at helement
  exact absurd helement (by simp)

theorem children_length_lt (h : dom.Navigable document) (hdom : dom.Reachable)
    (hmem : parent = document ∨ parent ∈ dom.descendants document) :
    (dom.elementChildren parent).length < 2147483648 :=
  (hdom.forest.elementChildren_length_le hmem).trans_lt h.small

theorem position_lt (h : dom.Navigable document) (hdom : dom.Reachable)
    (hmem : parent = document ∨ parent ∈ dom.descendants document) {before after : List Handle}
    (hsplit : dom.elementChildren parent = before ++ node :: after) :
    before.length + 1 < 2147483648 := by
  have hlength := h.children_length_lt hdom hmem
  rw [hsplit, List.length_append, List.length_cons] at hlength
  omega

/-- Every element has its place among the elements of a parent, which is no larger than a
selector can say. -/
theorem exists_place (h : dom.Navigable document) (hdom : dom.Reachable)
    (hnode : node ∈ dom.descendants document) (helement : dom.isElement node = true) :
    ∃ parent before after, dom.parent? node = some parent ∧
      (dom.elementChildren parent).length < 2147483648 ∧ before.length + 1 < 2147483648 ∧
      dom.elementChildren parent = before ++ node :: after := by
  obtain ⟨parent, hparent, -⟩ :=
    Relation.TransGen.head'_iff.mp (hdom.forest.mem_descendants.mp hnode)
  obtain ⟨before, after, hsplit⟩ := hdom.forest.exists_elementChildren_split hparent helement
  have hmem := hdom.forest.parent_of_mem_descendants hnode hparent
  exact ⟨parent, before, after, hparent, h.children_length_lt hdom hmem,
    h.position_lt hdom hmem hsplit, hsplit⟩

/-- Every element of the document has a name that can be written in a path. -/
theorem plainlyNamed (h : dom.Navigable document) (hdom : dom.Reachable)
    (hnode : node ∈ dom.descendants document) (helement : dom.isElement node = true) :
    dom.PlainlyNamed node := by
  refine hdom.plainlyNamed helement (h.tag_written node hnode) (h.null_not_mem_id node hnode) ?_
  obtain ⟨_, before, _, -, -, hposition, hsplit⟩ := h.exists_place hdom hnode helement
  rwa [elementPosition?_eq hdom hsplit, Option.getD_some]

/-- Two elements of the document that have an `id` in common are the same. -/
theorem eq_of_pathId? (h : dom.Navigable document) (hnode : node ∈ dom.descendants document)
    (hother : other ∈ dom.descendants document) {id : String} (hid : dom.pathId? node = some id)
    (hid' : dom.pathId? other = some id) : other = node := by
  obtain ⟨hne, hvalue⟩ := attributeValue?_of_pathId? hid
  exact h.id_unique other hother node hnode id hne (attributeValue?_of_pathId? hid').2 hvalue

/-! ### Paths -/

theorem pathSteps_document (h : dom.Navigable document) : dom.pathSteps [document] = [] := by
  rw [pathSteps, if_pos h.isDocument]

/-- The nodes that the path of a root element goes through. -/
theorem ancestors_of_top (hdom : dom.Reachable) (halone : dom.parent? document = none)
    (hparent : dom.parent? node = some document) : dom.ancestors node = [document] := by
  rw [hdom.forest.ancestors_of_parent hparent, hdom.forest.ancestors_of_alone halone]

/-- The path of an element is read as its selector. -/
theorem spelled_path (h : dom.Navigable document) (hdom : dom.Reachable)
    (halone : dom.parent? document = none) (hrooted : dom.Rooted document node) :
    (dom.pathSelector (node :: dom.ancestors node)).Spelled (dom.path node).toList :=
  hrooted.spelled_path hdom halone fun _ hother =>
    h.plainlyNamed hdom (hother.mem_descendants hdom) hother.isElement

/-! ### Steps -/

/-- The first step is met by every element with the tag name. -/
theorem matchesCompound_top_iff (h : dom.Navigable document) (hdom : dom.Reachable)
    (scope : Option Handle) (helement : dom.isElement node = true)
    (hparent : dom.parent? node = some document) :
    dom.matchesCompound scope (dom.stepSimples node document) other = true ↔
      dom.tagName? other = dom.tagName? node := by
  have hnode := hdom.forest.mem_descendants_of_parent hparent (Or.inl rfl)
  obtain ⟨name, hname, -, hlower⟩ := (h.plainlyNamed hdom hnode helement).exists_tag
  have hsimples : dom.stepSimples node document = [.tag name] := by
    simp [stepSimples, hname, h.isDocument]
  rw [matchesCompound_iff, hsimples, hname]
  simp only [satisfiesAll, Bool.and_true]
  constructor
  · rintro ⟨element, hsome, htag⟩
    exact (satisfies_tag_iff hdom scope hlower hsome).mp htag
  · intro htag
    obtain ⟨element, hsome⟩ := exists_element (isElement_of_tagName? htag)
    exact ⟨element, hsome, (satisfies_tag_iff hdom scope hlower hsome).mpr htag⟩

/-- A later step is met by the elements with the tag name and the position. -/
theorem matchesCompound_step_iff (h : dom.Navigable document) (hdom : dom.Reachable)
    (scope : Option Handle) (hnode : node ∈ dom.descendants document)
    (helement : dom.isElement node = true) (hparent : dom.isElement parent = true)
    (hother : other ∈ dom.descendants document) :
    dom.matchesCompound scope (dom.stepSimples node parent) other = true ↔
      dom.tagName? other = dom.tagName? node ∧
        dom.elementPosition? other = dom.elementPosition? node := by
  have hbound : ∀ above, dom.parent? other = some above →
      (dom.elementChildren above).length < 2147483648 := fun _ habove =>
    h.children_length_lt hdom (hdom.forest.parent_of_mem_descendants hother habove)
  obtain ⟨above, habove, -⟩ :=
    Relation.TransGen.head'_iff.mp (hdom.forest.mem_descendants.mp hother)
  rw [(h.plainlyNamed hdom hnode helement).matchesCompound_step_iff hdom scope
    (dom.isDocument_eq_false_of_isElement hparent) hbound]
  exact and_congr_right fun _ => and_iff_right ⟨above, habove⟩

/-! ### Echoes -/

/-- **A path leads to the echoes of its element.** -/
theorem matchesComplex_path_iff (h : dom.Navigable document) (hdom : dom.Reachable)
    (halone : dom.parent? document = none) (scope : Option Handle)
    (hrooted : dom.Rooted document node) (hother : other ∈ dom.descendants document) :
    dom.matchesComplex scope (dom.pathSelector (node :: dom.ancestors node)) other = true ↔
      dom.Echo document node other := by
  induction hrooted generalizing other with
  | @top node helement hparent =>
      rw [ancestors_of_top hdom halone hparent, pathSelector]
      cases hid : dom.pathId? node with
      | some id =>
          refine (matchesCompound_id_iff hdom scope (ne_empty_of_pathId? hid)).trans ?_
          constructor
          · exact Echo.id hid
          · intro hecho
            cases hecho with
            | id hid' hsame => exact hsame.trans (hid'.symm.trans hid)
            | top hnone _ _ => exact absurd (hnone.symm.trans hid) (by simp)
            | step hnone _ _ _ _ _ _ => exact absurd (hnone.symm.trans hid) (by simp)
      | none =>
          simp only [if_pos h.pathSteps_document]
          refine (h.matchesCompound_top_iff hdom scope helement hparent).trans ?_
          constructor
          · exact Echo.top hid hparent
          · intro hecho
            cases hecho with
            | id hid' _ => exact absurd (hid'.symm.trans hid) (by simp)
            | top _ _ htag => exact htag
            | step _ _ _ _ _ htag _ => exact htag
  | @child node parent helement hparent hrest ih =>
      have hnode := (Rooted.child helement hparent hrest).mem_descendants hdom
      have hparentNe : parent ≠ document := h.ne_document hrest.isElement
      rw [hdom.forest.ancestors_of_parent hparent, pathSelector]
      cases hid : dom.pathId? node with
      | some id =>
          refine (matchesCompound_id_iff hdom scope (ne_empty_of_pathId? hid)).trans ?_
          constructor
          · exact Echo.id hid
          · intro hecho
            cases hecho with
            | id hid' hsame => exact hsame.trans (hid'.symm.trans hid)
            | top hnone _ _ => exact absurd (hnone.symm.trans hid) (by simp)
            | step hnone _ _ _ _ _ _ => exact absurd (hnone.symm.trans hid) (by simp)
      | none =>
          -- the parent is not the document, so its path is not empty
          simp only [if_neg (hrest.pathSteps_ne_nil hdom)]
          rw [matchesComplex, ← matchesCompound, Bool.and_eq_true, List.any_eq_true,
            h.matchesCompound_step_iff hdom scope hnode helement hrest.isElement hother]
          constructor
          · rintro ⟨⟨htag, hposition⟩, above, habove, hpath⟩
            have habove := Option.mem_toList.mp habove
            obtain ⟨hup, haboveElement⟩ := Option.filter_eq_some_iff.mp habove
            have hbelow := (hdom.forest.parent_of_mem_descendants hother hup).resolve_left
              (h.ne_document haboveElement)
            exact Echo.step hid hparent hparentNe habove ((ih hbelow).mp hpath) htag hposition
          · intro hecho
            cases hecho with
            | id hid' _ => exact absurd (hid'.symm.trans hid) (by simp)
            | top _ hparent' _ =>
                exact absurd (Option.some.inj (hparent.symm.trans hparent')) hparentNe
            | @step _ parent' _ above _ hparent' _ habove hrestEcho htag hposition =>
                obtain rfl : parent = parent' := Option.some.inj (hparent.symm.trans hparent')
                obtain ⟨hup, haboveElement⟩ := Option.filter_eq_some_iff.mp habove
                have hbelow := (hdom.forest.parent_of_mem_descendants hother hup).resolve_left
                  (h.ne_document haboveElement)
                exact ⟨⟨htag, hposition⟩, above, Option.mem_toList.mpr habove,
                  (ih hbelow).mpr hrestEcho⟩

/-- Every element is an echo of itself. -/
theorem echo_self (h : dom.Navigable document) (hrooted : dom.Rooted document node) :
    dom.Echo document node node := by
  induction hrooted with
  | @top node _ hparent =>
      cases hid : dom.pathId? node with
      | some id => exact Echo.id hid hid
      | none => exact Echo.top hid hparent rfl
  | @child node parent _ hparent hrest ih =>
      cases hid : dom.pathId? node with
      | some id => exact Echo.id hid hid
      | none =>
          have hup : dom.parentElement? node = some parent :=
            Option.filter_eq_some_iff.mpr ⟨hparent, hrest.isElement⟩
          exact Echo.step hid hparent (h.ne_document hrest.isElement) hup ih rfl rfl

/-- An element has no other echo if an `id` stands on the way to it, or if the tag name of the
root element is its own. -/
theorem eq_of_echo (h : dom.Navigable document) (hdom : dom.Reachable)
    (halone : dom.parent? document = none) (hrooted : dom.Rooted document node)
    (hunique : (∀ marked ∈ node :: dom.ancestors node, dom.pathId? marked = none) →
      ∀ top ∈ dom.elementChildren document, ∀ other ∈ dom.descendants document,
        dom.tagName? other = dom.tagName? top → other = top)
    (hother : other ∈ dom.descendants document) (hecho : dom.Echo document node other) :
    other = node := by
  induction hrooted generalizing other with
  | @top node helement hparent =>
      have hnode := hdom.forest.mem_descendants_of_parent hparent (Or.inl rfl)
      cases hecho with
      | id hid hsame => exact h.eq_of_pathId? hnode hother hid hsame
      | top hnone _ htag =>
          obtain ⟨before, after, hsplit⟩ := hdom.forest.exists_elementChildren_split hparent helement
          -- nothing but the document stands above the root element
          have hunmarked : ∀ marked ∈ node :: dom.ancestors node, dom.pathId? marked = none := by
            rw [ancestors_of_top hdom halone hparent]
            simp [hnone, pathId?_of_isDocument h.isDocument]
          exact hunique hunmarked node (by simp [hsplit]) other hother htag
      | step _ hparent' hne _ _ _ _ =>
          exact absurd (Option.some.inj (hparent'.symm.trans hparent)) hne
  | @child node parent helement hparent hrest ih =>
      have hnode := (Rooted.child helement hparent hrest).mem_descendants hdom
      have hparentNe : parent ≠ document := h.ne_document hrest.isElement
      cases hecho with
      | id hid hsame => exact h.eq_of_pathId? hnode hother hid hsame
      | top _ hparent' _ =>
          exact absurd (Option.some.inj (hparent.symm.trans hparent')) hparentNe
      | @step _ parent' _ above hnone hparent' _ habove hrestEcho htag hposition =>
          obtain rfl : parent = parent' := Option.some.inj (hparent.symm.trans hparent')
          obtain ⟨hup, haboveElement⟩ := Option.filter_eq_some_iff.mp habove
          have hbelow := (hdom.forest.parent_of_mem_descendants hother hup).resolve_left
            (h.ne_document haboveElement)
          -- what is below the same element at the same position is the same
          have hsame : above = parent := by
            refine ih (fun hmarked => hunique ?_) hbelow hrestEcho
            rw [hdom.forest.ancestors_of_parent hparent]
            exact List.forall_mem_cons.mpr ⟨hnone, hmarked⟩
          obtain ⟨name, hname, -⟩ := (h.plainlyNamed hdom hnode helement).exists_tag
          have hotherElement := isElement_of_tagName? (htag.trans hname)
          exact eq_of_elementPosition? hdom hparent (hsame ▸ hup) helement hotherElement hposition

end Navigable

/-! ### Queries -/

section Queries

variable {dom : Dom} {node : Handle}

/-- What the path of an element finds in its document, with the element among it. -/
theorem mem_querySelectorAll_path_iff (hdom : dom.Reachable)
    (h : dom.Navigable (dom.root node)) (hrooted : dom.Rooted (dom.root node) node) :
    ∃ found, dom.querySelectorAll (dom.root node) (dom.path node) = .ok found ∧ found.Nodup ∧
      ∀ other, other ∈ found ↔
        other ∈ dom.descendants (dom.root node) ∧ dom.Echo (dom.root node) node other := by
  have halone := hdom.forest.parent_root node
  have hread := (h.spelled_path hdom halone hrooted).ofText
  rw [String.ofList_toList] at hread
  refine ⟨_, querySelectorAll_of_isDocument h.isDocument hread,
    (hdom.forest.nodup_descendants _).filter _, fun other => ?_⟩
  rw [List.mem_filter]
  refine and_congr_right fun hother => ?_
  rw [← h.matchesComplex_path_iff hdom halone _ hrooted hother, matchesAny, matchesAny,
    Bool.or_false]

/-- **The path of an element finds that element alone if and only if it has no other echo.** -/
theorem querySelectorAll_path_eq_iff (hdom : dom.Reachable) (helement : dom.isElement node = true)
    (h : dom.Navigable (dom.root node))
    (hline : ∀ other ∈ dom.ancestors node, other ≠ dom.root node →
      dom.isElement other = true) :
    dom.querySelectorAll (dom.root node) (dom.path node) = .ok [node] ↔
      ∀ other ∈ dom.descendants (dom.root node),
        dom.Echo (dom.root node) node other → other = node := by
  have hnode : node ∈ dom.descendants (dom.root node) :=
    (hdom.forest.eq_or_mem_descendants_root node).resolve_left (h.ne_document helement).symm
  have hrooted := Rooted.of_ancestors hdom hnode helement hline
  obtain ⟨found, hfound, hnodup, hmem⟩ := mem_querySelectorAll_path_iff hdom h hrooted
  rw [hfound, Except.ok.injEq]
  constructor
  · rintro rfl other hother hecho
    exact List.mem_singleton.mp ((hmem other).mpr ⟨hother, hecho⟩)
  · intro hunique
    refine List.perm_singleton.mp ((List.perm_ext_iff_of_nodup hnodup (by simp)).mpr fun other => ?_)
    rw [hmem, List.mem_singleton]
    constructor
    · exact fun hother => hunique other hother.1 hother.2
    · rintro rfl
      exact ⟨hnode, h.echo_self hrooted⟩

end Queries

/-! ### A root element whose tag name occurs again -/

/-- The edits that build a document whose root element `a` holds another `a`. -/
def nestedEdits : List Edit :=
  [.createDocument, .createElement "a" [], .createElement "a" [], .appendChild ⟨0, 0⟩ ⟨1, 0⟩,
    .appendChild ⟨1, 0⟩ ⟨2, 0⟩]

def nested : Dom :=
  (Dom.empty.run? nestedEdits).getD Dom.empty

theorem reachable_nested : nested.Reachable :=
  Reachable.empty.run? (show Dom.empty.run? nestedEdits = some nested from rfl)

theorem id_nested : ∀ node ∈ nested.descendants ⟨0, 0⟩,
    nested.attributeValue? node "id" = none := by
  decide +kernel

theorem navigable_nested : nested.Navigable ⟨0, 0⟩ where
  isDocument := rfl
  tag_written := by decide +kernel
  id_unique := fun node hnode _ _ _ _ hid => absurd (hid ▸ id_nested node hnode) (by simp)
  null_not_mem_id := fun node hnode _ _ hid => absurd (hid ▸ id_nested node hnode) (by simp)
  small := by decide +kernel

/-- The path of the inner element goes through the outer one, which has no echo below it that
holds another element. -/
theorem querySelectorAll_path_nested :
    nested.querySelectorAll (nested.root ⟨2, 0⟩) (nested.path ⟨2, 0⟩) = .ok [⟨2, 0⟩] := by
  refine (querySelectorAll_path_eq_iff reachable_nested rfl
    (show nested.Navigable (nested.root ⟨2, 0⟩) from navigable_nested) (by decide +kernel)).mpr ?_
  intro other hother hecho
  have hcases : other = ⟨1, 0⟩ ∨ other = ⟨2, 0⟩ := by
    have hlist : nested.descendants (nested.root ⟨2, 0⟩) = [⟨1, 0⟩, ⟨2, 0⟩] := by decide +kernel
    simpa [hlist] using hother
  refine hcases.resolve_left ?_
  rintro rfl
  have hid : nested.pathId? ⟨2, 0⟩ = none := by decide +kernel
  have habove : nested.parentElement? ⟨1, 0⟩ = none := by decide +kernel
  cases hecho with
  | id hid' _ => exact absurd (hid'.symm.trans hid) (by simp)
  | top _ hparent _ => exact absurd hparent (by decide +kernel)
  | step _ _ _ habove' _ _ _ => exact absurd (habove'.symm.trans habove) (by simp)

/-- The path of the outer element is its tag name, and finds the inner one too. -/
theorem exists_echo_nested :
    nested.Reachable ∧ nested.Navigable (nested.root ⟨1, 0⟩) ∧
      nested.elementChildren (nested.root ⟨1, 0⟩) = [⟨1, 0⟩] ∧
      nested.isElement ⟨1, 0⟩ = true ∧
      (∀ other ∈ nested.ancestors ⟨1, 0⟩, other ≠ nested.root ⟨1, 0⟩ →
        nested.isElement other = true) ∧
      nested.querySelectorAll (nested.root ⟨1, 0⟩) (nested.path ⟨1, 0⟩) =
        .ok [⟨1, 0⟩, ⟨2, 0⟩] :=
  ⟨reachable_nested, navigable_nested, by decide +kernel, by decide +kernel, by decide +kernel,
    by decide +kernel⟩

end DomQuery.Dom

import DomQuery.Proofs.Dom.Labels
import DomQuery.Proofs.Matching.Query
import DomQuery.Proofs.Selector.Rendering

/-!
# Finding elements by what they are called

An escaped name can be put behind `#` or `.`, or into an attribute selector for `id` or `class`.
Whatever the name is, the text is read as this one condition (`SelectorList.ofText_of_written`),
and it finds the elements whose attribute says the name (`findsNamed_of_reachable`).  The two ways
to write the condition find the same, although one looks at the labels of an element and the other
at its attributes, because in a reachable state the labels are what the attributes say.
-/

namespace DomQuery

open Identifier (escape)

/-! ### Conditions on names -/

/-- A text that is the written form of one condition is read as this condition. -/
theorem SelectorList.ofText_of_written {text : String} {simple : SimpleSelector}
    (hwritten : simple.written = text.toList) (hshape : simple.isWellShaped = true) :
    SelectorList.ofText text = .ok [.compound [simple]] := by
  have hrender : SelectorList.render [.compound [simple]] = text := by
    rw [← String.toList_inj]
    simp [render, writtenAlternatives, ComplexSelector.written, writtenCompound, hwritten]
  rw [← hrender]
  refine ofText_render ?_
  simp [isWellShaped, areWellShaped, ComplexSelector.isWellShaped, isWellShapedCompound,
    canFollow, hshape]

/-- The written forms of the conditions on a name are read as these conditions. -/
structure ReadsNamed (name : String) : Prop where
  id : SelectorList.ofText ("#" ++ escape name) = .ok [.compound [.id name]]
  idAttribute : SelectorList.ofText ("[id=" ++ escape name ++ "]") =
    .ok [.compound [.hasAttribute "id" (some (.equals, name))]]
  className : SelectorList.ofText ("." ++ escape name) = .ok [.compound [.className name]]
  classAttribute : SelectorList.ofText ("[class~=" ++ escape name ++ "]") =
    .ok [.compound [.hasAttribute "class" (some (.includes, name))]]

theorem escape_id : escape "id" = "id" := by decide

theorem escape_class : escape "class" = "class" := by decide

theorem readsNamed {name : String} (hne : name ≠ "") (hnull : '\x00' ∉ name.toList) :
    ReadsNamed name := by
  have hwritable : Identifier.isWritable name = true := by
    simp [Identifier.isWritable, hne, hnull]
  refine ⟨?_, ?_, ?_, ?_⟩
  · exact SelectorList.ofText_of_written (by simp [SimpleSelector.written]) hwritable
  · refine SelectorList.ofText_of_written ?_ ?_
    · simp [SimpleSelector.written, escape_id, AttributeOp.written, AttributeOp.sign?,
        writtenValue, hne]
    · simp [SimpleSelector.isWellShaped, Identifier.isWritable, hnull]
  · exact SelectorList.ofText_of_written (by simp [SimpleSelector.written]) hwritable
  · refine SelectorList.ofText_of_written ?_ ?_
    · simp [SimpleSelector.written, escape_class, AttributeOp.written, AttributeOp.sign?,
        writtenValue, hne]
    · simp [SimpleSelector.isWellShaped, Identifier.isWritable, hnull]

/-! ### Elements with a name -/

namespace Dom

variable {dom : Dom} {node : Handle} {name label : String} {test : String → Bool}

/-- The elements below the node, in order, whose first attribute with the label has a value that
passes the test. -/
def labelledBelow (dom : Dom) (node : Handle) (label : String) (test : String → Bool) :
    List Handle :=
  (dom.descendants node).filter fun other => (dom.attributeValue? other label).any test

/-- A single condition that tests an attribute finds the elements that pass the test. -/
theorem querySelectorAll_single {text : String} {simple : SimpleSelector}
    (hnode : dom.isElement node = true ∨ dom.isDocument node = true)
    (hread : SelectorList.ofText text = .ok [.compound [simple]])
    (hsimple : ∀ scope other element, dom.element? other = some element →
      dom.satisfies scope simple other element = (element.attributeValue? label).any test) :
    dom.querySelectorAll node text = .ok (dom.labelledBelow node label test) := by
  have hmatches : ∀ scope, dom.matchesAny scope [.compound [simple]] =
      fun other => (dom.attributeValue? other label).any test := by
    intro scope
    funext other
    simp only [matchesAny, matchesComplex, satisfiesAll, Bool.and_true, Bool.or_false]
    cases helement : dom.element? other with
    | none => simp [attributeValue?, helement]
    | some element => simp [attributeValue?, helement, hsimple scope other element helement]
  rcases hnode with helement | hdocument
  · rw [querySelectorAll_of_isElement helement hread, hmatches, labelledBelow]
  · rw [querySelectorAll_of_isDocument hdocument hread, hmatches, labelledBelow]

/-- The name is among the classes of a labelled element when its class attribute has the word. -/
theorem hasClass_eq {element : Element} (h : element.Labelled) (name : String) :
    element.hasClass name = (element.attributeValue? "class").any fun value =>
      (Text.words value.toList).contains name.toList := by
  rw [Element.hasClass, h.classes_eq]
  cases element.attributeValue? "class" with
  | none => rfl
  | some value =>
      rw [Option.map_some, Option.getD_some, Option.any_some, Element.classWords, Bool.eq_iff_iff,
        List.contains_iff_mem, List.contains_iff_mem, List.mem_map]
      constructor
      · rintro ⟨word, hmem, rfl⟩
        rwa [String.toList_ofList]
      · exact fun hmem => ⟨name.toList, hmem, String.ofList_toList⟩

/-- The conditions on a name find the elements below the node, in order, whose first attribute
`id` is the name, and those whose first attribute `class` has the name among its words. -/
structure FindsNamed (dom : Dom) (node : Handle) (name : String) : Prop where
  id : dom.querySelectorAll node ("#" ++ escape name) =
    .ok (dom.labelledBelow node "id" (· == name))
  idAttribute : dom.querySelectorAll node ("[id=" ++ escape name ++ "]") =
    .ok (dom.labelledBelow node "id" (· == name))
  className : dom.querySelectorAll node ("." ++ escape name) =
    .ok (dom.labelledBelow node "class" fun value =>
      (Text.words value.toList).contains name.toList)
  classAttribute : dom.querySelectorAll node ("[class~=" ++ escape name ++ "]") =
    .ok (dom.labelledBelow node "class" fun value =>
      (Text.words value.toList).contains name.toList)

/-- **An escaped name finds the elements with the name, and nothing else.** -/
theorem findsNamed_of_reachable (hdom : dom.Reachable)
    (hnode : dom.isElement node = true ∨ dom.isDocument node = true)
    (hne : name ≠ "") (hnull : '\x00' ∉ name.toList) :
    ReadsNamed name ∧ FindsNamed dom node name := by
  have hreads := readsNamed hne hnull
  refine ⟨hreads, ⟨?_, ?_, ?_, ?_⟩⟩
  · refine querySelectorAll_single hnode hreads.id fun scope other element helement => ?_
    rw [satisfies, (hdom.labels helement).id_eq]
    cases element.attributeValue? "id" <;> rfl
  · refine querySelectorAll_single hnode hreads.idAttribute fun scope other element _ => ?_
    rw [satisfies]
    congr 1
    funext value
    rw [AttributeOp.accepts, Bool.eq_iff_iff, beq_iff_eq, beq_iff_eq, String.toList_inj]
  · refine querySelectorAll_single hnode hreads.className fun scope other element helement => ?_
    rw [satisfies, hasClass_eq (hdom.labels helement)]
  · refine querySelectorAll_single hnode hreads.classAttribute fun scope other element _ => ?_
    rw [satisfies]
    rfl

/-! ### A name that has to be escaped -/

/-- The edits that build a document whose root element has the `id` `1]` and the classes `a` and
`1]`, the former under a name in upper case. -/
def numberedEdits : List Edit :=
  [.createDocument, .createElement "p" [⟨"ID", "1]"⟩, ⟨"class", " a\t1] "⟩],
    .appendChild ⟨0, 0⟩ ⟨1, 0⟩]

def numbered : Dom :=
  (Dom.empty.run? numberedEdits).getD Dom.empty

theorem reachable_numbered : numbered.Reachable :=
  Reachable.empty.run? (show Dom.empty.run? numberedEdits = some numbered from rfl)

theorem findsNamed_numbered : escape "1]" = "\\31 \\]" ∧
    numbered.querySelectorAll ⟨0, 0⟩ "#\\31 \\]" = .ok [⟨1, 0⟩] ∧
    numbered.querySelectorAll ⟨0, 0⟩ ".\\31 \\]" = .ok [⟨1, 0⟩] ∧
    ReadsNamed "1]" ∧ FindsNamed numbered ⟨0, 0⟩ "1]" :=
  have hfinds : ReadsNamed "1]" ∧ FindsNamed numbered ⟨0, 0⟩ "1]" :=
    findsNamed_of_reachable reachable_numbered (Or.inr rfl) (by decide) (by decide)
  ⟨by decide, hfinds.2.id, hfinds.2.className, hfinds⟩

end Dom

end DomQuery
